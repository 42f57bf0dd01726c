import GraphR.Store.Reference

/-! # The store refines the reference model

    Key by key: the document read from a base node and an overlay node is the
    document of the model (`KeySim`). Every op keeps this (`KeySim.step`), and
    folding the pair into a base node keeps it too (`KeySim.compacted`); reopening
    changes nothing. The invariant over whole runs is `Sim`. -/

namespace GraphR

open Wal ByteLib

/-! ## The document of a base node and an overlay node -/

/-- What the model keeps of a node. -/
def NodeRef.doc (n : NodeRef) (segs : List SegRef) (edges : List Edge)
    (attrs : List (UInt8 × String)) : Doc :=
  { url := n.url, title := n.title, snippet := n.snippet, etag := n.etag
    contentHash := n.contentHash, fetchedAtMs := n.fetchedAtMs, pinned := n.pinned
    checks := n.checks, changes := n.changes, lastChangeMs := n.lastChangeMs, segs, edges, attrs }

/-- What of a node does not depend on the policy, its id and its rank. -/
def NodeRef.content (n : NodeRef) : NodeRef :=
  { n with id := none, intervalS := 0, rankPermille := 0 }

theorem content_mergedRef (ttl ttl' : TtlConfig) (k : UrlKey) (id id' : Option Nat)
    (rank rank' : UInt16) (m : Option NodeModel) (p : Option OverlayNode) :
    (mergedRef ttl k id rank m p).map NodeRef.content
      = (mergedRef ttl' k id' rank' m p).map NodeRef.content := by
  unfold mergedRef
  split_ifs with hrem
  · rfl
  · cases hcore : p.bind fun p => p.core.map fun c => (p, c) with
    | none => cases m <;> rfl
    | some pc =>
      cases htouch : pc.1.touch <;>
        simp [NodeRef.content, NodeRef.make, coreFreshness, htouch, Freshness.touched]

/-- The document of a key. -/
def docOf (xxh3 : Bytes → UInt64) (k : UrlKey) (m : Option NodeModel) (p : Option OverlayNode) :
    Option Doc :=
  ((mergedRef TtlConfig.default k none 0 m p).filter fun n => !n.isStub).map fun n =>
    n.doc (mergedSegs xxh3 k m p) (mergedEdges m p) (mergedAttrs m p)

/-! ## Well-formed nodes -/

/-- A base node no run of the model can tombstone. -/
structure GoodNode (n : NodeModel) : Prop where
  tombstone : hasFlag n.flags nflags.tombstone = false
  stub : hasFlag n.flags nflags.stub = true → n = stubModel
  edges : Ascending n.edges

/-- An overlay node over a base node. -/
structure GoodPatch (m : Option NodeModel) (p : OverlayNode) : Prop where
  removed : p.removed = true → p = { removed := true, severed := true }
  /-- Without a core it patches a document of the base. -/
  bare : p.removed = false → p.core = none →
    p.severed = false ∧ p.carried = none ∧ ∃ n, m = some n ∧ hasFlag n.flags nflags.stub = false
  core : ∀ c, p.core = some c →
    hasFlag c.flags nflags.stub = false ∧ hasFlag c.flags nflags.tombstone = false
  touch : ∀ t, p.touch = some t → t.tombstone = false ∧ t.contentHash.isSome
  edges : ∀ es, p.edges = some es → Ascending es

/-- The relation of one key. -/
structure KeySim (xxh3 : Bytes → UInt64) (k : UrlKey) (m : Option NodeModel)
    (p : Option OverlayNode) (d : Option Doc) : Prop where
  node : ∀ n, m = some n → GoodNode n
  patch : ∀ q, p = some q → GoodPatch m q
  doc : docOf xxh3 k m p = d

theorem KeySim.of_patch {xxh3 : Bytes → UInt64} {k : UrlKey} {m : Option NodeModel}
    {q : OverlayNode} {d : Option Doc} (hnode : ∀ n, m = some n → GoodNode n)
    (hgood : GoodPatch m q) (hdoc : docOf xxh3 k m (some q) = d) : KeySim xxh3 k m (some q) d :=
  ⟨hnode, fun _ hq => Option.some.inj hq ▸ hgood, hdoc⟩

/-! ## Reading a document -/

section reading
variable {xxh3 : Bytes → UInt64} {k : UrlKey} {m : Option NodeModel}

/-- The fields a touch leaves alone or replaces. -/
def Doc.withTouch (d : Doc) : Option TouchRecord → Doc
  | none => d
  | some t =>
    { d with
      etag := t.etag.or d.etag, contentHash := t.contentHash.getD d.contentHash
      fetchedAtMs := t.checkedAtMs, checks := t.checks, changes := t.changes
      lastChangeMs := t.lastChangeMs }

/-- The base record an overlay core may inherit from. -/
def inherited (m : Option NodeModel) (p : OverlayNode) : Option NodeModel :=
  if p.severed then none else m

/-- The document of an overlay core. -/
def coreDoc (xxh3 : Bytes → UInt64) (k : UrlKey) (m : Option NodeModel) (p : OverlayNode)
    (c : Upsert) : Doc :=
  let counters := p.carried.getD
    ((inherited m p).elim (0, 0, 0) fun n => (n.checks, n.changes, n.lastChangeMs))
  Doc.withTouch
    { url := c.url, title := c.title, snippet := c.snippet, etag := c.etag
      contentHash := c.contentHash, fetchedAtMs := c.fetchedAtMs
      pinned := p.pinned.getD (hasFlag c.flags nflags.pinned ||
        (inherited m p).any fun n => hasFlag n.flags nflags.pinned)
      checks := counters.1, changes := counters.2.1, lastChangeMs := counters.2.2
      segs := mergedSegs xxh3 k m (some p), edges := mergedEdges m (some p)
      attrs := mergedAttrs m (some p) } p.touch

/-- The document of a patched base node. -/
def baseDoc (xxh3 : Bytes → UInt64) (k : UrlKey) (n : NodeModel) (p : OverlayNode) : Doc :=
  Doc.withTouch
    { url := n.url, title := n.title, snippet := n.snippet, etag := n.etag
      contentHash := n.contentHash, fetchedAtMs := n.fetchedAtMs
      pinned := p.pinned.getD (hasFlag n.flags nflags.pinned)
      checks := n.checks, changes := n.changes, lastChangeMs := n.lastChangeMs
      segs := mergedSegs xxh3 k (some n) (some p), edges := mergedEdges (some n) (some p)
      attrs := mergedAttrs (some n) (some p) } p.touch

theorem docOf_core {p : OverlayNode} {c : Upsert} (hgood : GoodPatch m p)
    (hrem : p.removed = false) (hcore : p.core = some c) :
    docOf xxh3 k m (some p) = some (coreDoc xxh3 k m p c) := by
  have hbind : ((some p).bind fun p => p.core.map fun c => (p, c)) = some (p, c) := by
    simp [hcore]
  obtain ⟨hpin, hstub, -⟩ := coreFlags_spec p c
    (if p.severed then none else m.map (·.toRec k))
  rw [(hgood.core c hcore).1] at hstub
  have hany : ((if p.severed then none else m.map (·.toRec k)).any
      fun r => hasFlag r.flags nflags.pinned)
        = (inherited m p).any fun n => hasFlag n.flags nflags.pinned := by
    unfold inherited
    by_cases hsev : p.severed = true
    · simp [hsev]
    · cases m <;> simp [hsev, NodeModel.toRec]
  rw [hany] at hpin
  unfold docOf mergedRef
  rw [hbind]
  simp only [Option.any_some, hrem, Bool.false_eq_true, if_false]
  cases htouch : p.touch with
  | some t =>
    have htomb := (hgood.touch t htouch).1
    have hflags : (NodeRef.make k none c.url c.title c.snippet
        (coreFreshness TtlConfig.default p c (m.map (·.toRec k))) 0).flags
          = coreFlags p c (if p.severed then none else m.map (·.toRec k)) := by
      simp [NodeRef.make, coreFreshness, htouch, Freshness.touched, htomb]
    rw [Option.filter_some_pos (by simp [NodeRef.isStub, hflags, hstub])]
    simp [NodeRef.doc, NodeRef.pinned, hpin, coreDoc, Doc.withTouch, htouch, htomb,
      NodeRef.make, coreFreshness, Freshness.touched]
  | none =>
    have hflags : (NodeRef.make k none c.url c.title c.snippet
        (coreFreshness TtlConfig.default p c (m.map (·.toRec k))) 0).flags
          = coreFlags p c (if p.severed then none else m.map (·.toRec k)) := by
      simp [NodeRef.make, coreFreshness, htouch]
    rw [Option.filter_some_pos (by simp [NodeRef.isStub, hflags, hstub])]
    have hcounters : coreCounters p (if p.severed then none else m.map (·.toRec k))
        = p.carried.getD ((inherited m p).elim (0, 0, 0)
            fun n => (n.checks, n.changes, n.lastChangeMs)) := by
      unfold coreCounters inherited
      cases p.carried with
      | some c => rfl
      | none =>
        by_cases hsev : p.severed = true
        · simp [hsev]
        · cases m <;> simp [hsev, NodeModel.toRec]
    simp [NodeRef.doc, NodeRef.pinned, hpin, coreDoc, Doc.withTouch, htouch,
      NodeRef.make, coreFreshness, hcounters]

theorem docOf_base {n : NodeModel} {p : OverlayNode} (hgood : GoodPatch (some n) p)
    (hrem : p.removed = false) (hcore : p.core = none)
    (hstub : hasFlag n.flags nflags.stub = false) :
    docOf xxh3 k (some n) (some p) = some (baseDoc xxh3 k n p) := by
  have hbind : ((some p).bind fun p => p.core.map fun c => (p, c)) = none := by
    simp [hcore]
  have hpin : hasFlag (p.pinned.elim n.flags (withPin n.flags)) nflags.pinned
      = p.pinned.getD (hasFlag n.flags nflags.pinned) := by
    cases p.pinned with
    | none => rfl
    | some pinned => exact withPin_pinned _ _
  have hstub' : hasFlag (p.pinned.elim n.flags (withPin n.flags)) nflags.stub = false := by
    cases p.pinned with
    | none => exact hstub
    | some pinned => exact (withPin_other _ _ (.inl rfl)).trans hstub
  unfold docOf mergedRef
  rw [hbind]
  simp only [Option.any_some, hrem, Bool.false_eq_true, if_false, Option.map_some]
  have hflags : (NodeRef.make k none n.url n.title n.snippet
      (baseFreshness (n.toRec k) (some p)) 0).flags = p.pinned.elim n.flags (withPin n.flags) := by
    cases htouch : p.touch with
    | none => simp [NodeRef.make, baseFreshness, htouch, NodeModel.toRec]
    | some t =>
      simp [NodeRef.make, baseFreshness, htouch, Freshness.touched, NodeModel.toRec,
        (hgood.touch t htouch).1]
  rw [Option.filter_some_pos (by simp [NodeRef.isStub, hflags, hstub'])]
  cases htouch : p.touch with
  | none =>
    simp [NodeRef.doc, NodeRef.pinned, hpin, baseDoc, Doc.withTouch, htouch,
      NodeRef.make, baseFreshness, NodeModel.toRec]
  | some t =>
    simp [NodeRef.doc, NodeRef.pinned, hpin, baseDoc, Doc.withTouch, htouch, (hgood.touch t htouch).1,
      NodeRef.make, baseFreshness, Freshness.touched, NodeModel.toRec]

theorem docOf_removed {p : OverlayNode} (hrem : p.removed = true) :
    docOf xxh3 k m (some p) = none := by
  unfold docOf mergedRef
  simp [hrem]

/-- No patch reads as an empty one. -/
theorem docOf_none : docOf xxh3 k m none = docOf xxh3 k m (some {}) := by
  cases m <;> rfl

theorem docOf_missing : docOf xxh3 k none none = none := rfl

theorem docOf_stub : docOf xxh3 k (some stubModel) none = none := by
  have hstub : hasFlag nflags.stub nflags.stub = true := by decide
  simp [docOf, mergedRef, NodeRef.make, baseFreshness, NodeModel.toRec, stubModel, NodeRef.isStub,
    hstub]

end reading

/-! ## One op -/

section step
variable {xxh3 : Bytes → UInt64} {k : UrlKey} {m : Option NodeModel} {p : Option OverlayNode}
  {d : Option Doc}

/-- A key is absent, or a document of the base with a patch without core, or
    one of the overlay. -/
theorem KeySim.shape (h : KeySim xxh3 k m p d) :
    (d = none ∧ ((p.getD {} = {} ∧ (m = none ∨ m = some stubModel)) ∨
      p.getD {} = { removed := true, severed := true })) ∨
    (∃ n, m = some n ∧ hasFlag n.flags nflags.stub = false ∧ GoodPatch m (p.getD {}) ∧
      (p.getD {}).removed = false ∧ (p.getD {}).core = none ∧
      d = some (baseDoc xxh3 k n (p.getD {}))) ∨
    (∃ c, GoodPatch m (p.getD {}) ∧ (p.getD {}).removed = false ∧ (p.getD {}).core = some c ∧
      d = some (coreDoc xxh3 k m (p.getD {}) c)) := by
  rcases h with ⟨hnode, hpatch, rfl⟩
  cases p with
  | none =>
    cases m with
    | none => exact .inl ⟨rfl, .inl ⟨rfl, .inl rfl⟩⟩
    | some n =>
      by_cases hstub : hasFlag n.flags nflags.stub = true
      · have hn := (hnode n rfl).stub hstub
        subst hn
        exact .inl ⟨docOf_stub, .inl ⟨rfl, .inr rfl⟩⟩
      · have hstub' : hasFlag n.flags nflags.stub = false := by simpa using hstub
        have hgood : GoodPatch (some n) {} :=
          ⟨by simp, fun _ _ => ⟨rfl, rfl, n, rfl, hstub'⟩, by simp, by simp, by simp⟩
        refine .inr (.inl ⟨n, rfl, hstub', hgood, rfl, rfl, ?_⟩)
        rw [docOf_none]
        exact docOf_base hgood rfl rfl hstub'
  | some q =>
    have hgood := hpatch q rfl
    by_cases hrem : q.removed = true
    · exact .inl ⟨docOf_removed hrem, .inr (hgood.removed hrem)⟩
    · have hrem' : q.removed = false := by simpa using hrem
      cases hcore : q.core with
      | none =>
        obtain ⟨-, -, n, rfl, hstub⟩ := hgood.bare hrem' hcore
        exact .inr (.inl ⟨n, rfl, hstub, hgood, hrem', hcore, docOf_base hgood hrem' hcore hstub⟩)
      | some c => exact .inr (.inr ⟨c, hgood, hrem', hcore, docOf_core hgood hrem' hcore⟩)

/-- A later touch carries everything an earlier one had. -/
theorem Doc.withTouch_again (d : Doc) (old : Option TouchRecord) {t : TouchRecord}
    (hhash : t.contentHash.isSome) (hetag : t.etag = none → (d.withTouch old).etag = none) :
    d.withTouch (some t) = (d.withTouch old).withTouch (some t) := by
  obtain ⟨hash, hh⟩ := Option.isSome_iff_exists.mp hhash
  cases old with
  | none => rfl
  | some o =>
    cases ht : t.etag with
    | some e => simp [Doc.withTouch, hh, ht]
    | none =>
      have hnone := hetag ht
      simp only [Doc.withTouch, Option.or_eq_none_iff] at hnone
      simp [Doc.withTouch, hh, ht, hnone.1, hnone.2]

/-- The patch after an upsert. -/
theorem GoodPatch.upsert {q : OverlayNode} {u : Upsert}
    (hedges : ∀ es, q.edges = some es → Ascending es)
    (hu : hasFlag u.flags nflags.stub = false ∧ hasFlag u.flags nflags.tombstone = false) :
    GoodPatch m (q.step (.upsert u)) where
  removed := by simp [OverlayNode.step]
  bare := by simp [OverlayNode.step]
  core := by
    intro c hc
    simp only [OverlayNode.step, Option.some.injEq] at hc
    exact hc ▸ hu
  touch := by simp [OverlayNode.step]
  edges := hedges

theorem KeySim.upsert {u : Upsert} (h : KeySim xxh3 k m p d)
    (hu : hasFlag u.flags nflags.stub = false ∧ hasFlag u.flags nflags.tombstone = false) :
    KeySim xxh3 k m (some ((p.getD {}).step (.upsert u))) (Doc.step xxh3 k d (.upsert u)) := by
  have hedges : ∀ es, (p.getD {}).edges = some es → Ascending es := by
    cases p with
    | none => simp
    | some q => exact (h.patch q rfl).edges
  have hgood : GoodPatch m ((p.getD {}).step (.upsert u)) := GoodPatch.upsert hedges hu
  refine .of_patch h.node hgood ?_
  rw [docOf_core hgood rfl rfl]
  rcases h.shape with ⟨rfl, hq⟩ | ⟨n, rfl, hstub, hgood₀, hrem, hcore, rfl⟩ |
    ⟨c, hgood₀, hrem, hcore, rfl⟩
  · -- a fresh document: nothing to inherit
    rcases hq with ⟨hq, hm⟩ | hq
    · rw [hq]
      have hpin : hasFlag stubModel.flags nflags.pinned = false := by decide
      rcases hm with rfl | rfl
      · cases hup : hasFlag u.flags nflags.pinned <;>
          simp [coreDoc, OverlayNode.step, OverlayNode.foldedPin, Doc.withTouch, Doc.step, inherited,
            mergedSegs, mergedEdges, mergedAttrs, hup]
      · cases hup : hasFlag u.flags nflags.pinned <;>
          simp [coreDoc, OverlayNode.step, OverlayNode.foldedPin, Doc.withTouch, Doc.step, inherited,
            mergedSegs, mergedEdges, mergedAttrs, hup, hpin] <;> simp [stubModel]
    · rw [hq]
      cases hup : hasFlag u.flags nflags.pinned <;>
        simp [coreDoc, OverlayNode.step, OverlayNode.foldedPin, Doc.withTouch, Doc.step, inherited,
          mergedSegs, mergedEdges, mergedAttrs, hup]
  · obtain ⟨hsev, hcarried, -⟩ := hgood₀.bare hrem hcore
    generalize p.getD {} = q at *
    cases hpin : q.pinned <;> cases htouch : q.touch <;>
      cases hup : hasFlag u.flags nflags.pinned <;>
      simp [coreDoc, baseDoc, OverlayNode.step, OverlayNode.foldedPin, Doc.withTouch, Doc.step,
        inherited, mergedSegs, mergedEdges, mergedAttrs, hup, hpin, htouch, hsev, hcarried, hcore,
        hrem]
  · generalize p.getD {} = q at *
    cases hpin : q.pinned <;> cases htouch : q.touch <;>
      cases hup : hasFlag u.flags nflags.pinned <;>
      cases hcp : hasFlag c.flags nflags.pinned <;>
      simp [coreDoc, OverlayNode.step, OverlayNode.foldedPin, Doc.withTouch, Doc.step,
        inherited, mergedSegs, mergedEdges, mergedAttrs, hup, hpin, htouch, hcp, hcore, hrem]

/-- Replacing one of the fields a patch keeps beside its core keeps it well
    formed. -/
theorem GoodPatch.patched {q q' : OverlayNode} (h : GoodPatch m q) (hrem : q.removed = false)
    (hrem' : q'.removed = q.removed) (hcore : q'.core = q.core) (hsev : q'.severed = q.severed)
    (hcar : q'.carried = q.carried)
    (htouch : ∀ t, q'.touch = some t → t.tombstone = false ∧ t.contentHash.isSome)
    (hedges : ∀ es, q'.edges = some es → Ascending es) : GoodPatch m q' where
  removed := by
    intro hr
    rw [hrem', hrem] at hr
    cases hr
  bare := by
    rw [hrem', hcore, hsev, hcar]
    exact h.bare
  core := by
    rw [hcore]
    exact h.core
  touch := htouch
  edges := hedges

/-- An op on a document that is there and stays there. -/
theorem KeySim.patched {op : Op} {f : Doc → Doc} (h : KeySim xxh3 k m p d) (hsome : d.isSome)
    (hstep : Doc.step xxh3 k d op = d.map f)
    (hgood : GoodPatch m (p.getD {}) → (p.getD {}).removed = false →
      GoodPatch m ((p.getD {}).step op) ∧ ((p.getD {}).step op).removed = false ∧
        ((p.getD {}).step op).core = (p.getD {}).core)
    (hbase : ∀ n, d = some (baseDoc xxh3 k n (p.getD {})) → (p.getD {}).removed = false →
      baseDoc xxh3 k n ((p.getD {}).step op) = f (baseDoc xxh3 k n (p.getD {})))
    (hover : ∀ c, d = some (coreDoc xxh3 k m (p.getD {}) c) → (p.getD {}).removed = false →
      coreDoc xxh3 k m ((p.getD {}).step op) c = f (coreDoc xxh3 k m (p.getD {}) c)) :
    KeySim xxh3 k m (some ((p.getD {}).step op)) (Doc.step xxh3 k d op) := by
  rw [hstep]
  rcases h.shape with ⟨hnone, -⟩ | ⟨n, rfl, hstub, hg, hrem, hcore, hd⟩ | ⟨c, hg, hrem, hcore, hd⟩
  · rw [hnone] at hsome
    cases hsome
  · obtain ⟨hg', hrem', hcore'⟩ := hgood hg hrem
    refine .of_patch h.node hg' ?_
    rw [docOf_base hg' hrem' (hcore'.trans hcore) hstub, hbase n hd hrem, hd, Option.map_some]
  · obtain ⟨hg', hrem', hcore'⟩ := hgood hg hrem
    refine .of_patch h.node hg' ?_
    rw [docOf_core hg' hrem' (hcore'.trans hcore), hover c hd hrem, hd, Option.map_some]

/-- Every op keeps the relation. -/
theorem KeySim.step {op : Op} (h : KeySim xxh3 k m p d) (hop : OpOk d op) :
    KeySim xxh3 k m (some ((p.getD {}).step op)) (Doc.step xxh3 k d op) := by
  cases op with
  | upsert u => exact h.upsert hop
  | remove key =>
    refine .of_patch h.node ⟨fun _ => rfl, ?_, ?_, ?_, ?_⟩ (docOf_removed rfl) <;>
      simp [OverlayNode.step]
  | segs key vs =>
    refine h.patched hop rfl ?_ ?_ ?_
    · intro hg hrem
      exact ⟨hg.patched hrem rfl rfl rfl rfl hg.touch hg.edges, hrem, rfl⟩
    · intro n _ hrem
      cases htouch : (p.getD {}).touch <;>
        simp [baseDoc, OverlayNode.step, Doc.withTouch, mergedSegs, mergedEdges, mergedAttrs, hrem,
          htouch]
    · intro c _ hrem
      cases htouch : (p.getD {}).touch <;>
        simp [coreDoc, OverlayNode.step, Doc.withTouch, mergedSegs, mergedEdges, mergedAttrs, hrem,
          htouch, inherited]
  | edges key es =>
    refine h.patched hop.1 rfl ?_ ?_ ?_
    · intro hg hrem
      refine ⟨hg.patched hrem rfl rfl rfl rfl hg.touch ?_, hrem, rfl⟩
      intro es' hes
      exact Option.some.inj hes ▸ hop.2
    · intro n _ hrem
      cases htouch : (p.getD {}).touch <;>
        simp [baseDoc, OverlayNode.step, Doc.withTouch, mergedSegs, mergedEdges, mergedAttrs, hrem,
          htouch]
    · intro c _ hrem
      cases htouch : (p.getD {}).touch <;>
        simp [coreDoc, OverlayNode.step, Doc.withTouch, mergedSegs, mergedEdges, mergedAttrs, hrem,
          htouch, inherited]
  | attrs key as =>
    refine h.patched hop rfl ?_ ?_ ?_
    · intro hg hrem
      exact ⟨hg.patched hrem rfl rfl rfl rfl hg.touch hg.edges, hrem, rfl⟩
    · intro n _ hrem
      cases htouch : (p.getD {}).touch <;>
        simp [baseDoc, OverlayNode.step, Doc.withTouch, mergedSegs, mergedEdges, mergedAttrs, hrem,
          htouch]
    · intro c _ hrem
      cases htouch : (p.getD {}).touch <;>
        simp [coreDoc, OverlayNode.step, Doc.withTouch, mergedSegs, mergedEdges, mergedAttrs, hrem,
          htouch, inherited]
  | pin key pinned =>
    refine h.patched hop rfl ?_ ?_ ?_
    · intro hg hrem
      exact ⟨hg.patched hrem rfl rfl rfl rfl hg.touch hg.edges, hrem, rfl⟩
    · intro n _ hrem
      cases htouch : (p.getD {}).touch <;>
        simp [baseDoc, OverlayNode.step, Doc.withTouch, mergedSegs, mergedEdges, mergedAttrs, hrem,
          htouch]
    · intro c _ hrem
      cases htouch : (p.getD {}).touch <;>
        simp [coreDoc, OverlayNode.step, Doc.withTouch, mergedSegs, mergedEdges, mergedAttrs, hrem,
          htouch, inherited]
  | touch key t =>
    obtain ⟨hsome, htomb, hhash, hetag⟩ := hop
    refine h.patched hsome (f := fun d => d.withTouch (some t)) rfl ?_ ?_ ?_
    · intro hg hrem
      refine ⟨hg.patched hrem rfl rfl rfl rfl ?_ hg.edges, hrem, rfl⟩
      intro t' ht'
      exact Option.some.inj ht' ▸ ⟨htomb, hhash⟩
    · intro n hd hrem
      exact Doc.withTouch_again _ _ hhash (hetag _ hd)
    · intro c hd hrem
      exact Doc.withTouch_again _ _ hhash (hetag _ hd)

end step

/-! ## Folding into a base node -/

section fold
variable {xxh3 : Bytes → UInt64} {k : UrlKey} {m : Option NodeModel} {p : Option OverlayNode}
  {d : Option Doc} {ttl : TtlConfig} {id : Option Nat} {rank : UInt16}

/-- The document does not depend on policy, id and rank. -/
theorem docOf_eq (ttl : TtlConfig) (id : Option Nat) (rank : UInt16) :
    docOf xxh3 k m p = ((mergedRef ttl k id rank m p).filter fun n => !n.isStub).map fun n =>
      n.doc (mergedSegs xxh3 k m p) (mergedEdges m p) (mergedAttrs m p) := by
  have hfactor : ∀ o : Option NodeRef,
      ((o.filter fun n => !n.isStub).map fun n =>
        n.doc (mergedSegs xxh3 k m p) (mergedEdges m p) (mergedAttrs m p))
      = (((o.map NodeRef.content).filter fun n => !n.isStub).map fun n =>
        n.doc (mergedSegs xxh3 k m p) (mergedEdges m p) (mergedAttrs m p)) := by
    intro o
    cases o with
    | none => rfl
    | some n =>
      have hsame : n.content.isStub = n.isStub := rfl
      by_cases hstub : n.isStub = true
      · rw [Option.map_some, Option.filter_some_neg (by simp [hstub]),
          Option.filter_some_neg (by simp [hsame, hstub])]
      · rw [Option.map_some, Option.filter_some_pos (by simpa using hstub),
          Option.filter_some_pos (by simpa [hsame] using hstub)]
        rfl
  unfold docOf
  rw [hfactor, content_mergedRef TtlConfig.default ttl k none id 0 rank m p, ← hfactor]

/-- No node is a tombstone, and only a stub of the base is a stub. -/
theorem KeySim.flags (h : KeySim xxh3 k m p d) {n : NodeRef}
    (hn : mergedRef ttl k id rank m p = some n) :
    n.isTombstone = false ∧ (n.isStub = true → p.getD {} = {} ∧ m = some stubModel) := by
  rcases h.shape with ⟨-, ⟨hq, hm⟩ | hq⟩ | ⟨b, rfl, hstub, hg, hrem, hcore, -⟩ |
    ⟨c, hg, hrem, hcore, -⟩
  · have hp : mergedRef ttl k id rank m p = mergedRef ttl k id rank m none := by
      cases p with
      | none => rfl
      | some q =>
        simp only [Option.getD_some] at hq
        subst hq
        cases m <;> rfl
    rw [hp] at hn
    rcases hm with rfl | rfl
    · cases hn
    · cases hn
      exact ⟨show hasFlag nflags.stub nflags.tombstone = false by decide, fun _ => ⟨hq, rfl⟩⟩
  · cases p with
    | none => cases hq
    | some q =>
      simp only [Option.getD_some] at hq
      subst hq
      simp [mergedRef] at hn
  · have hno : ((p.getD {}).pinned.elim b.flags (withPin b.flags)) = n.flags := by
      cases p with
      | none =>
        cases hn
        rfl
      | some q =>
        simp only [Option.getD_some] at hrem hcore ⊢
        simp only [mergedRef, Option.any_some, hrem, Bool.false_eq_true, if_false,
          Option.bind_some, hcore, Option.map_none, Option.map_some, Option.some.injEq] at hn
        subst hn
        cases htouch : q.touch with
        | none => simp [NodeRef.make, baseFreshness, htouch, NodeModel.toRec]
        | some t =>
          have htomb : t.tombstone = false := (hg.touch t htouch).1
          simp [NodeRef.make, baseFreshness, htouch, NodeModel.toRec, Freshness.touched, htomb]
    have hb := h.node b rfl
    have hflag : ∀ bit, bit = nflags.stub ∨ bit = nflags.tombstone →
        hasFlag n.flags bit = hasFlag b.flags bit := by
      intro bit hbit
      rw [← hno]
      cases (p.getD {}).pinned with
      | none => rfl
      | some pinned => exact withPin_other _ _ hbit
    refine ⟨(hflag _ (.inr rfl)).trans hb.tombstone, fun hs => ?_⟩
    have hs' : hasFlag n.flags nflags.stub = true := hs
    rw [hflag _ (.inl rfl), hstub] at hs'
    cases hs'
  · cases p with
    | none => cases hcore
    | some q =>
      simp only [Option.getD_some] at hrem hcore hg
      simp only [mergedRef, Option.any_some, hrem, Bool.false_eq_true, if_false,
        Option.bind_some, hcore, Option.map_some, Option.some.injEq] at hn
      obtain ⟨-, hstub, htomb⟩ := coreFlags_spec q c
        (if q.severed then none else m.map (·.toRec k))
      have hno : n.flags = coreFlags q c (if q.severed then none else m.map (·.toRec k)) := by
        subst hn
        cases htouch : q.touch with
        | none => simp [NodeRef.make, coreFreshness, htouch]
        | some t =>
          simp [NodeRef.make, coreFreshness, htouch, Freshness.touched, (hg.touch t htouch).1]
      rw [← hno] at hstub htomb
      refine ⟨htomb.trans (hg.core c hcore).2, fun hs => ?_⟩
      have hs' : hasFlag n.flags nflags.stub = true := hs
      rw [hstub, (hg.core c hcore).1] at hs'
      cases hs'

/-- The node of a document. -/
theorem KeySim.doc_of_node (h : KeySim xxh3 k m p d) {n : NodeRef}
    (hn : mergedRef ttl k id rank m p = some n) (hstub : n.isStub = false) :
    d = some (n.doc (mergedSegs xxh3 k m p) (mergedEdges m p) (mergedAttrs m p)) := by
  rw [← h.doc, docOf_eq ttl id rank, hn, Option.filter_some_pos (by simp [hstub]), Option.map_some]

theorem KeySim.node_of_doc (h : KeySim xxh3 k m p d) (hd : d.isSome) (ttl : TtlConfig)
    (id : Option Nat) (rank : UInt16) :
    ∃ n, mergedRef ttl k id rank m p = some n ∧ n.isStub = false := by
  rw [← h.doc, docOf_eq ttl id rank, Option.isSome_map] at hd
  obtain ⟨n, hn⟩ := Option.isSome_iff_exists.mp hd
  obtain ⟨hn, hstub⟩ := Option.filter_eq_some_iff.mp hn
  exact ⟨n, hn, by simpa using hstub⟩

theorem normEdges_of_ascending {es : List Edge} (h : Ascending es) : normEdges es = es := by
  have hsorted : es.insertionSort (fun a b => a.dst ≤ b.dst) = es :=
    List.Pairwise.insertionSort_eq (h.imp le_of_lt)
  unfold normEdges
  rw [hsorted]
  exact List.destutter_of_isChain _ es (List.Pairwise.isChain (h.imp fun hlt => ne_of_lt hlt))

/-- Edges that ascend in the base and in the overlay ascend merged. -/
theorem mergedEdges_ascending (hbase : ∀ n, m = some n → Ascending n.edges)
    (hpatch : ∀ es, (p.getD {}).edges = some es → Ascending es) :
    Ascending (mergedEdges m p) := by
  have hrun : Ascending (m.elim [] NodeModel.edges) := by
    cases m with
    | none => exact List.Pairwise.nil
    | some n => exact hbase n rfl
  unfold mergedEdges
  cases p with
  | none => exact hrun
  | some q =>
    simp only
    by_cases hrem : q.removed = true
    · rw [if_pos hrem]
      exact List.Pairwise.nil
    · rw [if_neg hrem]
      cases hes : q.edges with
      | some es => exact hpatch es hes
      | none =>
        by_cases hsev : q.severed = true
        · simp only [hsev, if_true]
          exact List.Pairwise.nil
        · simp only [hsev, Bool.false_eq_true, if_false]
          exact hrun

theorem KeySim.ascending (h : KeySim xxh3 k m p d) : Ascending (mergedEdges m p) := by
  refine mergedEdges_ascending (fun n hn => (h.node n hn).edges) ?_
  cases p with
  | none =>
    intro es hes
    cases hes
  | some q => exact (h.patch q rfl).edges

/-- A segment that was read is stored and read again unchanged. -/
theorem toRef_toModel {s : SegRef}
    (h : s.byteRange.isNone ↔ s.flags &&& sflags.noRange ≠ 0) : s.toModel.toRef = s := by
  rcases s with ⟨key, label, range, depth, importance, flags⟩
  simp only at h
  cases range with
  | none =>
    have hf : flags &&& sflags.noRange ≠ 0 := h.mp rfl
    simp [SegRef.toModel, SegModel.toRef, hf]
  | some r =>
    have hf : flags &&& sflags.noRange = 0 := by
      by_contra hne
      exact absurd (h.mpr hne) (by simp)
    simp [SegRef.toModel, SegModel.toRef, hf]

theorem mergedSegs_reread (xxh3 : Bytes → UInt64) (k : UrlKey) (m : Option NodeModel)
    (p : Option OverlayNode) :
    (mergedSegs xxh3 k m p).map (SegModel.toRef ∘ SegRef.toModel) = mergedSegs xxh3 k m p := by
  have hall : ∀ s ∈ mergedSegs xxh3 k m p,
      (s.byteRange.isNone ↔ s.flags &&& sflags.noRange ≠ 0) := by
    have hbase : ∀ s ∈ m.elim [] (fun n => n.segs.map SegModel.toRef),
        (s.byteRange.isNone ↔ s.flags &&& sflags.noRange ≠ 0) := by
      intro s hs
      cases m with
      | none => cases hs
      | some n =>
        obtain ⟨x, -, rfl⟩ := List.mem_map.mp hs
        by_cases hf : x.flags &&& sflags.noRange = 0 <;> simp [SegModel.toRef, hf]
    intro s hs
    unfold mergedSegs at hs
    cases p with
    | none => exact hbase s hs
    | some q =>
      simp only at hs
      split_ifs at hs with hgone
      · cases hs
      · cases hsegs : q.segs with
        | none =>
          rw [hsegs] at hs
          exact hbase s hs
        | some vs =>
          rw [hsegs] at hs
          obtain ⟨v, -, rfl⟩ := List.mem_map.mp hs
          by_cases hf : v.flags &&& sflags.noRange = 0 <;>
            simp [Snapshot.segRefOf, SegView.byteRange, hf]
  exact (List.map_congr_left fun s hs => toRef_toModel (hall s hs)).trans (List.map_id _)

theorem goodNode_stub : GoodNode stubModel := ⟨by decide, fun _ => rfl, List.Pairwise.nil⟩

/-- Folding a key into a new base node, with stub management, keeps the
    relation: a document becomes a base node, anything else a stub or nothing. -/
theorem KeySim.compacted (h : KeySim xxh3 k m p d) {m' : Option NodeModel} {referenced : Prop}
    [Decidable referenced]
    (hm' : m' = match (mergedRef ttl k id rank m p).map fun n =>
        n.toModel (mergedSegs xxh3 k m p) (mergedEdges m p) (mergedAttrs m p) with
      | some x => if hasFlag x.flags nflags.stub = true ∧ ¬referenced then none else some x
      | none => if referenced then some stubModel else none) :
    KeySim xxh3 k m' none d := by
  -- without a document the key is collected as nothing or as a stub
  have hnone : d = none → (m' = none ∨ m' = some stubModel) → KeySim xxh3 k m' none d := by
    rintro rfl (rfl | rfl)
    · exact ⟨by simp, by simp, docOf_missing⟩
    · refine ⟨?_, by simp, docOf_stub⟩
      rintro n hn
      exact Option.some.inj hn ▸ goodNode_stub
  cases hn : mergedRef ttl k id rank m p with
  | none =>
    refine hnone ?_ ?_
    · rw [← h.doc, docOf_eq ttl id rank, hn]
      rfl
    · rw [hm', hn]
      by_cases href : referenced <;> simp [href]
  | some n =>
    obtain ⟨htomb, hstubs⟩ := h.flags hn
    rw [hn] at hm'
    simp only [Option.map_some] at hm'
    by_cases hstub : n.isStub = true
    · -- a stub of the base is collected as the stub it was
      refine hnone ?_ ?_
      · rw [← h.doc, docOf_eq ttl id rank, hn, Option.filter_some_neg (by simp [hstub])]
        rfl
      · obtain ⟨hq, rfl⟩ := hstubs hstub
        have hx : n.toModel (mergedSegs xxh3 k (some stubModel) p)
            (mergedEdges (some stubModel) p) (mergedAttrs (some stubModel) p) = stubModel := by
          cases p with
          | none =>
            cases hn
            rfl
          | some q =>
            simp only [Option.getD_some] at hq
            subst hq
            cases hn
            rfl
        rw [hm', hx]
        by_cases href : referenced <;> simp [href]
    · -- a document is collected as it was served, and read back from the base as that
      have hstub' : n.isStub = false := by simpa using hstub
      have hd := h.doc_of_node hn hstub'
      have hflag : hasFlag (n.toModel (mergedSegs xxh3 k m p) (mergedEdges m p)
          (mergedAttrs m p)).flags nflags.stub = false := hstub'
      rw [if_neg (by simp [hflag])] at hm'
      have hgood : GoodNode (n.toModel (mergedSegs xxh3 k m p) (mergedEdges m p)
          (mergedAttrs m p)) := by
        refine ⟨htomb, fun hs => ?_, ?_⟩
        · rw [hflag] at hs
          cases hs
        · simp only [NodeRef.toModel, normEdges_of_ascending h.ascending]
          exact h.ascending
      subst hm'
      refine ⟨?_, by simp, ?_⟩
      · intro x hx
        exact Option.some.inj hx ▸ hgood
      · have hpatch : GoodPatch (some (n.toModel (mergedSegs xxh3 k m p) (mergedEdges m p)
            (mergedAttrs m p))) {} :=
          ⟨by simp, fun _ _ => ⟨rfl, rfl, _, rfl, hflag⟩, by simp, by simp, by simp⟩
        have hsegs := mergedSegs_reread xxh3 k m p
        have hedges := normEdges_of_ascending h.ascending
        rw [docOf_none, docOf_base hpatch rfl rfl hflag, hd]
        generalize mergedSegs xxh3 k m p = segs at hsegs ⊢
        generalize mergedEdges m p = edges at hedges ⊢
        generalize mergedAttrs m p = attrs
        simp [baseDoc, Doc.withTouch, NodeRef.doc, NodeRef.toModel, mergedSegs, mergedEdges,
          mergedAttrs, NodeRef.pinned, hsegs, hedges]

end fold

end GraphR
