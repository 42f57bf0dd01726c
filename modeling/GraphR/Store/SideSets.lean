import GraphR.Store.History
import GraphR.Store.Tombstone

/-! # Side sets and compaction points

    Segments, edges and attributes may be set on any key. The overlay keeps a set
    for a key that is no document and gives it to a later upsert; a compaction
    collects the keys that have a node and drops the others with what was set on
    them. So a set that comes in a batch before the one that creates its document
    is there or not depending on where compactions ran.

    The three kinds behave alike. `SideKind` says what one is: how an op sets it,
    how the overlay and the base hold it, how it is read. -/

namespace GraphR

open Wal ByteLib

/-! ## A kind of side set -/

/-- A kind of side set of key `k`. -/
structure SideKind (xxh3 : Bytes → UInt64) (k : UrlKey) (γ : Type) where
  /-- What an op sets. -/
  value : Op → Option (List γ)
  /-- What the overlay node holds. -/
  patch : OverlayNode → Option (List γ)
  /-- What a base node holds. -/
  base : NodeModel → List γ
  /-- What a snapshot reads. -/
  read : Option NodeModel → Option OverlayNode → List γ
  value_touch : ∀ key t, value (.touch key t) = none
  value_pin : ∀ key b, value (.pin key b) = none
  value_remove : ∀ key, value (.remove key) = none
  patch_empty : patch {} = none
  patch_removed : patch { removed := true, severed := true } = none
  patch_step : ∀ q op, (∀ key, op ≠ .remove key) → patch (q.step op) = (value op).or (patch q)
  base_stub : base stubModel = []
  read_eq : ∀ m p, (p.getD {}).removed = false → read m p
    = (patch (p.getD {})).getD (if (p.getD {}).severed then [] else m.elim [] base)
  /-- A collected node holds what was read. -/
  reread : ∀ m p (n : NodeRef), Ascending (mergedEdges m p) →
    base (n.toModel (mergedSegs xxh3 k m p) (mergedEdges m p) (mergedAttrs m p)) = read m p

def segsKind (xxh3 : Bytes → UInt64) (k : UrlKey) : SideKind xxh3 k SegRef where
  value := fun
    | .segs _ vs => some (vs.map (Snapshot.segRefOf xxh3 k))
    | _ => none
  patch := fun q => q.segs.map (List.map (Snapshot.segRefOf xxh3 k))
  base := fun n => n.segs.map SegModel.toRef
  read := mergedSegs xxh3 k
  value_touch := fun _ _ => rfl
  value_pin := fun _ _ => rfl
  value_remove := fun _ => rfl
  patch_empty := rfl
  patch_removed := rfl
  patch_step := by
    intro q op hop
    cases op with
    | remove key => exact absurd rfl (hop key)
    | _ => rfl
  base_stub := rfl
  read_eq := by
    intro m p hrem
    cases p with
    | none => rfl
    | some q =>
      simp only [Option.getD_some] at hrem ⊢
      by_cases hsev : q.severed = true <;> cases hs : q.segs <;> simp [mergedSegs, hrem, hs, hsev]
  reread := by
    intro m p n _
    simp only [NodeRef.toModel, List.map_map]
    exact mergedSegs_reread xxh3 k m p

def edgesKind (xxh3 : Bytes → UInt64) (k : UrlKey) : SideKind xxh3 k Edge where
  value := fun
    | .edges _ es => some es
    | _ => none
  patch := OverlayNode.edges
  base := NodeModel.edges
  read := mergedEdges
  value_touch := fun _ _ => rfl
  value_pin := fun _ _ => rfl
  value_remove := fun _ => rfl
  patch_empty := rfl
  patch_removed := rfl
  patch_step := by
    intro q op hop
    cases op with
    | remove key => exact absurd rfl (hop key)
    | _ => rfl
  base_stub := rfl
  read_eq := by
    intro m p hrem
    cases p with
    | none => rfl
    | some q =>
      simp only [Option.getD_some] at hrem ⊢
      cases hs : q.edges <;> simp [mergedEdges, hrem, hs]
  reread := fun _ _ _ hasc => normEdges_of_ascending hasc

def attrsKind (xxh3 : Bytes → UInt64) (k : UrlKey) : SideKind xxh3 k (UInt8 × String) where
  value := fun
    | .attrs _ as => some as
    | _ => none
  patch := OverlayNode.attrs
  base := NodeModel.attrs
  read := mergedAttrs
  value_touch := fun _ _ => rfl
  value_pin := fun _ _ => rfl
  value_remove := fun _ => rfl
  patch_empty := rfl
  patch_removed := rfl
  patch_step := by
    intro q op hop
    cases op with
    | remove key => exact absurd rfl (hop key)
    | _ => rfl
  base_stub := rfl
  read_eq := by
    intro m p hrem
    cases p with
    | none => rfl
    | some q =>
      simp only [Option.getD_some] at hrem ⊢
      by_cases hsev : q.severed = true <;> cases hs : q.attrs <;>
        simp [mergedAttrs, hrem, hs, hsev]
  reread := fun _ _ _ _ => rfl

/-! ## What is held for a key -/

namespace SideKind

variable {xxh3 : Bytes → UInt64} {k : UrlKey} {γ : Type} (K : SideKind xxh3 k γ)

/-- The set an upsert would give the document of the key. -/
def held (m : Option NodeModel) (q : OverlayNode) : List γ :=
  (K.patch q).getD (if q.severed then [] else m.elim [] K.base)

/-- The op changes the set of the key, or drops it. -/
def changes (op : Op) : Bool :=
  op.key = k && ((K.value op).isSome || op = .remove k)

/-- The set after an op. -/
def after (v : List γ) (op : Op) : List γ := if K.changes op then (K.value op).getD [] else v

/-- The last set since the last remove, whatever the key was then. -/
def lastSet (ops : List Op) : List γ := ops.foldl K.after []

/-- One op of the key on what is held. -/
theorem held_step (m : Option NodeModel) (q : OverlayNode) {op : Op} (hk : op.key = k) :
    K.held m (q.step op) = K.after (K.held m q) op := by
  by_cases hrem : ∃ key, op = .remove key
  · obtain ⟨key, rfl⟩ := hrem
    have hkey : key = k := hk
    subst hkey
    simp [held, after, changes, OverlayNode.step, Op.key, K.patch_removed, K.value_remove]
  · have hne : ∀ key, op ≠ .remove key := fun key h => hrem ⟨key, h⟩
    have hsev : (q.step op).severed = q.severed := by
      cases op with
      | remove key => exact absurd rfl (hne key)
      | _ => rfl
    simp only [held, after, changes, K.patch_step q op hne, hsev, hk, decide_true, Bool.true_and,
      decide_eq_false (hne k), Bool.or_false]
    cases K.value op <;> simp

/-- An op on another key changes nothing. -/
theorem after_other (v : List γ) {op : Op} (hk : op.key ≠ k) : K.after v op = v := by
  simp [after, changes, hk]

theorem held_foldKey (m : Option NodeModel) (e : Option OverlayNode) (ops : List Op) :
    K.held m ((foldKey k e ops).getD {}) = ops.foldl K.after (K.held m (e.getD {})) := by
  induction ops generalizing e with
  | nil => rfl
  | cons op ops ih =>
    have hcons : foldKey k e (op :: ops)
        = foldKey k (if k = op.key then some ((e.getD {}).step op) else e) ops := rfl
    rw [hcons, ih, List.foldl_cons]
    by_cases hk : k = op.key
    · rw [if_pos hk, Option.getD_some, K.held_step m _ hk.symm]
    · rw [if_neg hk, K.after_other _ fun h => hk h.symm]

/-- Ops that do not change the set leave it. -/
theorem foldl_after_of_unchanged {ops : List Op} (h : ∀ op ∈ ops, K.changes op = false)
    (v : List γ) : ops.foldl K.after v = v := by
  induction ops with
  | nil => rfl
  | cons op ops ih =>
    have hop : K.after v op = v := by simp [after, h op (by simp)]
    rw [List.foldl_cons, hop]
    exact ih fun o ho => h o (by simp [ho])

/-- Behind an op that changes the set, what was held before does not matter. -/
theorem foldl_after_of_changed {ops : List Op} (h : ∃ op ∈ ops, K.changes op = true)
    (v w : List γ) : ops.foldl K.after v = ops.foldl K.after w := by
  induction ops generalizing v w with
  | nil =>
    obtain ⟨op, hop, -⟩ := h
    cases hop
  | cons op ops ih =>
    rw [List.foldl_cons, List.foldl_cons]
    by_cases hop : K.changes op = true
    · have hv : K.after v op = K.after w op := by simp [after, hop]
      rw [hv]
    · obtain ⟨o, ho, hch⟩ := h
      refine ih ⟨o, ?_, hch⟩ _ _
      rcases List.mem_cons.mp ho with rfl | ho
      · exact absurd hch hop
      · exact ho

end SideKind

/-! ## Histories without touches and pins -/

/-- The ops of some batches that do not depend on what their calls read. -/
def setsOf (batches : List (List Edit)) : List Op := batches.flatten.flatMap Edit.sets

theorem setsOf_append (a b : List (List Edit)) : setsOf (a ++ b) = setsOf a ++ setsOf b := by
  simp [setsOf]

/-- A fold that ignores touches and pins sees those ops only. -/
theorem foldl_gives {σ : Type} {f : σ → Op → σ} (htouch : ∀ s key t, f s (.touch key t) = s)
    (hpin : ∀ s key b, f s (.pin key b) = s) {edits : List Edit} {opss : List (List Op)}
    (h : List.Forall₂ Edit.Gives edits opss) (s : σ) :
    opss.flatten.foldl f s = (edits.flatMap Edit.sets).foldl f s := by
  induction h generalizing s with
  | nil => rfl
  | @cons e ops edits opss hgives _ ih =>
    rw [List.flatten_cons, List.foldl_append, List.flatMap_cons, List.foldl_append, ih]
    congr 1
    cases e with
    | write w => rw [show ops = (Edit.write w).sets from hgives]
    | touch key t =>
      rcases hgives with rfl | ⟨r, rfl⟩
      · rfl
      · simp [Edit.sets, htouch]
    | pin key b =>
      rcases hgives with rfl | rfl
      · rfl
      · simp [Edit.sets, hpin]

/-! ## One key -/

/-- Ops as the writer stages them: no stub is upserted, edges ascend. -/
def StagedOp : Op → Prop
  | .upsert u => hasFlag u.flags nflags.stub = false
  | .edges _ es => Ascending es
  | _ => True

theorem stagedOp_write (w : Write) : StagedOp w.op := by
  cases w with
  | upsert doc => exact (docFlags_spec doc).2.1
  | setEdges key es => exact (edgeSet_ascending _ _).1
  | setEdgesWithFlags key es => exact (edgeSet_ascending _ _).1
  | remove key => trivial
  | setSegments key segs => trivial
  | setAttrs key attrs => trivial

theorem stagedOp_of_gives {edits : List Edit} {opss : List (List Op)}
    (h : List.Forall₂ Edit.Gives edits opss) : ∀ op ∈ opss.flatten, StagedOp op := by
  induction h with
  | nil => simp
  | @cons e ops edits opss hgives _ ih =>
    intro op hop
    rw [List.flatten_cons, List.mem_append] at hop
    rcases hop with hop | hop
    · cases e with
      | write w =>
        rw [show ops = (Edit.write w).sets from hgives, Edit.sets] at hop
        split_ifs at hop
        · rw [List.mem_singleton.mp hop]
          exact stagedOp_write w
        · cases hop
      | touch key t =>
        rcases hgives with rfl | ⟨r, rfl⟩
        · cases hop
        · rw [List.mem_singleton.mp hop]
          trivial
      | pin key b =>
        rcases hgives with rfl | rfl
        · cases hop
        · rw [List.mem_singleton.mp hop]
          trivial
    · exact ih op hop

/-- How a key stands, `doc` telling whether it is an ingested document. -/
structure Status (doc : Bool) (m : Option NodeModel) (q : OverlayNode) : Prop where
  present : doc = true → q.removed = false ∧
    (q.core.isSome ∨ ∃ n, m = some n ∧ hasFlag n.flags nflags.stub = false)
  absent : doc = false → q.removed = true ∨
    (q.core = none ∧ ∀ n, m = some n → hasFlag n.flags nflags.stub = true)
  core : ∀ c, q.core = some c → hasFlag c.flags nflags.stub = false
  baseEdges : ∀ n, m = some n → Ascending n.edges
  edges : ∀ es, q.edges = some es → Ascending es

section key
variable {k : UrlKey} {m : Option NodeModel} {doc : Bool}

theorem Status.step {q : OverlayNode} {op : Op} (h : Status doc m q) (hk : op.key = k)
    (hop : StagedOp op) : Status (ingestOp k doc op) m (q.step op) := by
  obtain ⟨h1, h2, h3, h4, h5⟩ := h
  cases op with
  | upsert u =>
    have hu : u.key = k := hk
    simp only [ingestOp, hu, if_true]
    refine ⟨fun _ => ⟨rfl, .inl rfl⟩, fun hf => (by cases hf), ?_, h4, h5⟩
    intro c hc
    cases hc
    exact hop
  | remove key =>
    have hkey : key = k := hk
    simp only [ingestOp, hkey, if_true]
    refine ⟨fun hf => (by cases hf), fun _ => .inl rfl, ?_, h4, ?_⟩
    · intro c hc
      cases hc
    · intro es hes
      cases hes
  | edges key es =>
    refine ⟨h1, h2, h3, h4, ?_⟩
    intro es' hes'
    cases hes'
    exact hop
  | segs key v => exact ⟨h1, h2, h3, h4, h5⟩
  | attrs key v => exact ⟨h1, h2, h3, h4, h5⟩
  | touch key t => exact ⟨h1, h2, h3, h4, h5⟩
  | pin key b => exact ⟨h1, h2, h3, h4, h5⟩

theorem Status.foldKey {e : Option OverlayNode} {ops : List Op} (h : Status doc m (e.getD {}))
    (hops : ∀ op ∈ ops, StagedOp op) :
    Status (ops.foldl (ingestOp k) doc) m ((foldKey k e ops).getD {}) := by
  induction ops generalizing e doc with
  | nil => exact h
  | cons op ops ih =>
    have hcons : GraphR.foldKey k e (op :: ops)
        = GraphR.foldKey k (if k = op.key then some ((e.getD {}).step op) else e) ops := rfl
    rw [hcons, List.foldl_cons]
    refine ih ?_ fun o ho => hops o (by simp [ho])
    by_cases hk : k = op.key
    · rw [if_pos hk, Option.getD_some]
      exact h.step hk.symm (hops op (by simp))
    · rw [if_neg hk, ingestOp_other hk]
      exact h

variable {ttl : TtlConfig} {id : Option Nat} {rank : UInt16} {p : Option OverlayNode}

/-- Touching never makes or unmakes a stub. -/
theorem hasFlag_touched (f : Freshness) (t : TouchRecord) :
    hasFlag (f.touched t).flags nflags.stub = hasFlag f.flags nflags.stub := by
  unfold Freshness.touched
  simp only
  split_ifs
  · exact hasFlag_or_other _ (by decide)
  · rfl

/-- A node is a stub when its newest content is. -/
theorem isStub_mergedRef {n : NodeRef} (hn : mergedRef ttl k id rank m p = some n) :
    n.isStub = (p.getD {}).core.elim (m.any fun r => hasFlag r.flags nflags.stub)
      fun c => hasFlag c.flags nflags.stub := by
  obtain ⟨-, ⟨q, c, rfl, hcore, rfl⟩ | ⟨hcore, r, rfl, rfl⟩⟩ := mergedRef_cases hn
  · have hflags := (coreFlags_spec q c (if q.severed then none else m.map (·.toRec k))).2.1
    simp only [Option.getD_some, hcore, Option.elim_some, ← hflags]
    cases htouch : q.touch with
    | none => simp [NodeRef.isStub, NodeRef.make, coreFreshness, htouch]
    | some t => simp [NodeRef.isStub, NodeRef.make, coreFreshness, htouch, hasFlag_touched]
  · simp only [hcore, Option.elim_none, Option.any_some]
    cases p with
    | none => rfl
    | some q =>
      have hpin : hasFlag (q.pinned.elim r.flags (withPin r.flags)) nflags.stub
          = hasFlag r.flags nflags.stub := by
        cases q.pinned with
        | none => rfl
        | some b => exact withPin_other _ _ (.inl rfl)
      rw [← hpin]
      cases htouch : q.touch with
      | none => simp [NodeRef.isStub, NodeRef.make, baseFreshness, htouch, NodeModel.toRec]
      | some t =>
        simp [NodeRef.isStub, NodeRef.make, baseFreshness, htouch, NodeModel.toRec, hasFlag_touched]

/-- A key is a document exactly when its node is there and no stub. -/
theorem Status.isDocument (h : Status doc m (p.getD {})) :
    doc = true ↔ ∃ n, mergedRef ttl k id rank m p = some n ∧ n.isStub = false := by
  constructor
  · intro hdoc
    obtain ⟨hrem, hsome⟩ := h.present hdoc
    have hnode : (mergedRef ttl k id rank m p).isSome := by
      rw [isSome_mergedRef, isPresent, hrem]
      rcases hsome with hcore | ⟨n, rfl, -⟩
      · simp [hcore]
      · simp
    obtain ⟨n, hn⟩ := Option.isSome_iff_exists.mp hnode
    refine ⟨n, hn, ?_⟩
    rw [isStub_mergedRef hn]
    cases hcore : (p.getD {}).core with
    | some c => exact h.core c hcore
    | none =>
      rw [hcore] at hsome
      rcases hsome with hf | ⟨r, rfl, hr⟩
      · cases hf
      · exact hr
  · rintro ⟨n, hn, hstub⟩
    by_contra hdoc
    rw [Bool.not_eq_true] at hdoc
    rcases h.absent hdoc with hrem | ⟨hcore, hstubs⟩
    · rw [(mergedRef_cases hn).1] at hrem
      cases hrem
    · rw [isStub_mergedRef hn, hcore, Option.elim_none] at hstub
      obtain ⟨-, ⟨q, c, rfl, hc, -⟩ | ⟨-, r, rfl, -⟩⟩ := mergedRef_cases hn
      · rw [Option.getD_some, hc] at hcore
        cases hcore
      · rw [Option.any_some, hstubs r rfl] at hstub
        cases hstub

theorem Status.ascending (h : Status doc m (p.getD {})) : Ascending (mergedEdges m p) :=
  mergedEdges_ascending h.baseEdges h.edges

end key

end GraphR
