import GraphR.Store.SideSets

/-! # Two placements of compactions, and the side sets

    What is held for a key is the last set since its last remove, or nothing if a
    compaction met the key while it was no document and nothing was set since
    (`Traces`). Every placement of compactions gives every document the same side
    sets exactly when no document was created over a set that a compaction could
    have dropped (`SetsSettled`). -/

namespace GraphR

open Wal ByteLib

/-! ## The invariant -/

section key
variable {xxh3 : Bytes → UInt64} {k : UrlKey}

/-- What is held after the batches `done`. -/
def SideKind.Traces {γ : Type} (K : SideKind xxh3 k γ) (done : List (List Edit)) (v : List γ) :
    Prop :=
  v = K.lastSet (setsOf done) ∨ (v = [] ∧ ∃ pre post, done = pre ++ post ∧
    ingested k (setsOf pre) = false ∧ ∀ op ∈ setsOf post, K.changes op = false)

/-- A batch more. -/
theorem SideKind.Traces.batch {γ : Type} {K : SideKind xxh3 k γ} {done : List (List Edit)}
    {v : List γ} (h : K.Traces done v) (edits : List Edit) :
    K.Traces (done ++ [edits]) ((setsOf [edits]).foldl K.after v) := by
  have hlast : K.lastSet (setsOf (done ++ [edits]))
      = (setsOf [edits]).foldl K.after (K.lastSet (setsOf done)) := by
    rw [setsOf_append, lastSet, List.foldl_append]
    rfl
  rcases h with rfl | ⟨rfl, pre, post, rfl, hpre, hpost⟩
  · exact .inl hlast.symm
  · by_cases hch : ∃ op ∈ setsOf [edits], K.changes op = true
    · exact .inl (by rw [hlast]; exact K.foldl_after_of_changed hch _ _)
    · -- nothing changes the set: it stays dropped
      have hsame : ∀ op ∈ setsOf [edits], K.changes op = false := by
        intro op hop
        by_contra hne
        rw [Bool.not_eq_false] at hne
        exact hch ⟨op, hop, hne⟩
      refine .inr ⟨K.foldl_after_of_unchanged hsame _, pre, post ++ [edits], by simp, hpre, ?_⟩
      intro op hop
      rw [setsOf_append, List.mem_append] at hop
      rcases hop with hop | hop
      · exact hpost op hop
      · exact hsame op hop

variable {ttl : TtlConfig} {id : Option Nat} {rank : UInt16} {m m' : Option NodeModel}
  {p : Option OverlayNode} {doc : Bool} {refs : List UrlKey}

/-- A compaction keeps a key's standing. -/
theorem Status.compacted (h : Status doc m (p.getD {})) {segs : List SegRef}
    {attrs : List (UInt8 × String)}
    (hm' : m' = ((mergedRef ttl k id rank m p).map fun n =>
        n.toModel segs (mergedEdges m p) attrs).elim (if k ∈ refs then some stubModel else none)
      fun x => if hasFlag x.flags nflags.stub = true ∧ k ∉ refs then none else some x) :
    Status doc m' {} := by
  have hdoc := @Status.isDocument k m doc ttl id rank p h
  refine ⟨fun hd => ⟨rfl, .inr ?_⟩, fun hd => .inr ⟨rfl, ?_⟩, ?_, ?_, ?_⟩
  · obtain ⟨n, hn, hstub⟩ := hdoc.mp hd
    have hflag : hasFlag n.flags nflags.stub = false := hstub
    rw [hn] at hm'
    simp only [Option.map_some, Option.elim_some, NodeRef.toModel, hflag, Bool.false_eq_true,
      false_and, if_false] at hm'
    exact ⟨_, hm', hflag⟩
  · intro x hx
    rw [hx] at hm'
    cases hn : mergedRef ttl k id rank m p with
    | none =>
      rw [hn] at hm'
      by_cases href : k ∈ refs
      · simp only [Option.map_none, Option.elim_none, href, if_true, Option.some.injEq] at hm'
        subst hm'
        decide
      · simp [href] at hm'
    | some n =>
      rw [hn] at hm'
      simp only [Option.map_some, Option.elim_some] at hm'
      split_ifs at hm'
      cases hm'
      by_contra hne
      rw [Bool.not_eq_true] at hne
      rw [hdoc.mpr ⟨n, hn, hne⟩] at hd
      cases hd
  · intro c hc
    cases hc
  · intro x hx
    rw [hx] at hm'
    cases hn : mergedRef ttl k id rank m p with
    | none =>
      rw [hn] at hm'
      by_cases href : k ∈ refs
      · simp only [Option.map_none, Option.elim_none, href, if_true, Option.some.injEq] at hm'
        subst hm'
        exact List.Pairwise.nil
      · simp [href] at hm'
    | some n =>
      rw [hn] at hm'
      simp only [Option.map_some, Option.elim_some] at hm'
      split_ifs at hm'
      cases hm'
      simp only [NodeRef.toModel, normEdges_of_ascending h.ascending]
      exact h.ascending
  · intro es hes
    cases hes

/-- A compaction keeps what is held for a document, and for another key keeps it
    or drops it. -/
theorem SideKind.held_compacted {γ : Type} (K : SideKind xxh3 k γ)
    (h : Status doc m (p.getD {}))
    (hm' : m' = ((mergedRef ttl k id rank m p).map fun n =>
        n.toModel (mergedSegs xxh3 k m p) (mergedEdges m p) (mergedAttrs m p)).elim
        (if k ∈ refs then some stubModel else none)
      fun x => if hasFlag x.flags nflags.stub = true ∧ k ∉ refs then none else some x) :
    K.held m' {} = K.held m (p.getD {}) ∨ (doc = false ∧ K.held m' {} = []) := by
  have hheld : ∀ x : Option NodeModel, K.held x {} = x.elim [] K.base := by
    intro x
    simp [held, K.patch_empty]
  rw [hheld]
  cases hn : mergedRef ttl k id rank m p with
  | none =>
    right
    rw [hn] at hm'
    constructor
    · by_contra hdoc
      rw [Bool.not_eq_false] at hdoc
      obtain ⟨n, hn', -⟩ := (@Status.isDocument k m doc ttl id rank p h).mp hdoc
      rw [hn] at hn'
      cases hn'
    · by_cases href : k ∈ refs <;> simp [hm', href, K.base_stub]
  | some n =>
    rw [hn] at hm'
    simp only [Option.map_some, Option.elim_some] at hm'
    split_ifs at hm' with hdrop
    · right
      refine ⟨?_, by simp [hm']⟩
      by_contra hdoc
      rw [Bool.not_eq_false] at hdoc
      obtain ⟨n', hn', hstub⟩ := (@Status.isDocument k m doc ttl id rank p h).mp hdoc
      rw [hn] at hn'
      cases hn'
      have hflag : hasFlag n.flags nflags.stub = false := hstub
      rw [show hasFlag n.flags nflags.stub = true from hdrop.1] at hflag
      cases hflag
    · left
      rw [hm', Option.elim_some, K.reread m p n h.ascending, K.read_eq m p (mergedRef_cases hn).1]
      rfl

end key

/-! ## Runs -/

/-- The batches of a run. -/
def batchesOf : List Event → List (List Edit)
  | [] => []
  | .batch edits :: events => edits :: batchesOf events
  | .compact :: events => batchesOf events
  | .reopen :: events => batchesOf events

/-- The batches alone. -/
def plainEvents (batches : List (List Edit)) : List Event := batches.map Event.batch

theorem batchesOf_append (a b : List Event) : batchesOf (a ++ b) = batchesOf a ++ batchesOf b := by
  induction a with
  | nil => rfl
  | cons e a ih =>
    cases e with
    | batch edits => rw [List.cons_append, batchesOf, batchesOf, ih, List.cons_append]
    | compact => rw [List.cons_append, batchesOf, batchesOf, ih]
    | reopen => rw [List.cons_append, batchesOf, batchesOf, ih]

theorem batchesOf_plainEvents (batches : List (List Edit)) :
    batchesOf (plainEvents batches) = batches := by
  induction batches with
  | nil => rfl
  | cons edits batches ih => exact congrArg (edits :: ·) ih

/-- What a run keeps of every key, after the batches `done`. -/
structure Sides (xxh3 : Bytes → UInt64) (done : List (List Edit)) (c : Chronicle) : Prop where
  synced : c.handle.Synced
  closed : c.handle.served.Closed
  status : ∀ k, Status (ingested k (setsOf done)) (c.base k) ((c.patch k).getD {})
  held : ∀ k (γ : Type) (K : SideKind xxh3 k γ),
    K.Traces done (K.held (c.base k) ((c.patch k).getD {}))

section runs
variable {xxh3 : Bytes → UInt64} {rank : SortedMap UrlKey NodeModel → List UInt16}
  {ttl : TtlConfig} {c c' : Chronicle} {done : List (List Edit)}

theorem Sides.create : Sides xxh3 [] Chronicle.create := by
  refine ⟨Handle.Synced.create, ?_, fun k => ⟨?_, ?_, ?_, ?_, ?_⟩, fun k γ K => .inl ?_⟩
  · intro k n hn
    cases hn
  · intro hd
    cases hd
  · exact fun _ => .inr ⟨rfl, fun n hn => by cases hn⟩
  · intro u hu
    cases hu
  · intro n hn
    cases hn
  · intro es hes
    cases hes
  · simp [SideKind.held, Chronicle.patch, Chronicle.overlay, Chronicle.create, Handle.create,
      foldKey, K.patch_empty, Chronicle.base, SideKind.lastSet, setsOf]

/-- What a batch does to a key: its base node stays, and its standing and side
    sets follow the ops that read nothing. -/
theorem Sides.batch_key {edits : List Edit} (h : Sides xxh3 done c)
    (hs : c.exec xxh3 rank ttl (.batch edits) = some c') (k : UrlKey) :
    c'.base k = c.base k ∧
      Status (ingested k (setsOf (done ++ [edits]))) (c'.base k) ((c'.patch k).getD {}) ∧
      ∀ (γ : Type) (K : SideKind xxh3 k γ), K.held (c'.base k) ((c'.patch k).getD {})
        = (setsOf [edits]).foldl K.after (K.held (c.base k) ((c.patch k).getD {})) := by
  obtain ⟨opss, hgives, -, -, hoverlay, hserved, -⟩ := Chronicle.exec_batch hs
  have hbase : c'.base k = c.base k := by rw [Chronicle.base, hserved, ← Chronicle.base]
  have hpatch : c'.patch k = foldKey k (c.patch k) opss.flatten := by
    rw [Chronicle.patch, hoverlay, foldKey_append, ← Chronicle.patch]
  have hsets : setsOf [edits] = edits.flatMap Edit.sets := by simp [setsOf]
  refine ⟨hbase, ?_, fun γ K => ?_⟩
  · have hing : ingested k (setsOf (done ++ [edits]))
        = opss.flatten.foldl (ingestOp k) (ingested k (setsOf done)) := by
      rw [setsOf_append, ingested, List.foldl_append, hsets]
      exact (foldl_gives (fun _ _ _ => rfl) (fun _ _ _ => rfl) hgives _).symm
    rw [hbase, hpatch, hing]
    exact (h.status k).foldKey (stagedOp_of_gives hgives)
  · rw [hbase, hpatch, K.held_foldKey, hsets]
    refine foldl_gives (fun v key t => ?_) (fun v key b => ?_) hgives _
    · simp [SideKind.after, SideKind.changes, K.value_touch]
    · simp [SideKind.after, SideKind.changes, K.value_pin]

theorem Sides.batch {edits : List Edit} (h : Sides xxh3 done c)
    (hs : c.exec xxh3 rank ttl (.batch edits) = some c') : Sides xxh3 (done ++ [edits]) c' := by
  obtain ⟨_, -, -, -, -, hserved, hsynced⟩ := Chronicle.exec_batch hs
  refine ⟨hsynced h.synced, hserved ▸ h.closed, fun k => (h.batch_key hs k).2.1, fun k γ K => ?_⟩
  rw [(h.batch_key hs k).2.2 γ K]
  exact (h.held k γ K).batch edits

theorem Sides.compact (h : Sides xxh3 done c) (hs : c.exec xxh3 rank ttl .compact = some c') :
    Sides xxh3 done c' := by
  obtain ⟨-, hoverlay, hsynced, hclosed, refs, hbase⟩ := Chronicle.exec_compact h.closed hs
  have hpatch : ∀ k, (c'.patch k).getD {} = {} := by
    intro k
    rw [Chronicle.patch, hoverlay]
    rfl
  refine ⟨hsynced, hclosed, fun k => ?_, fun k γ K => ?_⟩
  · rw [hpatch]
    exact (h.status k).compacted (hbase k)
  · rw [hpatch]
    rcases K.held_compacted (h.status k) (hbase k) with heq | ⟨hdoc, hnil⟩
    · rw [heq]
      exact h.held k γ K
    · -- dropped here, where the key is no document
      exact .inr ⟨hnil, done, [], by simp, hdoc, by simp [setsOf]⟩

/-- A whole run. -/
theorem Sides.run {events : List Event} (h : Sides xxh3 done c)
    (hrun : RunLib.run (Chronicle.exec xxh3 rank ttl) c events = some c') :
    Sides xxh3 (done ++ batchesOf events) c' := by
  induction events generalizing c done with
  | nil =>
    cases hrun
    simpa [batchesOf] using h
  | cons e events ih =>
    rw [RunLib.run, List.foldlM_cons] at hrun
    obtain ⟨c₁, hs, hrest⟩ := Option.bind_eq_some_iff.mp hrun
    cases e with
    | batch edits =>
      have := ih (h.batch hs) hrest
      rwa [List.append_assoc, List.singleton_append] at this
    | compact => exact ih (h.compact hs) hrest
    | reopen =>
      cases hs
      rw [h.synced.reopen] at hrest
      exact ih h hrest

/-- A run of batches alone: the base stays, and the sets are the last ones. -/
theorem Sides.run_plain {batches : List (List Edit)} (h : Sides xxh3 done c)
    (hrun : RunLib.run (Chronicle.exec xxh3 rank ttl) c (plainEvents batches) = some c')
    (k : UrlKey) :
    c'.base k = c.base k ∧ ∀ (γ : Type) (K : SideKind xxh3 k γ),
      K.held (c'.base k) ((c'.patch k).getD {})
        = (setsOf batches).foldl K.after (K.held (c.base k) ((c.patch k).getD {})) := by
  induction batches generalizing c done with
  | nil =>
    cases hrun
    exact ⟨rfl, fun γ K => rfl⟩
  | cons edits batches ih =>
    rw [plainEvents, List.map_cons, RunLib.run, List.foldlM_cons] at hrun
    obtain ⟨c₁, hs, hrest⟩ := Option.bind_eq_some_iff.mp hrun
    obtain ⟨hbase, -, hheld⟩ := h.batch_key hs k
    obtain ⟨hbase', hheld'⟩ := ih (h.batch hs) hrest
    refine ⟨hbase'.trans hbase, fun γ K => ?_⟩
    rw [hheld', hheld, show setsOf (edits :: batches) = setsOf [edits] ++ setsOf batches from
      setsOf_append [edits] batches, List.foldl_append]

/-! ## Reading -/

/-- The key is a document: its node is there, and no stub. -/
def Chronicle.IsDocument (ttl : TtlConfig) (c : Chronicle) (k : UrlKey) : Prop :=
  ∃ n, (c.handle.snapshot ttl).node k = some (some n) ∧ n.isStub = false

/-- Two stores give a key the same segments, outbound edges (without the dense
    ids their targets have in one base or the other) and attributes. -/
structure SameSides (xxh3 : Bytes → UInt64) (ttl : TtlConfig) (c₁ c₂ : Chronicle) (k : UrlKey) :
    Prop where
  segments : (c₁.handle.snapshot ttl).segments xxh3 k = (c₂.handle.snapshot ttl).segments xxh3 k
  edges : ((c₁.handle.snapshot ttl).neighbors k).map (List.map EdgeRef.raw)
    = ((c₂.handle.snapshot ttl).neighbors k).map (List.map EdgeRef.raw)
  attrs : (c₁.handle.snapshot ttl).attrs k = (c₂.handle.snapshot ttl).attrs k

theorem Sides.isDocument (h : Sides xxh3 done c) (k : UrlKey) :
    c.IsDocument ttl k ↔ ingested k (setsOf done) = true := by
  have hnode := @Status.isDocument k _ _ ttl (c.handle.served.idOf k) (c.handle.served.rankOf k) _
    (h.status k)
  rw [hnode, Chronicle.IsDocument]
  simp only [Handle.snapshot, Base.node_snapshot, Option.some.injEq]
  rfl

/-- A document reads what is held for it. -/
theorem Sides.reads (h : Sides xxh3 done c) {k : UrlKey} (hdoc : ingested k (setsOf done) = true) :
    (c.handle.snapshot ttl).segments xxh3 k
        = some ((segsKind xxh3 k).held (c.base k) ((c.patch k).getD {})) ∧
      ((c.handle.snapshot ttl).neighbors k).map (List.map EdgeRef.raw)
        = some ((edgesKind xxh3 k).held (c.base k) ((c.patch k).getD {})) ∧
      (c.handle.snapshot ttl).attrs k
        = some ((attrsKind xxh3 k).held (c.base k) ((c.patch k).getD {})) := by
  have hrem := ((h.status k).present hdoc).1
  have hread : ∀ (γ : Type) (K : SideKind xxh3 k γ),
      K.held (c.base k) ((c.patch k).getD {}) = K.read (c.base k) (c.patch k) :=
    fun γ K => (K.read_eq _ _ hrem).symm
  rw [hread, hread, hread]
  obtain ⟨es, hes, hraw⟩ := @Base.neighbors_snapshot c.handle.served c.overlay ttl h.closed k
  refine ⟨Base.segments_snapshot xxh3 k, ?_, Base.attrs_snapshot k⟩
  rw [Handle.snapshot, ← Chronicle.overlay, hes, Option.map_some, hraw]
  rfl

/-- Documents with the same sets held read the same. -/
theorem sameSides_iff {done' : List (List Edit)} (h : Sides xxh3 done c) (h' : Sides xxh3 done' c')
    {k : UrlKey} (hdoc : ingested k (setsOf done) = true)
    (hdoc' : ingested k (setsOf done') = true) :
    SameSides xxh3 ttl c c' k ↔
      (segsKind xxh3 k).held (c.base k) ((c.patch k).getD {})
          = (segsKind xxh3 k).held (c'.base k) ((c'.patch k).getD {}) ∧
        (edgesKind xxh3 k).held (c.base k) ((c.patch k).getD {})
          = (edgesKind xxh3 k).held (c'.base k) ((c'.patch k).getD {}) ∧
        (attrsKind xxh3 k).held (c.base k) ((c.patch k).getD {})
          = (attrsKind xxh3 k).held (c'.base k) ((c'.patch k).getD {}) := by
  obtain ⟨hs, he, ha⟩ := @Sides.reads _ ttl _ _ h k hdoc
  obtain ⟨hs', he', ha'⟩ := @Sides.reads _ ttl _ _ h' k hdoc'
  constructor
  · rintro ⟨h1, h2, h3⟩
    rw [hs, hs', Option.some.injEq] at h1
    rw [he, he', Option.some.injEq] at h2
    rw [ha, ha', Option.some.injEq] at h3
    exact ⟨h1, h2, h3⟩
  · rintro ⟨h1, h2, h3⟩
    exact ⟨by rw [hs, hs', h1], by rw [he, he', h2], by rw [ha, ha', h3]⟩

/-! ## Agreement -/

/-- A set made while the key was no document, and not made again, is empty. -/
def SideKind.Rooted {k : UrlKey} {γ : Type} (K : SideKind xxh3 k γ) (pre post : List (List Edit)) :
    Prop :=
  (∀ op ∈ setsOf post, K.changes op = false) → K.lastSet (setsOf pre) = []

/-- Whenever a batch ends with a key that is no document, and the key is one in
    the end, each of its side sets is empty there or changed afterwards. -/
def SetsSettled (xxh3 : Bytes → UInt64) (batches : List (List Edit)) : Prop :=
  ∀ k pre post, batches = pre ++ post → ingested k (setsOf pre) = false →
    ingested k (setsOf batches) = true →
    (segsKind xxh3 k).Rooted pre post ∧ (edgesKind xxh3 k).Rooted pre post ∧
      (attrsKind xxh3 k).Rooted pre post

/-- Where every set is rooted, a document holds the last set. -/
theorem SideKind.Traces.eq_lastSet {k : UrlKey} {γ : Type} {K : SideKind xxh3 k γ}
    {batches : List (List Edit)} {v : List γ} (h : K.Traces batches v)
    (hrooted : ∀ pre post, batches = pre ++ post → ingested k (setsOf pre) = false →
      K.Rooted pre post) : v = K.lastSet (setsOf batches) := by
  rcases h with heq | ⟨rfl, pre, post, rfl, hpre, hpost⟩
  · exact heq
  · have hnil := hrooted pre post rfl hpre hpost
    rw [setsOf_append, lastSet, List.foldl_append, K.foldl_after_of_unchanged hpost]
    exact hnil.symm

/-- A compaction that meets a fresh base and a key that is no document leaves
    nothing held for it. -/
theorem Sides.dropped (h : Sides xxh3 done c) {k : UrlKey} (hbase : c.base k = none)
    (hdoc : ingested k (setsOf done) = false)
    (hs : c.exec xxh3 rank ttl .compact = some c') (γ : Type) (K : SideKind xxh3 k γ) :
    K.held (c'.base k) ((c'.patch k).getD {}) = [] := by
  obtain ⟨-, hoverlay, -, -, refs, hget⟩ := Chronicle.exec_compact h.closed hs
  have hnone : c.handle.served.modelAt xxh3 c.overlay ttl k = none := by
    rw [Base.modelAt, Base.nodeAt, Option.map_eq_none_iff, ← Option.isNone_iff_eq_none,
      ← Option.not_isSome, isSome_mergedRef, isPresent]
    have habsent := (h.status k).absent hdoc
    rw [Chronicle.base] at hbase
    rcases habsent with hrem | ⟨hcore, -⟩
    · rw [show ((foldKey k none c.overlay).getD {}).removed = true from hrem]
      rfl
    · rw [show ((foldKey k none c.overlay).getD {}).core = none from hcore, hbase]
      simp
  have hpatch : (c'.patch k).getD {} = {} := by
    rw [Chronicle.patch, hoverlay]
    rfl
  rw [hpatch, hget k, hnone, Option.elim_none, SideKind.held, K.patch_empty]
  by_cases href : k ∈ refs <;> simp [href, K.base_stub]

/-- A set made while its key was no document, folded by a compaction then and
    there, is gone; without that compaction it stays. -/
theorem rooted_of_held {k : UrlKey} {pre post : List (List Edit)} {c₁ c₂ : Chronicle}
    (hrun₁ : RunLib.run (Chronicle.exec xxh3 rank ttl) .create (plainEvents (pre ++ post))
      = some c₁)
    (hrun₂ : RunLib.run (Chronicle.exec xxh3 rank ttl) .create
      (plainEvents pre ++ .compact :: plainEvents post) = some c₂)
    (hdoc : ingested k (setsOf pre) = false) {γ : Type} (K : SideKind xxh3 k γ)
    (hsame : K.held (c₁.base k) ((c₁.patch k).getD {})
      = K.held (c₂.base k) ((c₂.patch k).getD {})) : K.Rooted pre post := by
  intro hpost
  have hcreate : K.held (Chronicle.create.base k) ((Chronicle.create.patch k).getD {}) = [] := by
    simp [SideKind.held, Chronicle.patch, Chronicle.overlay, Chronicle.create, Handle.create,
      foldKey, K.patch_empty, Chronicle.base]
  have h₁ := (Sides.create.run_plain hrun₁ k).2 γ K
  rw [hcreate, setsOf_append, List.foldl_append, K.foldl_after_of_unchanged hpost] at h₁
  -- the other run: up to the compaction, the compaction, and on
  rw [RunLib.run_append] at hrun₂
  obtain ⟨ca, hrunA, hrest⟩ := Option.bind_eq_some_iff.mp hrun₂
  rw [RunLib.run, List.foldlM_cons] at hrest
  obtain ⟨cb, hcompact, hrunB⟩ := Option.bind_eq_some_iff.mp hrest
  have hsides := Sides.create.run hrunA
  rw [List.nil_append, batchesOf_plainEvents] at hsides
  have hfresh : ca.base k = none := (Sides.create.run_plain hrunA k).1
  have hdropped := hsides.dropped hfresh hdoc hcompact γ K
  have h₂ := ((hsides.compact hcompact).run_plain hrunB k).2 γ K
  rw [hdropped, K.foldl_after_of_unchanged hpost] at h₂
  rw [← h₂, ← hsame, h₁]
  rfl

/-- Every placement of compactions and reopenings in a run of batches gives every
    document the same side sets exactly when the sets are settled. The batches are
    ones that commit without a compaction and with any one. -/
theorem side_sets_agree_iff (xxh3 : Bytes → UInt64)
    (rank : SortedMap UrlKey NodeModel → List UInt16) (ttl : TtlConfig)
    (batches : List (List Edit))
    (hplain : (RunLib.run (Chronicle.exec xxh3 rank ttl) .create (plainEvents batches)).isSome)
    (hone : ∀ pre post, batches = pre ++ post → (RunLib.run (Chronicle.exec xxh3 rank ttl) .create
      (plainEvents pre ++ .compact :: plainEvents post)).isSome) :
    (∀ events₁ events₂ c₁ c₂, batchesOf events₁ = batches → batchesOf events₂ = batches →
      RunLib.run (Chronicle.exec xxh3 rank ttl) .create events₁ = some c₁ →
      RunLib.run (Chronicle.exec xxh3 rank ttl) .create events₂ = some c₂ →
      ∀ k, c₁.IsDocument ttl k ∨ c₂.IsDocument ttl k → SameSides xxh3 ttl c₁ c₂ k) ↔
    SetsSettled xxh3 batches := by
  constructor
  · intro hagree k pre post hsplit hdoc hend
    obtain ⟨c₁, hrun₁⟩ := Option.isSome_iff_exists.mp hplain
    obtain ⟨c₂, hrun₂⟩ := Option.isSome_iff_exists.mp (hone pre post hsplit)
    have hplaced : batchesOf (plainEvents pre ++ .compact :: plainEvents post) = batches := by
      rw [batchesOf_append, batchesOf, batchesOf_plainEvents, batchesOf_plainEvents, hsplit]
    have h₁ := Sides.create.run hrun₁
    have h₂ := Sides.create.run hrun₂
    rw [List.nil_append, batchesOf_plainEvents] at h₁
    rw [List.nil_append, hplaced] at h₂
    have hsame := hagree _ _ c₁ c₂ (batchesOf_plainEvents batches) hplaced hrun₁ hrun₂ k
      (.inl ((h₁.isDocument k).mpr hend))
    obtain ⟨hsegs, hedges, hattrs⟩ := (sameSides_iff h₁ h₂ hend hend).mp hsame
    rw [hsplit] at hrun₁
    exact ⟨rooted_of_held hrun₁ hrun₂ hdoc _ hsegs, rooted_of_held hrun₁ hrun₂ hdoc _ hedges,
      rooted_of_held hrun₁ hrun₂ hdoc _ hattrs⟩
  · intro hsettled events₁ events₂ c₁ c₂ hb₁ hb₂ hrun₁ hrun₂ k hdoc
    have h₁ := Sides.create.run hrun₁
    have h₂ := Sides.create.run hrun₂
    rw [List.nil_append, hb₁] at h₁
    rw [List.nil_append, hb₂] at h₂
    rw [h₁.isDocument, h₂.isDocument, or_self] at hdoc
    rw [sameSides_iff h₁ h₂ hdoc hdoc]
    refine ⟨?_, ?_, ?_⟩
    · have hroot := fun pre post hsplit hpre => (hsettled k pre post hsplit hpre hdoc).1
      rw [(h₁.held k _ (segsKind xxh3 k)).eq_lastSet hroot,
        (h₂.held k _ (segsKind xxh3 k)).eq_lastSet hroot]
    · have hroot := fun pre post hsplit hpre => (hsettled k pre post hsplit hpre hdoc).2.1
      rw [(h₁.held k _ (edgesKind xxh3 k)).eq_lastSet hroot,
        (h₂.held k _ (edgesKind xxh3 k)).eq_lastSet hroot]
    · have hroot := fun pre post hsplit hpre => (hsettled k pre post hsplit hpre hdoc).2.2
      rw [(h₁.held k _ (attrsKind xxh3 k)).eq_lastSet hroot,
        (h₂.held k _ (attrsKind xxh3 k)).eq_lastSet hroot]

end runs

/-- Attributes set on a key, and its document created in the batch after. -/
def attrsThenUpsert : List (List Edit) :=
  [[.write (.setAttrs 1 [(3, "x")])],
    [.write (.upsert ⟨"a", 1, 5, 10, none, none, none, false⟩)]]

/-- The run commits wherever one compaction is put, and the attributes depend on
    where. -/
theorem side_sets_agree_iff_attrsThenUpsert :
    ¬SetsSettled (fun _ => 7) attrsThenUpsert ∧
    ¬∀ events₁ events₂ c₁ c₂, batchesOf events₁ = attrsThenUpsert →
      batchesOf events₂ = attrsThenUpsert →
      RunLib.run (Chronicle.exec (fun _ => 7) (fun _ => []) TtlConfig.default) .create events₁
        = some c₁ →
      RunLib.run (Chronicle.exec (fun _ => 7) (fun _ => []) TtlConfig.default) .create events₂
        = some c₂ →
      ∀ k, c₁.IsDocument TtlConfig.default k ∨ c₂.IsDocument TtlConfig.default k →
        SameSides (fun _ => 7) TtlConfig.default c₁ c₂ k := by
  have hnot : ¬SetsSettled (fun _ => 7) attrsThenUpsert := by
    intro h
    obtain ⟨-, -, hattrs⟩ := h 1 (attrsThenUpsert.take 1) (attrsThenUpsert.drop 1) rfl
      (by decide +kernel) (by decide +kernel)
    have hunchanged : ∀ op ∈ setsOf (attrsThenUpsert.drop 1),
        (attrsKind (fun _ => 7) 1).changes op = false := by
      decide +kernel
    exact absurd (hattrs hunchanged) (by decide +kernel)
  refine ⟨hnot, ?_⟩
  rw [side_sets_agree_iff _ _ _ _ (by decide +kernel) ?_]
  · exact hnot
  · intro pre post hsplit
    have hlen : pre.length ≤ 2 := by
      have := congrArg List.length hsplit
      simp [attrsThenUpsert] at this
      omega
    have htake : pre = attrsThenUpsert.take pre.length := by rw [hsplit, List.take_left']; rfl
    have hdrop : post = attrsThenUpsert.drop pre.length := by rw [hsplit, List.drop_left']; rfl
    rw [htake, hdrop]
    generalize pre.length = n at hlen
    interval_cases n <;> decide +kernel

/-- With a compaction between the two batches the document has no attributes,
    without one it has them. -/
theorem attrs_depend_on_compaction :
    ∃ events₁ events₂ c₁ c₂, batchesOf events₁ = attrsThenUpsert ∧
      batchesOf events₂ = attrsThenUpsert ∧
      RunLib.run (Chronicle.exec (fun _ => 7) (fun _ => []) TtlConfig.default) .create events₁
        = some c₁ ∧
      RunLib.run (Chronicle.exec (fun _ => 7) (fun _ => []) TtlConfig.default) .create events₂
        = some c₂ ∧
      (c₁.handle.snapshot TtlConfig.default).attrs 1 = some [(3, "x")] ∧
      (c₂.handle.snapshot TtlConfig.default).attrs 1 = some [] ∧
      (∃ l₁, (c₁.handle.snapshot TtlConfig.default).forEachLive = some l₁ ∧
        1 ∈ l₁.map NodeRef.key) ∧
      (∃ l₂, (c₂.handle.snapshot TtlConfig.default).forEachLive = some l₂ ∧
        1 ∈ l₂.map NodeRef.key) := by
  have heval : ∀ events as, events = plainEvents attrsThenUpsert ∧ as = [(3, "x")] ∨
      events = plainEvents (attrsThenUpsert.take 1) ++ .compact ::
        plainEvents (attrsThenUpsert.drop 1) ∧ as = [] →
      ∃ c, RunLib.run (Chronicle.exec (fun _ => 7) (fun _ => []) TtlConfig.default) .create events
          = some c ∧ (c.handle.snapshot TtlConfig.default).attrs 1 = some as ∧
        ∃ l, (c.handle.snapshot TtlConfig.default).forEachLive = some l ∧
          1 ∈ l.map NodeRef.key := by
    intro events as h
    have hrun : ((RunLib.run (Chronicle.exec (fun _ => 7) (fun _ => []) TtlConfig.default) .create
        events).any fun c => decide ((c.handle.snapshot TtlConfig.default).attrs 1 = some as) &&
          (c.handle.snapshot TtlConfig.default).forEachLive.any fun l =>
            decide (1 ∈ l.map NodeRef.key)) = true := by
      rcases h with ⟨rfl, rfl⟩ | ⟨rfl, rfl⟩ <;> decide +kernel
    cases hc : RunLib.run (Chronicle.exec (fun _ => 7) (fun _ => []) TtlConfig.default) .create
        events with
    | none => simp [hc] at hrun
    | some c =>
      rw [hc, Option.any_some, Bool.and_eq_true, decide_eq_true_eq] at hrun
      obtain ⟨hattrs, hlive⟩ := hrun
      cases hl : (c.handle.snapshot TtlConfig.default).forEachLive with
      | none => simp [hl] at hlive
      | some l =>
        rw [hl, Option.any_some, decide_eq_true_eq] at hlive
        exact ⟨c, rfl, hattrs, l, hl, hlive⟩
  obtain ⟨c₁, hrun₁, hattrs₁, hlive₁⟩ := heval _ _ (.inl ⟨rfl, rfl⟩)
  obtain ⟨c₂, hrun₂, hattrs₂, hlive₂⟩ := heval _ _ (.inr ⟨rfl, rfl⟩)
  exact ⟨_, _, c₁, c₂, rfl, rfl, hrun₁, hrun₂, hattrs₁, hattrs₂, hlive₁, hlive₂⟩

end GraphR
