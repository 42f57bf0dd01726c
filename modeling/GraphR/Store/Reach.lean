import GraphR.Store.SidePlacement

/-! # Written stores

    Every state any number of handles can bring a store to, as a reader sees it: a
    base and the ops above it. A commit appends ops the writer stages, whatever
    state they were staged on; a compaction folds what is there. This contains the
    runs of one handle (`reach_of_run`), and the snapshot of a handle that has not
    caught up is that of an earlier state. -/

namespace GraphR

open Wal ByteLib

section reach
variable (xxh3 : Bytes → UInt64) (rank : SortedMap UrlKey NodeModel → List UInt16)

/-- A base and the ops above it, as commits and compactions leave them. -/
inductive Reach : Base → List Op → Prop where
  | create : Reach ⟨SortedMap.empty, []⟩ []
  | commit {b : Base} {ops new : List Op} (h : Reach b ops) (hnew : ∀ op ∈ new, StagedOp op) :
      Reach b (ops ++ new)
  | compact {b : Base} {ops : List Op} {ttl : TtlConfig} {nodes : SortedMap UrlKey NodeModel}
      (h : Reach b ops) (hnodes : (b.snapshot ops ttl).compactNodes xxh3 = some nodes) :
      Reach ⟨nodes, rank nodes⟩ []

end reach

/-- What every written store keeps. -/
structure Written (b : Base) (ops : List Op) : Prop where
  closed : b.Closed
  ascending : ∀ k m, b.nodes.get k = some m → Ascending m.edges
  staged : ∀ op ∈ ops, StagedOp op

section written
variable {xxh3 : Bytes → UInt64} {rank : SortedMap UrlKey NodeModel → List UInt16}

/-- Sorted by destination with the first of each kept, edges ascend. -/
theorem normEdges_ascending (es : List Edge) : Ascending (normEdges es) := by
  have hsorted : (es.insertionSort fun a b => a.dst ≤ b.dst).Pairwise fun a b => a.dst ≤ b.dst := by
    have : Std.Total (fun a b : Edge => a.dst ≤ b.dst) := ⟨fun a b => le_total a.dst b.dst⟩
    have : IsTrans Edge (fun a b : Edge => a.dst ≤ b.dst) := ⟨fun _ _ _ => le_trans⟩
    exact List.pairwise_insertionSort _ es
  have hsub : (normEdges es).Pairwise fun a b => a.dst ≤ b.dst :=
    hsorted.sublist (List.destutter_sublist _ _)
  have hchain : (normEdges es).IsChain fun a b => a.dst ≠ b.dst := List.isChain_destutter _ _
  -- neighbours differ and nothing descends: strictly ascending, neighbour by neighbour
  have hlt : (normEdges es).IsChain fun a b => a.dst < b.dst := by
    rw [List.isChain_iff_getElem] at hchain ⊢
    intro i hi
    exact lt_of_le_of_ne (List.pairwise_iff_getElem.mp hsub i (i + 1) (by omega) hi (by omega))
      (hchain i hi)
  have : Trans (fun a b : Edge => a.dst < b.dst) (fun a b : Edge => a.dst < b.dst)
      (fun a b : Edge => a.dst < b.dst) := ⟨fun hab hbc => lt_trans hab hbc⟩
  exact List.isChain_iff_pairwise.mp hlt

theorem Written.compact {b : Base} {ops : List Op} {ttl : TtlConfig}
    {nodes : SortedMap UrlKey NodeModel} (h : Written b ops)
    (hnodes : (b.snapshot ops ttl).compactNodes xxh3 = some nodes) (ranks : List UInt16) :
    Written ⟨nodes, ranks⟩ [] := by
  obtain ⟨models, hmodels, hget⟩ := @Base.collectModels_snapshot xxh3 b ops ttl h.closed
  rw [Snapshot.compactNodes, hmodels] at hnodes
  cases hnodes
  refine ⟨manageStubs_closed _ _, ?_, by simp⟩
  intro k m hm
  simp only [get_manageStubs, hget] at hm
  cases hmodel : b.modelAt xxh3 ops ttl k with
  | none =>
    rw [hmodel] at hm
    simp only at hm
    split_ifs at hm
    cases hm
    exact List.Pairwise.nil
  | some m' =>
    rw [hmodel] at hm
    simp only at hm
    split_ifs at hm
    cases hm
    obtain ⟨n, -, rfl⟩ := Option.map_eq_some_iff.mp hmodel
    exact normEdges_ascending _

theorem Reach.written {b : Base} {ops : List Op} (h : Reach xxh3 rank b ops) : Written b ops := by
  induction h with
  | create =>
    refine ⟨?_, ?_, by simp⟩
    · intro k m hm
      cases hm
    · intro k m hm
      cases hm
  | commit h hnew ih =>
    refine ⟨ih.closed, ih.ascending, ?_⟩
    intro op hop
    rcases List.mem_append.mp hop with hop | hop
    · exact ih.staged op hop
    · exact hnew op hop
  | compact h hnodes ih => exact ih.compact hnodes _

/-- The runs of one handle stay inside. -/
theorem reach_of_run {ttl : TtlConfig} {events : List Event} {c c' : Chronicle}
    (h : Reach xxh3 rank c.handle.served c.overlay) (hs : c.handle.Synced)
    (hrun : RunLib.run (Chronicle.exec xxh3 rank ttl) c events = some c') :
    Reach xxh3 rank c'.handle.served c'.overlay := by
  induction events generalizing c with
  | nil =>
    cases hrun
    exact h
  | cons e events ih =>
    rw [RunLib.run, List.foldlM_cons] at hrun
    obtain ⟨c₁, hstep, hrest⟩ := Option.bind_eq_some_iff.mp hrun
    cases e with
    | batch edits =>
      obtain ⟨opss, hgives, -, -, hoverlay, hserved, hsynced⟩ := Chronicle.exec_batch hstep
      refine ih ?_ (hsynced hs) hrest
      rw [hserved, hoverlay]
      exact .commit h (stagedOp_of_gives hgives)
    | compact =>
      obtain ⟨-, hoverlay, hsynced, -, -⟩ := Chronicle.exec_compact h.written.closed hstep
      refine ih ?_ hsynced hrest
      rw [hoverlay]
      unfold Chronicle.exec Handle.compact at hstep
      cases hn : (c.handle.snapshot ttl).compactNodes xxh3 with
      | none => simp [hn] at hstep
      | some nodes =>
        simp only [hn, Option.bind_eq_bind, Option.bind_some, Option.some.injEq] at hstep
        subst hstep
        exact .compact h hn
    | reopen =>
      cases hstep
      rw [hs.reopen] at hrest
      exact ih h hs hrest

/-! ## Patches of a written store -/

section patch
variable {b : Base} {ops : List Op} {k : UrlKey}

/-- The overlay node of a key: its core is no stub, its edges ascend. -/
theorem Written.patch (h : Written b ops) (k : UrlKey) :
    (∀ c, ((foldKey k none ops).getD {}).core = some c → hasFlag c.flags nflags.stub = false) ∧
      ∀ es, ((foldKey k none ops).getD {}).edges = some es → Ascending es := by
  have hstart : Status false (none : Option NodeModel) ((none : Option OverlayNode).getD {}) := by
    refine ⟨by simp, fun _ => .inr ⟨rfl, by simp⟩, ?_, by simp, ?_⟩
    · intro c hc
      cases hc
    · intro es hes
      cases hes
  have hstatus := @Status.foldKey k none false none ops hstart h.staged
  exact ⟨hstatus.core, hstatus.edges⟩

/-- Outbound edges ascend, wherever they are read from. -/
theorem Written.edges_ascending (h : Written b ops) (k : UrlKey) :
    Ascending (mergedEdges (b.nodes.get k) (foldKey k none ops)) :=
  mergedEdges_ascending (h.ascending k) (h.patch k).2

/-- A node without a base record is no stub. -/
theorem Written.fresh_not_stub (h : Written b ops) {ttl : TtlConfig} {n : NodeRef}
    (hn : b.nodeAt ops ttl k = some n) (hbase : b.nodes.get k = none) : n.isStub = false := by
  rw [isStub_mergedRef hn, hbase]
  cases hcore : ((foldKey k none ops).getD {}).core with
  | none => rfl
  | some c => exact (h.patch k).1 c hcore

end patch

end written

end GraphR
