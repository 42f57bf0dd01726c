import GraphR.Library.Settle
import GraphR.Store.Findable

/-! # Compacting again

    A compaction with no commit since the last one collects every node as it is, and
    then manages the stubs: a stub that only a stub dropped by the last compaction
    referred to is dropped by this one. So compaction is not idempotent, but it settles:
    each one drops stubs of the one before and nothing else, until every stub is a
    target. -/

namespace GraphR

open Wal ByteLib SettleLib

/-! ## Nodes as they were collected -/

/-- Its byte range is there only where its flags say so. -/
def SegRef.Flagged (s : SegRef) : Prop := s.byteRange = none ∨ s.flags &&& sflags.noRange = 0

theorem SegRef.Flagged.toModel_toRef {s : SegRef} (h : s.Flagged) :
    s.toModel.toRef.toModel = s.toModel := by
  unfold SegRef.toModel SegModel.toRef
  rcases h with hnone | hflag
  · by_cases hflag : s.flags &&& sflags.noRange = 0
    · simp [hnone, hflag]
    · simp [hnone, hflag]
  · simp [hflag]

theorem SegModel.flagged_toRef (s : SegModel) : s.toRef.Flagged := by
  unfold SegModel.toRef SegRef.Flagged
  by_cases hflag : s.flags &&& sflags.noRange = 0
  · exact .inr hflag
  · exact .inl (if_neg hflag)

theorem flagged_segRefOf (xxh3 : Bytes → UInt64) (k : UrlKey) (v : SegView) :
    (Snapshot.segRefOf xxh3 k v).Flagged := by
  unfold Snapshot.segRefOf SegRef.Flagged SegView.byteRange
  by_cases hflag : v.flags &&& sflags.noRange = 0
  · exact .inr hflag
  · exact .inl (if_neg hflag)

/-- Collected again, a node of a base is what it was. -/
structure NodeModel.Settled (m : NodeModel) : Prop where
  segs : ∀ s ∈ m.segs, s.toRef.toModel = s
  edges : Ascending m.edges

section collected
variable {xxh3 : Bytes → UInt64} {b : Base} {ops : List Op} {ttl : TtlConfig}

theorem flagged_mergedSegs {k : UrlKey} {m : Option NodeModel} {p : Option OverlayNode} :
    ∀ s ∈ mergedSegs xxh3 k m p, s.Flagged := by
  intro s hs
  have hbase : s ∈ (m.elim [] fun m => m.segs.map SegModel.toRef) → s.Flagged := by
    intro hs
    cases m with
    | none => cases hs
    | some m =>
      obtain ⟨v, -, rfl⟩ := List.mem_map.mp hs
      exact v.flagged_toRef
  unfold mergedSegs at hs
  cases p with
  | none => exact hbase hs
  | some p =>
    simp only at hs
    split_ifs at hs
    · cases hs
    · cases hsegs : p.segs with
      | none =>
        rw [hsegs] at hs
        exact hbase hs
      | some vs =>
        rw [hsegs] at hs
        obtain ⟨v, -, rfl⟩ := List.mem_map.mp hs
        exact flagged_segRefOf xxh3 k v

theorem settled_stubModel : stubModel.Settled := ⟨by simp [stubModel], List.Pairwise.nil⟩

/-- Whatever a compaction collects has settled. -/
theorem settled_modelAt {k : UrlKey} {m : NodeModel} (hm : b.modelAt xxh3 ops ttl k = some m) :
    m.Settled := by
  obtain ⟨n, -, rfl⟩ := Option.map_eq_some_iff.mp hm
  refine ⟨?_, normEdges_ascending _⟩
  intro s hs
  obtain ⟨v, hv, rfl⟩ := List.mem_map.mp hs
  exact (flagged_mergedSegs v hv).toModel_toRef

/-- A settled node is collected as it is. -/
theorem NodeModel.Settled.modelAt {k : UrlKey} {m : NodeModel} (h : m.Settled)
    (hm : b.nodes.get k = some m) : b.modelAt xxh3 [] ttl k = some m := by
  have hsegs : (m.segs.map SegModel.toRef).map SegRef.toModel = m.segs := by
    rw [List.map_map]
    exact (List.map_congr_left h.segs).trans (List.map_id _)
  unfold Base.modelAt Base.nodeAt
  rw [hm]
  show some (NodeRef.toModel _ (m.segs.map SegModel.toRef) m.edges m.attrs) = some m
  unfold NodeRef.toModel
  rw [hsegs, normEdges_of_ascending h.edges]
  rfl

end collected

/-! ## One more compaction -/

/-- Nodes whose edges have targets and that a compaction collects as they are. -/
structure Folded (nodes : SortedMap UrlKey NodeModel) : Prop where
  closed : ∀ ranks, Base.Closed ⟨nodes, ranks⟩
  settled : ∀ k m, nodes.get k = some m → m.Settled

section again
variable {xxh3 : Bytes → UInt64} {ttl : TtlConfig} {nodes : SortedMap UrlKey NodeModel}

/-- Compaction of a written store leaves folded nodes. -/
theorem Written.folded {b : Base} {ops : List Op} (h : Written b ops)
    (hnodes : (b.snapshot ops ttl).compactNodes xxh3 = some nodes) : Folded nodes := by
  obtain ⟨models, hmodels, hget⟩ := @Base.collectModels_snapshot xxh3 b ops ttl h.closed
  rw [Snapshot.compactNodes, hmodels] at hnodes
  cases hnodes
  refine ⟨manageStubs_closed _, ?_⟩
  intro k m hm
  rw [get_manageStubs, hget] at hm
  cases hmodel : b.modelAt xxh3 ops ttl k with
  | none =>
    rw [hmodel] at hm
    simp only at hm
    split_ifs at hm
    cases hm
    exact settled_stubModel
  | some m' =>
    rw [hmodel] at hm
    simp only at hm
    split_ifs at hm
    cases hm
    exact settled_modelAt hmodel

/-- With no commit in between, a compaction only manages the stubs. -/
theorem Folded.compactNodes (h : Folded nodes) (ranks : List UInt16) :
    (Base.snapshot ⟨nodes, ranks⟩ [] ttl).compactNodes xxh3 = some (manageStubs nodes) := by
  obtain ⟨models, hmodels, hget⟩ := @Base.collectModels_snapshot xxh3 ⟨nodes, ranks⟩ [] ttl
    (h.closed ranks)
  -- collecting over no ops gives the nodes back
  have hsame : models = nodes := by
    refine SortedMap.ext_get fun k => ?_
    rw [hget]
    cases hm : nodes.get k with
    | none =>
      unfold Base.modelAt Base.nodeAt
      rw [hm]
      rfl
    | some m => exact (h.settled k m hm).modelAt hm
  rw [Snapshot.compactNodes, hmodels, hsame]
  rfl

/-- Over folded nodes that drops the stubs nothing refers to, and adds none. -/
theorem Folded.get_again (h : Folded nodes) (k : UrlKey) :
    (manageStubs nodes).get k = (nodes.get k).filter fun m =>
      !hasFlag m.flags nflags.stub || (referenced nodes).contains k := by
  rw [get_manageStubs]
  cases hm : nodes.get k with
  | none =>
    -- a target has a node
    simp only [Option.filter_none, ite_eq_right_iff]
    intro href
    obtain ⟨src, m, hsrc, e, he, rfl⟩ := mem_referenced.mp href
    have hsome := h.closed [] src m hsrc e he
    rw [hm] at hsome
    cases hsome
  | some m =>
    by_cases hstub : hasFlag m.flags nflags.stub = true
    · by_cases href : k ∈ referenced nodes
      · simp [hstub, href, Option.filter_some]
      · simp [hstub, href, Option.filter_some]
    · simp [hstub, Option.filter_some]

theorem Folded.again (h : Folded nodes) : Folded (manageStubs nodes) := by
  refine ⟨manageStubs_closed _, ?_⟩
  intro k m hm
  rw [h.get_again] at hm
  exact h.settled k m (Option.filter_eq_some_iff.mp hm).1

/-- How many of the nodes are stubs. -/
def stubCount (nodes : SortedMap UrlKey NodeModel) : Nat :=
  (nodes.entries.filter fun e => hasFlag e.2.flags nflags.stub).length

/-- Managing the stubs filters the nodes. -/
theorem Folded.again_eq_filter (h : Folded nodes) : manageStubs nodes = nodes.filter fun k m =>
    !hasFlag m.flags nflags.stub || (referenced nodes).contains k := by
  refine SortedMap.ext_get fun k => ?_
  rw [h.get_again, SortedMap.get_filter]

/-- That changes nothing where every stub is a target, and else not. -/
theorem Folded.fixed_iff (h : Folded nodes) : manageStubs nodes = nodes ↔
    ∀ k m, nodes.get k = some m → hasFlag m.flags nflags.stub = true →
      ∃ src m', nodes.get src = some m' ∧ ∃ e ∈ m'.edges, e.dst = k := by
  constructor
  · -- a stub that is no target would be filtered out
    intro hfix k m hm hstub
    have hget := h.get_again k
    rw [hfix, hm, Option.filter_some] at hget
    rw [← mem_referenced]
    by_contra href
    simp [hstub, href] at hget
  · intro htargets
    refine SortedMap.ext_get fun k => ?_
    rw [h.get_again]
    cases hm : nodes.get k with
    | none => rfl
    | some m =>
      rw [Option.filter_some, if_pos]
      by_cases hstub : hasFlag m.flags nflags.stub = true
      · simp [hstub, mem_referenced.mpr (htargets k m hm hstub)]
      · simp [hstub]

/-- Managing the stubs changes nothing, or there are fewer of them after. -/
theorem Folded.shrinks (h : Folded nodes) :
    manageStubs nodes = nodes ∨ stubCount (manageStubs nodes) < stubCount nodes := by
  have hfilter := h.again_eq_filter
  generalize hp : (fun (k : UrlKey) (m : NodeModel) =>
    !hasFlag m.flags nflags.stub || (referenced nodes).contains k) = p at hfilter
  by_cases hall : ∀ e ∈ nodes.entries, p e.1 e.2 = true
  · left
    refine hfilter.trans (SortedMap.ext_get fun k => ?_)
    rw [SortedMap.get_filter]
    cases hm : nodes.get k with
    | none => rw [Option.filter_none]
    | some m => rw [Option.filter_some, if_pos (hall _ (SortedMap.mem_entries.mpr hm))]
  · -- some entry goes, and only stubs do
    right
    push Not at hall
    obtain ⟨e, he, hgoes⟩ := hall
    have hstub : hasFlag e.2.flags nflags.stub = true := by
      by_contra hno
      exact hgoes (by simp [← hp, hno])
    unfold stubCount
    rw [hfilter]
    refine lt_of_le_of_ne ((List.filter_sublist.filter _).length_le) ?_
    -- as many stubs after as before would mean that none has gone
    intro hlen
    have hsame := (List.filter_sublist (p := fun e : UrlKey × NodeModel => p e.1 e.2)
      (l := nodes.entries)).filter fun e => hasFlag e.2.flags nflags.stub
    have hkept := hsame.eq_of_length hlen
    have hin : e ∈ nodes.entries.filter fun e => hasFlag e.2.flags nflags.stub :=
      List.mem_filter.mpr ⟨he, hstub⟩
    rw [← hkept] at hin
    exact hgoes (List.mem_filter.mp (List.mem_filter.mp hin).1).2

end again

/-! ## Compacting again and again -/

section recompact
variable (xxh3 : Bytes → UInt64) (rank : SortedMap UrlKey NodeModel → List UInt16) (ttl : TtlConfig)

/-- The nodes after `n` compactions with nothing committed. -/
def recompact : Nat → SortedMap UrlKey NodeModel → Option (SortedMap UrlKey NodeModel)
  | 0, nodes => some nodes
  | n + 1, nodes => do
    let nodes ← (Base.snapshot ⟨nodes, rank nodes⟩ [] ttl).compactNodes xxh3
    recompact n nodes

variable {xxh3 rank ttl}

theorem Folded.run {nodes : SortedMap UrlKey NodeModel} (h : Folded nodes) (n : Nat) :
    recompact xxh3 rank ttl n nodes = some (manageStubs^[n] nodes) ∧
      Folded (manageStubs^[n] nodes) := by
  induction n generalizing nodes with
  | zero => exact ⟨rfl, h⟩
  | succ n ih =>
    rw [recompact, h.compactNodes, Option.bind_eq_bind, Option.bind_some,
      Function.iterate_succ_apply]
    exact ih h.again

/-- More compactions keep every document, and every node they keep as it is. -/
theorem Folded.iterate {nodes : SortedMap UrlKey NodeModel} (h : Folded nodes) (n : Nat)
    (k : UrlKey) :
    (∀ m, (manageStubs^[n] nodes).get k = some m → nodes.get k = some m) ∧
    ∀ m, nodes.get k = some m → hasFlag m.flags nflags.stub = false →
      (manageStubs^[n] nodes).get k = some m := by
  induction n generalizing nodes with
  | zero => exact ⟨fun m hm => hm, fun m hm _ => hm⟩
  | succ n ih =>
    rw [Function.iterate_succ_apply]
    obtain ⟨hold, hkeep⟩ := ih h.again
    refine ⟨fun m hm => ?_, fun m hm hdoc => ?_⟩
    · have hnext := hold m hm
      rw [h.get_again] at hnext
      exact (Option.filter_eq_some_iff.mp hnext).1
    · refine hkeep m ?_ hdoc
      rw [h.get_again, hm]
      simp [Option.filter_some, hdoc]

end recompact

/-- Compaction settles. Let a written store be compacted, and then again any number of
    times with nothing committed in between: no compaction fails, none adds a node or
    changes one, none drops a document; the next one changes nothing if and only if
    every stub is the target of an edge in the base as it is; and that is so after as
    many compactions as the first one left stubs. -/
theorem compaction_settles (xxh3 : Bytes → UInt64)
    (rank : SortedMap UrlKey NodeModel → List UInt16) (ttl : TtlConfig) {b : Base} {ops : List Op}
    (h : Reach xxh3 rank b ops) {nodes : SortedMap UrlKey NodeModel}
    (hnodes : (b.snapshot ops ttl).compactNodes xxh3 = some nodes) (n : Nat) :
    ∃ nodes', recompact xxh3 rank ttl n nodes = some nodes' ∧
      (∀ k m, nodes'.get k = some m → nodes.get k = some m) ∧
      (∀ k m, nodes.get k = some m → hasFlag m.flags nflags.stub = false →
        nodes'.get k = some m) ∧
      (recompact xxh3 rank ttl (n + 1) nodes = some nodes' ↔
        ∀ k m, nodes'.get k = some m → hasFlag m.flags nflags.stub = true →
          ∃ src m', nodes'.get src = some m' ∧ ∃ e ∈ m'.edges, e.dst = k) ∧
      (stubCount nodes ≤ n → recompact xxh3 rank ttl (n + 1) nodes = some nodes') := by
  have hfolded := h.written.folded hnodes
  obtain ⟨hrun, hlast⟩ := @Folded.run xxh3 rank ttl nodes hfolded n
  obtain ⟨hnext, -⟩ := @Folded.run xxh3 rank ttl nodes hfolded (n + 1)
  rw [Function.iterate_succ_apply'] at hnext
  refine ⟨_, hrun, fun k => (hfolded.iterate n k).1, fun k => (hfolded.iterate n k).2, ?_, ?_⟩
  · rw [hnext, Option.some.injEq]
    exact hlast.fixed_iff
  · intro hn
    rw [hnext]
    -- each compaction that changes something takes a stub, and there are no more
    exact congrArg some (iterate_settles (fun _ hx => hx.again) (fun _ hx => hx.shrinks)
      hfolded hn)

/-- A link to a document that was never ingested. -/
def oneLink : List Op := [.upsert ⟨1, 5, 7, 0, "a", none, none, none⟩, .edges 1 [⟨9, 0, 1, 3⟩]]

/-- The link goes; its target, a stub, has a link of its own. -/
def linkMoved : List Op := [.edges 1 [], .edges 9 [⟨10, 0, 1, 3⟩]]

/-- The first compaction drops the stub and keeps what it links to, the second drops
    that, and then nothing changes. -/
theorem compaction_settles_second : ∃ nodes nodes',
    ((firstBase oneLink).snapshot linkMoved TtlConfig.default).compactNodes packHash = some nodes ∧
    (nodes.get 10).isSome ∧
    recompact packHash evenRanks TtlConfig.default 1 nodes = some nodes' ∧ nodes'.get 10 = none ∧
    recompact packHash evenRanks TtlConfig.default 2 nodes = some nodes' := by
  have hcheck : (((firstBase oneLink).snapshot linkMoved TtlConfig.default).compactNodes
      packHash).any (fun nodes => (nodes.get 10).isSome && decide (stubCount nodes ≤ 1) &&
        (recompact packHash evenRanks TtlConfig.default 1 nodes).any fun nodes' =>
          (nodes'.get 10).isNone) = true := by decide +kernel
  obtain ⟨nodes, hnodes, hchecks⟩ := (Option.any_eq_true _ _).mp hcheck
  simp only [Bool.and_eq_true, decide_eq_true_eq] at hchecks
  have hreach : Reach packHash evenRanks (firstBase oneLink) linkMoved :=
    reach_firstBase (by simp [oneLink, StagedOp, hasFlag, Ascending])
      (by simp [linkMoved, StagedOp, Ascending])
  obtain ⟨nodes', hrun, -, -, -, hsettled⟩ :=
    compaction_settles packHash evenRanks TtlConfig.default hreach hnodes 1
  obtain ⟨nodes₁, hrun₁, hnone⟩ := (Option.any_eq_true _ _).mp hchecks.2
  rw [hrun] at hrun₁
  cases hrun₁
  exact ⟨nodes, nodes', hnodes, hchecks.1.1, hrun, Option.isNone_iff_eq_none.mp hnone,
    hsettled hchecks.1.2⟩

end GraphR
