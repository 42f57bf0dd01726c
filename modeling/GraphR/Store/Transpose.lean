import GraphR.Store.Reach

/-! # Inbound edges are the outbound ones, turned around

    `neighbors` chooses per source between the overlay's set, nothing and the base
    run; `in_edges` merges the base's reverse index, without the sources the overlay
    speaks for, with the overlay's own edges. Counted per source, the two make the
    same choice (`count_inEdges`). -/

namespace GraphR

open Wal ByteLib

/-- An edge of `src` as its target sees it. -/
def inboundOf (src : UrlKey) (e : Edge) : InEdge :=
  ⟨src, EdgeType.fromTag e.etype, e.eflags, e.weight⟩

/-- An outbound reference of `src` as its target sees it. -/
def EdgeRef.inbound (src : UrlKey) (r : EdgeRef) : InEdge := ⟨src, r.etype, r.flags, r.weight⟩

namespace Base

variable {b : Base} {ops : List Op} {ttl : TtlConfig}

/-! ## Outbound, with the type a reader sees -/

theorem etype_of_mapM {es : List Edge} {rs : List EdgeRef}
    (h : es.mapM (b.snapshot ops ttl).overlayEdgeRef = some rs) :
    ∀ r ∈ rs, EdgeType.fromTag r.etype.asTag = r.etype := by
  intro r hr
  obtain ⟨e, -, he⟩ := (FaultLib.mem_of_mapM h).mp hr
  unfold Snapshot.overlayEdgeRef at he
  obtain ⟨dst, -, he⟩ := Option.bind_eq_some_iff.mp he
  obtain ⟨identity, -, he⟩ := Option.bind_eq_some_iff.mp he
  cases he
  simp

theorem etype_of_baseNeighbors {k : UrlKey} {rs : List EdgeRef}
    (h : (b.snapshot ops ttl).baseNeighbors k = some rs) :
    ∀ r ∈ rs, EdgeType.fromTag r.etype.asTag = r.etype := by
  unfold Snapshot.baseNeighbors at h
  obtain ⟨id, -, h⟩ := Option.bind_eq_some_iff.mp h
  cases id with
  | none =>
    cases h
    simp
  | some id =>
    obtain ⟨run, -, h⟩ := Option.bind_eq_some_iff.mp h
    intro r hr
    obtain ⟨e, -, he⟩ := (FaultLib.mem_of_mapM h).mp hr
    unfold Snapshot.baseEdgeRef at he
    obtain ⟨⟨key, url⟩, -, he⟩ := Option.bind_eq_some_iff.mp he
    cases he
    simp

/-- A reference has the type its tag stands for. -/
theorem etype_of_neighbors {k : UrlKey} {rs : List EdgeRef}
    (h : (b.snapshot ops ttl).neighbors k = some rs) :
    ∀ r ∈ rs, EdgeType.fromTag r.etype.asTag = r.etype := by
  unfold Snapshot.neighbors at h
  split at h
  · exact etype_of_baseNeighbors h
  · next p _ =>
    by_cases hrem : p.removed = true
    · rw [if_pos hrem] at h
      cases h
      simp
    · rw [if_neg hrem] at h
      split at h
      · exact etype_of_mapM h
      · by_cases hsev : p.severed = true
        · rw [if_pos hsev] at h
          cases h
          simp
        · rw [if_neg hsev] at h
          exact etype_of_baseNeighbors h

/-- So the references of a key, turned around, are its edges turned around. -/
theorem inbound_neighbors (hb : b.Closed) (k : UrlKey) :
    ∃ rs, (b.snapshot ops ttl).neighbors k = some rs ∧
      rs.map (fun r => (r.dstKey, r.inbound k))
        = (mergedEdges (b.nodes.get k) (foldKey k none ops)).map fun e => (e.dst, inboundOf k e) := by
  obtain ⟨rs, hrs, hraw⟩ := @neighbors_snapshot b ops ttl hb k
  refine ⟨rs, hrs, ?_⟩
  rw [← hraw, List.map_map]
  refine List.map_congr_left ?_
  intro r hr
  simp only [Function.comp_apply, EdgeRef.raw, inboundOf, EdgeRef.inbound,
    etype_of_neighbors hrs r hr]

/-! ## Inbound, source by source -/

/-- The overlay speaks for the edges of a source. -/
def speaksFor (ops : List Op) (src : UrlKey) : Bool :=
  (foldKey src none ops).any fun p => p.edges.isSome || p.removed || p.severed

/-- What one base node adds to the inbound edges of `key`. -/
def fromNode (ops : List Op) (key : UrlKey) (e : UrlKey × NodeModel) : List InEdge :=
  if speaksFor ops e.1 then []
  else (e.2.edges.filter fun d => d.dst = key).map (inboundOf e.1)

/-- What one overlay node adds. -/
def fromPatch (key : UrlKey) (e : UrlKey × OverlayNode) : List InEdge :=
  if e.2.removed then []
  else ((e.2.edges.getD []).filter fun d => d.dst = key).map (inboundOf e.1)

/-- The reverse index of a key, read through the overlay. -/
theorem inbound_run (key : UrlKey) :
    ∃ run, (b.inbound key).mapM (b.snapshot ops ttl).baseInEdge = some run ∧
      run.filterMap id = b.nodes.entries.flatMap (fromNode ops key) := by
  have hpiece : ∀ p ∈ b.nodes.entries.zipIdx,
      ((p.1.2.edges.filter fun d => d.dst = key).map fun d : Edge =>
          (⟨p.2, d.etype, d.eflags, d.weight⟩ : BaseEdge)).mapM (b.snapshot ops ttl).baseInEdge
        = some ((p.1.2.edges.filter fun d => d.dst = key).map fun d =>
            if speaksFor ops p.1.1 then none else some (inboundOf p.1.1 d)) := by
    rintro ⟨⟨src, m⟩, id⟩ hp
    have hentry : b.nodes.entries[id]? = some (src, m) := by
      have := List.mem_zipIdx_iff_getElem?.mp hp
      simpa using this
    have hread : ∀ d : Edge, (b.snapshot ops ttl).baseInEdge ⟨id, d.etype, d.eflags, d.weight⟩
        = some (if speaksFor ops src then none else some (inboundOf src d)) := by
      intro d
      have hid : (b.snapshot ops ttl).nodeIdentity id = some (src, (m.toRec src).url) := by
        simp [Snapshot.nodeIdentity, snapshot, reader, hentry]
        rfl
      unfold Snapshot.baseInEdge
      rw [hid]
      simp only [Option.bind_eq_bind, Option.bind_some, overlay_snapshot]
      by_cases hsp : speaksFor ops src = true
      · have hsp' := hsp
        unfold speaksFor at hsp'
        rw [if_pos hsp', if_pos hsp]
      · have hsp' := hsp
        unfold speaksFor at hsp'
        rw [if_neg hsp', if_neg hsp]
        rfl
    rw [List.mapM_map]
    exact FaultLib.mapM_eq_some fun d _ => hread d
  refine ⟨_, FaultLib.mapM_flatMap hpiece, ?_⟩
  rw [List.filterMap_flatMap]
  have hzip : b.nodes.entries = b.nodes.entries.zipIdx.map Prod.fst := by simp
  conv_rhs => rw [hzip, List.flatMap_map]
  refine List.flatMap_congr ?_
  rintro ⟨⟨src, m⟩, id⟩ -
  simp only [fromNode]
  by_cases hsp : speaksFor ops src = true
  · simp [hsp]
  · simp [hsp, List.filterMap_map]

/-- Inbound edges: base nodes the overlay does not speak for, then the overlay. -/
theorem inEdges_snapshot (hb : b.Closed) (key : UrlKey) :
    (b.snapshot ops ttl).inEdges key = some (b.nodes.entries.flatMap (fromNode ops key) ++
      (OverlayView.build ops).entries.flatMap (fromPatch key)) := by
  have hoverlay : (b.snapshot ops ttl).overlayInEdges key
      = (OverlayView.build ops).entries.flatMap (fromPatch key) := rfl
  have hfind : (b.snapshot ops ttl).base.findNode key = some (b.idOf key) := rfl
  unfold Snapshot.inEdges
  rw [hfind, hoverlay]
  simp only [Option.bind_eq_bind, Option.bind_some]
  cases hid : b.idOf key with
  | none =>
    -- a key the base does not have is no destination of a base edge
    have hnone : b.nodes.entries.flatMap (fromNode ops key) = [] := by
      rw [List.flatMap_eq_nil_iff]
      rintro ⟨src, m⟩ hmem
      unfold fromNode
      split_ifs
      · rfl
      · rw [List.map_eq_nil_iff, List.filter_eq_nil_iff]
        intro e he
        have hsome := hb src m (SortedMap.mem_entries.mp hmem) e he
        simp only [decide_eq_true_eq]
        intro heq
        rw [heq, idOf_eq_none.mp hid] at hsome
        cases hsome
    rw [hnone]
    rfl
  | some id =>
    obtain ⟨m, -, hentry⟩ := entry_of_idOf hid
    obtain ⟨run, hrun, hfrom⟩ := @inbound_run b ops ttl key
    have hin : (b.snapshot ops ttl).base.inEdges id = some (b.inbound key) := by
      simp [snapshot, reader, hentry]
    simp only [hin, Option.bind_some, hrun, hfrom]

/-- How often an inbound edge of `key` is reported: as often as its source has
    it. -/
theorem count_inEdges (key : UrlKey) (x : InEdge) :
    (b.nodes.entries.flatMap (fromNode ops key) ++
        (OverlayView.build ops).entries.flatMap (fromPatch key)).count x
      = (((mergedEdges (b.nodes.get x.src) (foldKey x.src none ops)).filter
          fun d => d.dst = key).map (inboundOf x.src)).count x := by
  have hnode : ∀ e ∈ b.nodes.entries, ∀ y ∈ fromNode ops key e, y.src = e.1 := by
    intro e _ y hy
    unfold fromNode at hy
    split_ifs at hy
    · cases hy
    · obtain ⟨d, -, rfl⟩ := List.mem_map.mp hy
      rfl
  have hpatch : ∀ e ∈ (OverlayView.build ops).entries, ∀ y ∈ fromPatch key e, y.src = e.1 := by
    intro e _ y hy
    unfold fromPatch at hy
    split_ifs at hy
    · cases hy
    · obtain ⟨d, -, rfl⟩ := List.mem_map.mp hy
      rfl
  rw [List.count_append, SortedMap.count_flatMap b.nodes _ InEdge.src hnode,
    SortedMap.count_flatMap (OverlayView.build ops) _ InEdge.src hpatch, get_build]
  unfold fromNode fromPatch speaksFor mergedEdges
  -- per source the two reads make the same choice
  cases hp : foldKey x.src none ops with
  | none => cases b.nodes.get x.src <;> simp [hp]
  | some p =>
    by_cases hrem : p.removed = true
    · cases b.nodes.get x.src <;> simp [hp, hrem]
    · cases hedges : p.edges with
      | some es => cases b.nodes.get x.src <;> simp [hp, hrem, hedges]
      | none =>
        by_cases hsev : p.severed = true
        · cases b.nodes.get x.src <;> simp [hp, hrem, hedges, hsev]
        · cases b.nodes.get x.src <;> simp [hp, hrem, hedges, hsev]

end Base

/-! ## The transpose -/

/-- Ascending edges go to a key at most once. -/
theorem length_filter_dst {es : List Edge} (h : Ascending es) (d : UrlKey) :
    (es.filter fun e => e.dst = d).length ≤ 1 := by
  have hsorted : (es.filter fun e => e.dst = d).Pairwise fun a b => a.dst < b.dst := h.filter _
  cases hl : es.filter fun e => e.dst = d with
  | nil => simp
  | cons a l =>
    cases l with
    | nil => simp
    | cons c l =>
      rw [hl] at hsorted
      have ha : a.dst = d := by
        have : a ∈ es.filter fun e => e.dst = d := by rw [hl]; simp
        simpa using (List.mem_filter.mp this).2
      have hc : c.dst = d := by
        have : c ∈ es.filter fun e => e.dst = d := by rw [hl]; simp
        simpa using (List.mem_filter.mp this).2
      have hlt := (List.pairwise_cons.mp hsorted).1 c (by simp)
      rw [ha, hc] at hlt
      exact absurd hlt (lt_irrefl _)

/-- In every written store, what `in_edges` reports to `d` from `s` is what
    `neighbors` yields from `s` to `d`, and each edge at most once. -/
theorem in_edges_transpose (xxh3 : Bytes → UInt64)
    (rank : SortedMap UrlKey NodeModel → List UInt16) (ttl : TtlConfig) (b : Base) (ops : List Op)
    (h : Reach xxh3 rank b ops) (s d : UrlKey) :
    ∃ out ins, (b.snapshot ops ttl).neighbors s = some out ∧
      (b.snapshot ops ttl).inEdges d = some ins ∧
      ∀ etype flags weight,
        ins.count ⟨s, etype, flags, weight⟩ = out.countP (fun e =>
          e.dstKey = d ∧ e.etype = etype ∧ e.flags = flags ∧ e.weight = weight) ∧
        ins.count ⟨s, etype, flags, weight⟩ ≤ 1 := by
  have hw := h.written
  obtain ⟨out, hout, hturned⟩ := @Base.inbound_neighbors b ops ttl hw.closed s
  refine ⟨out, _, hout, Base.inEdges_snapshot hw.closed d, ?_⟩
  intro etype flags weight
  rw [Base.count_inEdges]
  -- both sides count in the list of the source's edges, turned around
  have hcount : out.countP (fun e =>
        e.dstKey = d ∧ e.etype = etype ∧ e.flags = flags ∧ e.weight = weight)
      = (out.map fun r => (r.dstKey, r.inbound s)).count (d, ⟨s, etype, flags, weight⟩) := by
    rw [List.count, List.countP_map]
    refine List.countP_congr ?_
    intro r _
    simp [EdgeRef.inbound]
  have hfilter : ∀ es : List Edge, (es.map fun e => (e.dst, inboundOf s e)).count
        (d, (⟨s, etype, flags, weight⟩ : InEdge))
      = ((es.filter fun e => e.dst = d).map (inboundOf s)).count ⟨s, etype, flags, weight⟩ := by
    intro es
    rw [List.count, List.countP_map, List.count, List.countP_map, List.countP_filter]
    refine List.countP_congr ?_
    intro e _
    simp [and_comm]
  refine ⟨by rw [hcount, hturned, hfilter], ?_⟩
  refine List.count_le_length.trans ?_
  rw [List.length_map]
  exact length_filter_dst (hw.edges_ascending s) d

/-- Two documents, the first linking to the second and to a page never fetched. -/
def twoLinked : List Op :=
  [.upsert ⟨1, 5, 7, 0, "a", none, none, none⟩, .upsert ⟨2, 5, 7, 0, "b", none, none, none⟩,
    .edges 1 [⟨2, 0, 1, 3⟩, ⟨4, 0, 1, 3⟩]]

/-- `twoLinked` compacted, then the second document linked to the same page and the
    first one's edges replaced. -/
theorem in_edges_transpose_replaced :
    ∃ nodes, (Base.snapshot ⟨SortedMap.empty, []⟩ twoLinked TtlConfig.default).compactNodes
        (fun _ => 0) = some nodes ∧
      ∃ ins, (Base.snapshot ⟨nodes, []⟩ [.edges 2 [⟨4, 0, 1, 3⟩], .edges 1 []]
          TtlConfig.default).inEdges 4 = some ins ∧
        ins.count ⟨1, .link, 1, 3⟩ ≤ 1 ∧ ins.map InEdge.src = [2] := by
  have hreach : Reach (fun _ => 0) (fun _ => []) ⟨SortedMap.empty, []⟩ twoLinked := by
    refine @Reach.commit _ _ _ [] twoLinked .create ?_
    simp [twoLinked, StagedOp, hasFlag, Ascending]
  obtain ⟨nodes, hnodes⟩ : ∃ nodes, (Base.snapshot ⟨SortedMap.empty, []⟩ twoLinked
      TtlConfig.default).compactNodes (fun _ => 0) = some nodes :=
    Option.isSome_iff_exists.mp (by decide +kernel)
  have hnext : Reach (fun _ => 0) (fun _ => []) ⟨nodes, []⟩
      [.edges 2 [⟨4, 0, 1, 3⟩], .edges 1 []] := by
    refine @Reach.commit _ _ _ [] _ (.compact hreach hnodes) ?_
    simp [StagedOp, Ascending]
  refine ⟨nodes, hnodes, ?_⟩
  obtain ⟨_, ins, -, hins, hcount⟩ :=
    in_edges_transpose (fun _ => 0) (fun _ => []) TtlConfig.default _ _ hnext 1 4
  refine ⟨ins, hins, (hcount .link 1 3).2, ?_⟩
  have hkeys : ((Base.snapshot ⟨SortedMap.empty, []⟩ twoLinked TtlConfig.default).compactNodes
      (fun _ => 0)).bind (fun nodes => ((Base.snapshot ⟨nodes, []⟩
        [.edges 2 [⟨4, 0, 1, 3⟩], .edges 1 []] TtlConfig.default).inEdges 4).map
          (List.map InEdge.src)) = some [2] := by decide +kernel
  rw [hnodes, Option.bind_some, hins] at hkeys
  simpa using hkeys

end GraphR
