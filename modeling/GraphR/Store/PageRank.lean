import GraphR.Store.RenderedFile

/-! # Page ranks

    Every compaction stores, whatever the numbers, the percentile of each node's page
    rank, and every reader of its bytes shows it with the node. What the rounds compute
    is seen over numbers that are not rounded: in every round the page ranks are a
    distribution. -/

namespace GraphR

open Wal ByteLib BaseFile PlaceLib

namespace Rank

/-! ## Without rounding -/

theorem sum_modify {xs : List ℚ} {i : Nat} (hi : i < xs.length) (share : ℚ) :
    (xs.modify i fun v => v + share).sum = xs.sum + share := by
  induction xs generalizing i with
  | nil => cases hi
  | cons x xs ih =>
    cases i with
    | zero =>
      simp only [List.modify_zero_cons, List.sum_cons]
      ring
    | succ i =>
      simp only [List.modify_succ_cons, List.sum_cons, ih (Nat.lt_of_succ_lt_succ hi)]
      ring

theorem nonneg_modify {xs : List ℚ} (h : ∀ v ∈ xs, 0 ≤ v) (i : Nat) {share : ℚ} (hshare : 0 ≤ share) :
    ∀ v ∈ xs.modify i fun v => v + share, 0 ≤ v := by
  intro v hv
  obtain ⟨j, hj, rfl⟩ := List.getElem_of_mem hv
  rw [List.getElem_modify]
  rw [List.length_modify] at hj
  have hx := h xs[j] (List.getElem_mem hj)
  split_ifs
  · exact add_nonneg hx hshare
  · exact hx

theorem sum_map_affine (t d s : ℚ) (xs : List ℚ) :
    (xs.map fun v => t + d * (v + s)).sum = xs.length * t + d * (xs.sum + xs.length * s) := by
  induction xs with
  | nil => simp
  | cons x xs ih =>
    rw [List.map_cons, List.sum_cons, List.sum_cons, ih, List.length_cons]
    push_cast
    ring

/-- So far `total` has been handed on, none of it negative. -/
structure Flows (n : Nat) (total : ℚ) (r : Round ℚ) : Prop where
  length : r.next.length = n
  next : ∀ v ∈ r.next, 0 ≤ v
  dangling : 0 ≤ r.dangling
  sum : r.next.sum + r.dangling = total

/-- As many ranks as nodes, none negative, of sum 1. -/
structure Distribution (n : Nat) (rank : List ℚ) : Prop where
  length : rank.length = n
  nonneg : ∀ v ∈ rank, 0 ≤ v
  sum : rank.sum = 1

section exact
variable {n : Nat} {total : ℚ} {r : Round ℚ} {rank : List ℚ}

theorem Flows.gives {share : ℚ} (hshare : 0 ≤ share) {es : List BaseEdge} (hes : ∀ e ∈ es, e.node < n)
    (h : Flows n total r) : Flows n (total + linkOut es * share)
      { r with next := es.foldl (give F64.exact share) r.next } := by
  -- over the edges: a link adds one share to what is handed on, any other edge nothing
  induction es generalizing total r with
  | nil => simpa [linkOut] using h
  | cons e es ih =>
    have hrest : ∀ e ∈ es, e.node < n := fun e' he' => hes e' (List.mem_cons_of_mem _ he')
    rw [List.foldl_cons]
    by_cases hlink : e.etype = 0
    · have hone : Flows n (total + share) { r with next := give F64.exact share r.next e } := by
        have hnode : e.node < r.next.length := h.length ▸ hes e List.mem_cons_self
        rw [give, if_pos hlink]
        refine ⟨?_, nonneg_modify h.next e.node hshare, h.dangling, ?_⟩
        · rw [List.length_modify]
          exact h.length
        · rw [← h.sum]
          have hsum : (r.next.modify e.node fun v => F64.exact.add v share).sum = r.next.sum + share :=
            sum_modify hnode share
          simp only [hsum]
          ring
      have hcount : linkOut (e :: es) = linkOut es + 1 := by simp [linkOut, hlink]
      have hall := ih hrest hone
      rw [hcount]
      convert hall using 1
      push_cast
      ring
    · have hsame : give F64.exact share r.next e = r.next := if_neg hlink
      have hcount : linkOut (e :: es) = linkOut es := by simp [linkOut, hlink]
      rw [hsame, hcount]
      exact ih hrest h

/-- A node hands on all it has. -/
theorem Flows.handOn {es : List BaseEdge} {u : Nat} (hes : ∀ e ∈ es, e.node < n)
    (hrank : 0 ≤ rankAt F64.exact rank u) (h : Flows n total r) :
    Flows n (total + rankAt F64.exact rank u) (handOn F64.exact rank r (es, u)) := by
  unfold Rank.handOn
  by_cases hout : linkOut es = 0
  · -- a rank without links dangles
    rw [if_pos hout]
    refine ⟨h.length, h.next, add_nonneg h.dangling hrank, ?_⟩
    rw [← h.sum]
    exact (add_assoc _ _ _).symm
  · -- as many shares as links make up the rank
    rw [if_neg hout]
    have hpos : (linkOut es : ℚ) ≠ 0 := Nat.cast_ne_zero.mpr hout
    have hshare : 0 ≤ rankAt F64.exact rank u / linkOut es :=
      div_nonneg hrank (Nat.cast_nonneg _)
    have hgives := h.gives hshare hes
    rw [mul_div_cancel₀ _ hpos] at hgives
    exact hgives

theorem Flows.foldl (hrank : ∀ u, 0 ≤ rankAt F64.exact rank u) {rows : List (List BaseEdge)}
    (hrows : ∀ es ∈ rows, ∀ e ∈ es, e.node < n) (k : Nat) (h : Flows n total r) :
    Flows n (total + ((List.range' k rows.length).map (rankAt F64.exact rank)).sum)
      ((rows.zipIdx k).foldl (Rank.handOn F64.exact rank) r) := by
  induction rows generalizing k total r with
  | nil => simpa using h
  | cons es rows ih =>
    have hone := h.handOn (hrows es List.mem_cons_self) (hrank k)
    have hall := ih (fun es' hes' => hrows es' (List.mem_cons_of_mem _ hes')) (k + 1) hone
    rw [List.zipIdx_cons, List.foldl_cons, List.length_cons, List.range'_succ, List.map_cons,
      List.sum_cons, ← add_assoc]
    exact hall

/-- Once a whole of 1 is handed on, what the nodes end a round with is a distribution, since
    everyone gets the same from the dangling ranks and from the teleport. -/
theorem Flows.damped (hn : 0 < n) (h : Flows n 1 r) :
    Distribution n (r.next.map fun v => (1 - damping) / n + damping * (v + r.dangling / n)) ∧
      ∀ v ∈ r.next.map fun v => (1 - damping) / n + damping * (v + r.dangling / n),
        (1 - damping) / n ≤ v := by
  have hpos : (0 : ℚ) < n := Nat.cast_pos.mpr hn
  have hdamp : (0 : ℚ) ≤ damping := by norm_num [damping]
  have hbase : (0 : ℚ) ≤ (1 - damping) / n := div_nonneg (by norm_num [damping]) hpos.le
  have hleast : ∀ v ∈ r.next.map fun v => (1 - damping) / n + damping * (v + r.dangling / n),
      (1 - damping) / n ≤ v := by
    intro v hv
    obtain ⟨x, hx, rfl⟩ := List.mem_map.mp hv
    have hshare := add_nonneg (h.next x hx) (div_nonneg h.dangling hpos.le)
    exact le_add_of_nonneg_right (mul_nonneg hdamp hshare)
  have hsum := sum_map_affine ((1 - damping) / n) damping (r.dangling / n) r.next
  -- `n` times an `n`-th: the teleport gives 1 - damping in all, the rest is damped
  rw [h.length, mul_div_cancel₀ _ hpos.ne', mul_div_cancel₀ _ hpos.ne', h.sum] at hsum
  refine ⟨⟨?_, fun v hv => hbase.trans (hleast v hv), ?_⟩, hleast⟩
  · rw [List.length_map]
    exact h.length
  · refine hsum.trans ?_
    ring

theorem rankAt_nonneg (h : ∀ v ∈ rank, 0 ≤ v) (u : Nat) : 0 ≤ rankAt F64.exact rank u := by
  rcases Nat.lt_or_ge u rank.length with hu | hu
  · exact h _ (rankAt_mem rfl hu)
  · rw [rankAt, List.getD_eq_getElem?_getD, List.getElem?_eq_none hu]
    exact le_rfl

theorem map_rankAt (rank : List ℚ) :
    (List.range' 0 rank.length).map (rankAt F64.exact rank) = rank := by
  apply List.ext_getElem
  · simp
  · intro i hi hi'
    simp [rankAt, hi']

variable (hn : 0 < n) {outEdges : List (List BaseEdge)} (hlen : outEdges.length = n)
  (hes : ∀ es ∈ outEdges, ∀ e ∈ es, e.node < n)
include hn hlen hes

/-- A round keeps the ranks a distribution, and leaves each at least what everyone gets. -/
theorem Distribution.iteration (h : Distribution n rank) :
    Distribution n (iteration F64.exact n outEdges rank) ∧
      ∀ v ∈ iteration F64.exact n outEdges rank, (1 - damping) / n ≤ v := by
  have hstart : Flows n 0 ⟨List.replicate n (F64.exact.lit 0), F64.exact.lit 0⟩ :=
    ⟨List.length_replicate, fun v hv => (List.eq_of_mem_replicate hv).ge, le_rfl, by simp [F64.exact]⟩
  have hflows := hstart.foldl (rankAt_nonneg h.nonneg) hes 0
  -- every node has its turn, so all ranks are handed on
  rw [hlen, ← h.length, map_rankAt, h.sum, h.length, zero_add] at hflows
  exact hflows.damped hn

/-- Twenty rounds from even ranks. -/
theorem pagerank_distribution : Distribution n (pagerank F64.exact n outEdges) ∧
    ∀ v ∈ pagerank F64.exact n outEdges, (1 - damping) / n ≤ v := by
  have hpos : (n : ℚ) ≠ 0 := Nat.cast_ne_zero.mpr hn.ne'
  have heven : Distribution n (List.replicate n ((1 : ℚ) / n)) := by
    refine ⟨List.length_replicate, ?_, ?_⟩
    · intro v hv
      rw [List.eq_of_mem_replicate hv]
      positivity
    · rw [List.sum_replicate, nsmul_eq_mul, mul_one_div_cancel hpos]
  have hrounds : ∀ k, Distribution n
      ((Rank.iteration F64.exact n outEdges)^[k] (List.replicate n ((1 : ℚ) / n))) := by
    intro k
    induction k with
    | zero => exact heven
    | succ k ih =>
      rw [Function.iterate_succ_apply']
      exact (ih.iteration hn hlen hes).1
  have hlast := (hrounds 19).iteration hn hlen hes
  rw [← Function.iterate_succ_apply' (Rank.iteration F64.exact n outEdges)] at hlast
  exact hlast

end exact

end Rank

open Rank

/-! ## What compaction stores -/

theorem rankPermille_mergedRef {ttl : TtlConfig} {k : UrlKey} {id : Option Nat} {rank : UInt16}
    {m : Option NodeModel} {p : Option OverlayNode} {n : NodeRef}
    (h : mergedRef ttl k id rank m p = some n) : n.rankPermille = rank := by
  obtain ⟨-, ⟨q, c, -, -, rfl⟩ | ⟨-, r, -, rfl⟩⟩ := mergedRef_cases h
  · rfl
  · rfl

section compaction
variable {F : Type} (A : F64 F) (value : F → ℚ) (xxh3 : Bytes → UInt64) (u : Unicode)
  {b : Base} {ops : List Op} (h : Reach xxh3 (ofNodes A) b ops) {ttl : TtlConfig}
  {nodes : SortedMap UrlKey NodeModel}
  (hnodes : (b.snapshot ops ttl).compactNodes xxh3 = some nodes)
  (hroom : Base.Room xxh3 u ⟨nodes, ofNodes A nodes⟩)
  (hcmp : ∀ rows, Base.edgeRows ⟨nodes, []⟩ = some rows →
    Comparable A value (pagerank A nodes.entries.length rows))
  (generation walAppliedSeq : UInt64)
include h hnodes hroom hcmp

/-- Importance as compaction stores it and readers show it. For every written store whose
    compaction has room in the fields of the format, and where no page rank is NaN: the
    edges it collects resolve to rows, the bytes it writes hold for each node the
    percentile of its place among the page ranks of these rows, or nothing where it has
    fewer than two edges, and every snapshot over them, whatever is committed on top,
    shows a node with what they hold for it. -/
theorem compaction_ranks : ∃ rows bytes d, Base.edgeRows ⟨nodes, []⟩ = some rows ∧
    Base.render xxh3 u ⟨nodes, ofNodes A nodes⟩ generation walAppliedSeq = some bytes ∧
    BaseDir.parse xxh3 bytes = .ok d ∧
    ∀ i < nodes.entries.length,
      BaseFile.rankPermille (d.sec bytes) i
        = some (if degree nodes.entries.length rows i < 2 then 0
          else permilleOf nodes.entries.length (placeOf A value nodes.entries.length
            (pagerank A nodes.entries.length rows) i)) ∧
      ∀ (k : UrlKey) (m : NodeModel) (new : List Op) (ttl' : TtlConfig) (n : NodeRef),
        nodes.entries[i]? = some (k, m) →
        Snapshot.node ⟨BaseFile.reader (d.sec bytes) d.header, new, ttl'⟩ k = some (some n) →
        BaseFile.rankPermille (d.sec bytes) i = some n.rankPermille := by
  have hfits := h.fits xxh3 (ofNodes A) (length_ofNodes A) u hnodes hroom
  obtain ⟨bytes, d, hrender, -, hparse, -, hagrees, -⟩ :=
    Base.parse_render hfits generation walAppliedSeq
  obtain ⟨rows, hrows, hlen, hresolved⟩ := Base.edgeRows_spec hfits.closed hfits.sorted
  have hin := Base.node_lt_of_row hlen hresolved
  obtain ⟨permille, hcompute, hget⟩ :=
    getElem?_compute A value hlen hin hroom.nodes (hcmp rows hrows)
  have hranks : ofNodes A nodes = permille := by
    have hbind : (Base.edgeRows ⟨nodes, []⟩).bind (compute A nodes.entries.length)
        = some permille := Option.bind_eq_some_iff.mpr ⟨rows, hrows, hcompute⟩
    rw [ofNodes, hbind, Option.getD_some]
  have hstored : ∀ i, BaseFile.rankPermille (d.sec bytes) i
      = some ((ofNodes A nodes).getD i 0) := congrFun hagrees.rankPermille
  refine ⟨rows, bytes, d, hrows, hrender, hparse, fun i hi => ⟨?_, ?_⟩⟩
  · rw [hstored, hranks, List.getD_eq_getElem?_getD, hget i hi, Option.getD_some]
  · intro k m new ttl' n hentry hn
    -- the bytes read as the collected nodes do, and those show the rank stored for the id
    rw [(hagrees.same new ttl' xxh3).node k] at hn
    have hmerged := Option.some.inj
      ((Base.node_snapshot ⟨nodes, ofNodes A nodes⟩ new ttl' k).symm.trans hn)
    have hid : Base.idOf ⟨nodes, ofNodes A nodes⟩ k = some i := by
      have hkey : (nodes.entries[i]).1 = k := by
        rw [(List.getElem?_eq_some_iff.mp hentry).2]
      rw [← hkey]
      exact Base.idOf_getElem hi
    rw [hstored, rankPermille_mergedRef hmerged, Base.rankOf, hid, Option.elim_some]

end compaction

/-- Two documents link to a third, which links back to the first. -/
def threeDocs : List Op :=
  [.upsert ⟨1, 5, 7, 0, "a", none, none, none⟩, .upsert ⟨2, 5, 7, 0, "b", none, none, none⟩,
    .upsert ⟨3, 5, 7, 0, "c", none, none, none⟩, .edges 1 [⟨3, 0, 0, 1⟩], .edges 2 [⟨3, 0, 0, 1⟩],
    .edges 3 [⟨1, 0, 0, 1⟩]]

/-- They are compacted with room, and their edges are those of `threePages`. -/
def threeCheck (nodes : SortedMap UrlKey NodeModel) : Bool :=
  decide (Base.Room packHash .ascii ⟨nodes, exactRanks nodes⟩) &&
  decide (nodes.entries.length = 3) && decide (Base.edgeRows ⟨nodes, []⟩ = some threePages)

theorem compaction_ranks_threeDocs : ∃ nodes bytes d,
    (Base.snapshot ⟨SortedMap.empty, []⟩ threeDocs TtlConfig.default).compactNodes packHash
      = some nodes ∧ BaseDir.parse packHash bytes = .ok d ∧
    (List.range 3).map (BaseFile.rankPermille (d.sec bytes)) = [some 500, some 0, some 1000] := by
  obtain ⟨nodes, hnodes, hcheck⟩ : ∃ nodes,
      (Base.snapshot ⟨SortedMap.empty, []⟩ threeDocs TtlConfig.default).compactNodes packHash
        = some nodes ∧ threeCheck nodes = true :=
    (Option.any_eq_true _ _).mp (by decide +kernel)
  simp only [threeCheck, Bool.and_eq_true, decide_eq_true_eq] at hcheck
  obtain ⟨⟨hroom, hlen⟩, hrows⟩ := hcheck
  have hreach : Reach packHash exactRanks ⟨SortedMap.empty, []⟩ ([] ++ threeDocs) :=
    .commit .create (by simp [threeDocs, StagedOp, hasFlag, Ascending])
  obtain ⟨rows, bytes, d, hrows', -, hparse, hstored⟩ := compaction_ranks F64.exact id packHash
    .ascii hreach hnodes hroom (fun _ _ => comparable_exact _) 2 5
  rw [hrows, Option.some.injEq] at hrows'
  subst hrows'
  rw [hlen] at hstored
  refine ⟨nodes, bytes, d, hnodes, hparse, ?_⟩
  rw [show List.range 3 = [0, 1, 2] from rfl, List.map_cons, List.map_cons, List.map_cons,
    (hstored 0 (by decide)).1, (hstored 1 (by decide)).1, (hstored 2 (by decide)).1, List.map_nil]
  decide +kernel

end GraphR
