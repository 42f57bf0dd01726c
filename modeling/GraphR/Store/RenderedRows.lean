import GraphR.Store.Rendered
import GraphR.Store.SearchReads

/-! # Rendered runs read back

    Edges, inbound edges and attributes are rows of records under an index. A run
    read back is the row that was written; the rows of edges are the resolved ones,
    and turning them around gives each node its inbound edges. -/

namespace GraphR

open Wal ByteLib TableLib BaseFile

namespace BaseFile

/-! ## Runs -/

section runs
variable {α : Type} {w : Nat} {rows : List (List Bytes)}

theorem slice_flatten {xs : List Bytes} (hw : ∀ x ∈ xs, x.length = w) {i : Nat}
    (hi : i < xs.length) : slice xs.flatten w i = some xs[i] := by
  have h := range_flatten hw hi []
  rw [List.append_nil] at h
  unfold slice
  rw [if_pos, recordAt, h]
  rw [length_flatten_const hw]
  exact Nat.mul_le_mul_right w hi

/-- Record `j` of row `i`. -/
theorem slice_rows (hw : ∀ row ∈ rows, ∀ r ∈ row, r.length = w) {i j : Nat} (hi : i < rows.length)
    (hj : j < rows[i].length) :
    slice (Csr.ofRows rows).recs w (startOf rows i + j) = some rows[i][j] := by
  obtain ⟨hlt, hget⟩ := List.getElem?_eq_some_iff.mp (getElem?_startOf hi hj)
  rw [Csr.recs_ofRows, slice_flatten ?_ hlt, hget]
  intro x hx
  obtain ⟨row, hrow, hx⟩ := List.mem_flatten.mp hx
  exact hw row hrow x hx

theorem close_ne_nil (rows : List (List Bytes)) : (Csr.ofRows rows).close.isEmpty = false := by
  have h := Csr.length_close rows
  cases hc : (Csr.ofRows rows).close with
  | nil =>
    rw [hc, List.length_nil] at h
    omega
  | cons b bs => rfl

/-- A run read back is the row written. -/
theorem runOf_ofRows (hw : ∀ row ∈ rows, ∀ r ∈ row, r.length = w)
    (htotal : rows.flatten.length < 2 ^ 32) (read : Bytes → Option α) {i : Nat}
    (hi : i < rows.length) :
    runOf (Csr.ofRows rows).close (Csr.ofRows rows).recs w read i = rows[i].mapM read := by
  have hlen := Csr.length_close rows
  have hsmall : ∀ k, (UInt32.ofNat (startOf rows k)).toNat = startOf rows k := by
    intro k
    rw [UInt32.toNat_ofNat']
    exact Nat.mod_eq_of_lt (lt_of_le_of_lt (startOf_le rows k) htotal)
  unfold runOf
  rw [close_ne_nil, getU32_of_inBounds (by omega), getU32_of_inBounds (by omega),
    Csr.u32At_close (Nat.le_of_lt hi), Csr.u32At_close hi]
  simp only [Option.bind_eq_bind, Option.bind_some, hsmall, Bool.false_eq_true, if_false]
  rw [startOf_succ hi, Nat.add_sub_cancel_left, List.range'_eq_map_range, List.mapM_map]
  -- record by record
  have hrow : (List.range rows[i].length).mapM
      (fun j => slice (Csr.ofRows rows).recs w (startOf rows i + j)) = some rows[i] :=
    FaultLib.mapM_range_eq_some rows[i] _ fun j hj => slice_rows hw hi hj
  have hcomp := FaultLib.mapM_bind_mapM (List.range rows[i].length)
    (fun j => slice (Csr.ofRows rows).recs w (startOf rows i + j)) read
  rw [hrow, Option.bind_some] at hcomp
  rw [hcomp]
  rfl

end runs

/-! ## Edges -/

@[simp] theorem length_writeEdge (e : BaseEdge) : (writeEdge e).length = edgeLen := by
  simp [writeEdge, edgeLen]

theorem edgeRec_writeEdge {e : BaseEdge} (he : e.node < 2 ^ 32) : edgeRec (writeEdge e) = some e := by
  have hnode : (UInt32.ofNat e.node).toNat = e.node := by
    rw [UInt32.toNat_ofNat']
    exact Nat.mod_eq_of_lt he
  have hweight : u16At (writeEdge e) 6 = e.weight := by
    rw [writeEdge, u16At_append_right (by simp), length_putU32, u16At_append_right (by simp)]
    exact u16At_putU16 _
  have htype : byteAt (writeEdge e) 4 = e.etype := by
    rw [writeEdge, byteAt_append_right (by simp), length_putU32]
    rfl
  have hflags : byteAt (writeEdge e) 5 = e.eflags := by
    rw [writeEdge, byteAt_append_right (by simp), length_putU32]
    rfl
  unfold edgeRec
  rw [hweight, htype, hflags, writeEdge, u32At_putU32_append, hnode]

theorem mapM_edgeRec {row : List BaseEdge} (h : ∀ e ∈ row, e.node < 2 ^ 32) :
    (row.map writeEdge).mapM edgeRec = some row := by
  rw [List.mapM_map]
  have hmap := FaultLib.mapM_eq_some (g := id) fun e he => edgeRec_writeEdge (h e he)
  rwa [List.map_id] at hmap

/-- Rows of edges read back. -/
theorem runOf_edges {rows : List (List BaseEdge)} (hnodes : ∀ row ∈ rows, ∀ e ∈ row, e.node < 2 ^ 32)
    (htotal : rows.flatten.length < 2 ^ 32) {i : Nat} (hi : i < rows.length) :
    runOf (Csr.ofRows (rows.map fun r => r.map writeEdge)).close
      (Csr.ofRows (rows.map fun r => r.map writeEdge)).recs edgeLen edgeRec i = some rows[i] := by
  have hflat : (rows.map fun r => r.map writeEdge).flatten = rows.flatten.map writeEdge := by
    rw [List.map_flatten]
  rw [runOf_ofRows ?_ (by rwa [hflat, List.length_map]) _ (by simpa using hi), List.getElem_map,
    mapM_edgeRec (hnodes _ (List.getElem_mem hi))]
  intro row hrow r hr
  obtain ⟨row', -, rfl⟩ := List.mem_map.mp hrow
  obtain ⟨e, -, rfl⟩ := List.mem_map.mp hr
  exact length_writeEdge e

end BaseFile

/-! ## Resolved rows -/

namespace Base

variable {b : Base}

theorem getElem_of_idOf {k : UrlKey} {i : Nat} (h : b.idOf k = some i) :
    ∃ hi : i < b.nodes.entries.length, b.nodes.entries[i].1 = k := by
  obtain ⟨m, -, hentry⟩ := entry_of_idOf h
  obtain ⟨hi, heq⟩ := List.getElem?_eq_some_iff.mp hentry
  exact ⟨hi, congrArg Prod.fst heq⟩

/-- Ids are in key order. -/
theorem idOf_lt {k k' : UrlKey} {i i' : Nat} (h : b.idOf k = some i) (h' : b.idOf k' = some i')
    (hlt : k < k') : i < i' := by
  obtain ⟨hi, hk⟩ := getElem_of_idOf h
  obtain ⟨hi', hk'⟩ := getElem_of_idOf h'
  by_contra hge
  rcases Nat.lt_or_eq_of_le (Nat.le_of_not_lt hge) with hgt | rfl
  · have hsorted := List.pairwise_iff_getElem.mp b.nodes.sorted i' i hi' hi hgt
    rw [hk, hk'] at hsorted
    exact absurd hlt (not_lt_of_gt hsorted)
  · rw [hk] at hk'
    exact absurd hlt (hk' ▸ lt_irrefl k)

/-- The id of the node at a place. -/
theorem idOf_getElem {i : Nat} (hi : i < b.nodes.entries.length) :
    b.idOf b.nodes.entries[i].1 = some i := by
  have hget : b.nodes.get b.nodes.entries[i].1 = some b.nodes.entries[i].2 :=
    SortedMap.mem_entries.mp (List.getElem_mem hi)
  obtain ⟨j, hj, -⟩ := idOf_of_get hget
  obtain ⟨hlt, hk⟩ := getElem_of_idOf hj
  rcases Nat.lt_trichotomy i j with h | rfl | h
  · have hsorted := List.pairwise_iff_getElem.mp b.nodes.sorted i j hi hlt h
    exact absurd hk (ne_of_gt hsorted)
  · exact hj
  · have hsorted := List.pairwise_iff_getElem.mp b.nodes.sorted j i hlt hi h
    exact absurd hk (ne_of_lt hsorted)

/-- Each node's edges ascend by destination, one for each. -/
def EdgesSorted (b : Base) : Prop :=
  ∀ k m, b.nodes.get k = some m → m.edges.Pairwise fun x y => x.dst < y.dst

/-- The rows: each node's edges, resolved. -/
theorem edgeRows_spec (hb : b.Closed) (hs : b.EdgesSorted) :
    ∃ rows, b.edgeRows = some rows ∧ rows.length = b.nodes.entries.length ∧
      ∀ i (hi : i < b.nodes.entries.length) (hi' : i < rows.length),
        b.nodes.entries[i].2.edges.mapM b.resolve = some rows[i] := by
  have hrow : ∀ e ∈ b.nodes.entries, ∃ row, e.2.edges.mapM b.resolve = some row ∧
      (row.insertionSort fun x y => x.node ≤ y.node) = row := by
    intro e he
    have hget : b.nodes.get e.1 = some e.2 := SortedMap.mem_entries.mp he
    have hsome : (e.2.edges.mapM b.resolve).isSome := by
      apply FaultLib.mapM_isSome
      intro d hd
      obtain ⟨md, hmd⟩ := Option.isSome_iff_exists.mp (hb e.1 e.2 hget d hd)
      obtain ⟨j, hj, -⟩ := idOf_of_get hmd
      simp [resolve, hj]
    obtain ⟨row, hrow⟩ := Option.isSome_iff_exists.mp hsome
    refine ⟨row, hrow, ?_⟩
    -- the ids ascend as the keys do, so sorting changes nothing
    have hasc : row.Pairwise fun x y => x.node ≤ y.node := by
      refine FaultLib.pairwise_of_mapM hrow ?_ (hs e.1 e.2 hget)
      intro d d' x x' hdd' hx hx'
      obtain ⟨j, hj, rfl⟩ := Option.map_eq_some_iff.mp hx
      obtain ⟨j', hj', rfl⟩ := Option.map_eq_some_iff.mp hx'
      exact Nat.le_of_lt (idOf_lt hj hj' hdd')
    exact List.Pairwise.insertionSort_eq hasc
  -- so rendering resolves the rows and leaves them in order
  have hsame : b.edgeRows
      = b.nodes.entries.mapM fun e : UrlKey × NodeModel => e.2.edges.mapM b.resolve := by
    unfold edgeRows
    apply FaultLib.mapM_congr
    intro e he
    obtain ⟨row, hmap, hsort⟩ := hrow e he
    rw [hmap, Option.bind_eq_bind, Option.bind_some, hsort]
  have hall : (b.nodes.entries.mapM fun e : UrlKey × NodeModel =>
      e.2.edges.mapM b.resolve).isSome := by
    apply FaultLib.mapM_isSome
    intro e he
    obtain ⟨row, hmap, -⟩ := hrow e he
    rw [hmap]
    rfl
  obtain ⟨rows, hrows⟩ := Option.isSome_iff_exists.mp hall
  exact ⟨rows, hsame.trans hrows, FaultLib.length_of_mapM hrows,
    fun i hi hi' => FaultLib.getElem_of_mapM hrows hi hi'⟩

/-- Rows over the same places, seen through functions that agree there. -/
theorem zipIdx_flatMap_congr {α β γ : Type} {xs : List α} {ys : List β} {f : α × Nat → List γ}
    {g : β × Nat → List γ} (hlen : xs.length = ys.length)
    (h : ∀ i (hi : i < xs.length) (hi' : i < ys.length), f (xs[i], i) = g (ys[i], i)) :
    xs.zipIdx.flatMap f = ys.zipIdx.flatMap g := by
  have hmap : xs.zipIdx.map f = ys.zipIdx.map g := by
    apply List.ext_getElem
    · simpa using hlen
    · intro i hi hi'
      simp only [List.length_map, List.length_zipIdx] at hi hi'
      simpa using h i hi hi'
  rw [List.flatMap_def, List.flatMap_def, hmap]

/-- What node `src` sends to one place: its edges to the key that stands there. -/
theorem filter_row {edges : List Edge} {row : List BaseEdge} (hrow : edges.mapM b.resolve = some row)
    {i : Nat} (hi : i < b.nodes.entries.length) (src : Nat) :
    (((row.map fun e => (e.node, { e with node := src })).filter fun e => e.1 = i).map Prod.snd)
      = (edges.filter fun d => d.dst = b.nodes.entries[i].1).map fun d =>
          ⟨src, d.etype, d.eflags, d.weight⟩ := by
  induction edges generalizing row with
  | nil =>
    cases hrow
    rfl
  | cons d edges ih =>
    rw [List.mapM_cons] at hrow
    obtain ⟨e, he, hrow⟩ := Option.bind_eq_some_iff.mp hrow
    obtain ⟨rest, hrest, hrow⟩ := Option.bind_eq_some_iff.mp hrow
    cases hrow
    obtain ⟨j, hj, rfl⟩ := Option.map_eq_some_iff.mp he
    -- an id stands for the key at its place
    have hiff : j = i ↔ d.dst = b.nodes.entries[i].1 := by
      obtain ⟨hlt, hk⟩ := getElem_of_idOf hj
      constructor
      · rintro rfl
        exact hk.symm
      · intro hdst
        rw [hdst, idOf_getElem hi] at hj
        exact (Option.some.inj hj).symm
    by_cases hji : j = i
    · simp [hji, hiff.mp hji, ih hrest]
    · simp [hji, mt hiff.mpr hji, ih hrest]

section rows
variable {rows : List (List BaseEdge)} (hlen : rows.length = b.nodes.entries.length)
  (hrows : ∀ i (hi : i < b.nodes.entries.length) (hi' : i < rows.length),
    b.nodes.entries[i].2.edges.mapM b.resolve = some rows[i])
include hlen hrows

theorem node_lt_of_row : ∀ row ∈ rows, ∀ e ∈ row, e.node < b.nodes.entries.length := by
  intro row hrow e he
  obtain ⟨i, hi, rfl⟩ := List.getElem_of_mem hrow
  obtain ⟨d, -, hd⟩ := (FaultLib.mem_of_mapM (hrows i (hlen ▸ hi) hi)).mp he
  obtain ⟨j, hj, rfl⟩ := Option.map_eq_some_iff.mp hd
  exact (getElem_of_idOf hj).1

/-- The rows turned around give each node its inbound edges. -/
theorem getElem_inboundRows {i : Nat} (hi : i < b.nodes.entries.length) :
    (inboundRows b.nodes.entries.length rows)[i]? = some (b.inbound b.nodes.entries[i].1) := by
  rw [inboundRows, getElem?_scatter _ _ hi, List.filter_flatMap, List.map_flatMap]
  congr 1
  exact zipIdx_flatMap_congr hlen fun src hsrc hsrc' => filter_row (hrows src hsrc' hsrc) hi src

/-- The edges before a node's run. -/
theorem startOf_rows (id : Nat) : startOf rows id = b.edgesBefore id := by
  have htake : (rows.take id).map List.length
      = (b.nodes.entries.take id).map fun e => e.2.edges.length := by
    apply List.ext_getElem
    · simp [hlen]
    · intro i hi hi'
      simp only [List.length_map, List.length_take] at hi hi'
      simp only [List.getElem_map, List.getElem_take]
      exact FaultLib.length_of_mapM (hrows i (by omega) (by omega))
  rw [startOf, List.length_flatten, htake]
  rfl

end rows

end Base

namespace BaseFile

theorem getElem_inDegrees (n : Nat) (es : List BaseEdge) {i : Nat} (hi : i < n) :
    (es.foldl (fun d e => d.modify e.node (· + 1)) (List.replicate n (0 : UInt32)))[i]?
      = some (UInt32.ofNat (es.filter fun e => e.node = i).length) := by
  induction es using List.reverseRecOn with
  | nil => simp [hi]
  | append_singleton es e ih =>
    rw [List.foldl_append, List.foldl_cons, List.foldl_nil, List.getElem?_modify, ih,
      List.filter_append, List.length_append]
    by_cases he : e.node = i
    · simp [he, UInt32.ofNat_add]
    · simp [he]

theorem length_inDegrees (n : Nat) (rows : List (List BaseEdge)) :
    (inDegrees n rows).length = n := by
  unfold inDegrees
  induction rows.flatten using List.reverseRecOn with
  | nil => simp
  | append_singleton es e ih => rw [List.foldl_append]; simpa using ih

theorem length_inboundRows (n : Nat) (rows : List (List BaseEdge)) :
    (inboundRows n rows).length = n := length_scatter _ _

/-- A node's in-degree counts its inbound edges. -/
theorem inDegree_eq (n : Nat) (rows : List (List BaseEdge)) {i : Nat} (hi : i < n) :
    (inDegrees n rows)[i]? = ((inboundRows n rows)[i]?).map fun r => UInt32.ofNat r.length := by
  -- `src` numbers the first row, and does not change what is counted
  have hcount : ∀ (src : Nat) (rows : List (List BaseEdge)),
      (rows.flatten.filter fun e => e.node = i).length
        = (((rows.zipIdx src).flatMap fun r => r.1.map fun e =>
            (e.node, { e with node := r.2 })).filter fun e => e.1 = i).length := by
    intro src rows
    induction rows generalizing src with
    | nil => rfl
    | cons row rows ih =>
      rw [List.flatten_cons, List.filter_append, List.length_append, List.zipIdx_cons,
        List.flatMap_cons, List.filter_append, List.length_append, ih (src + 1), List.filter_map,
        List.length_map]
      rfl
  rw [inDegrees, getElem_inDegrees n rows.flatten hi, inboundRows, getElem?_scatter _ _ hi,
    Option.map_some, List.length_map, hcount 0]

/-! ## Attributes -/

theorem attrRec_extends {blobs blobs' r : Bytes} {a : UInt8 × String} (h : blobs <+: blobs')
    (ha : attrRec blobs r = some a) : attrRec blobs' r = some a := by
  unfold attrRec at ha ⊢
  simp only [Option.bind_eq_bind, Option.bind_eq_some_iff] at ha ⊢
  obtain ⟨v, hv, heq⟩ := ha
  exact ⟨v, text_extends h hv, heq⟩

@[simp] theorem length_writeAttr (k : UInt8) (off len : UInt32) :
    (writeAttr k off len).length = attrLen := by
  simp [writeAttr, attrLen]

/-- An attribute just written. -/
theorem attrRec_writeAttr {blobs : Bytes} {a : UInt8 × String}
    (hfit : (blobs ++ strBytes a.2).length < 2 ^ 32) :
    attrRec (blobs ++ strBytes a.2)
      (writeAttr a.1 (UInt32.ofNat blobs.length) (UInt32.ofNat (strLen a.2))) = some a := by
  rw [List.length_append] at hfit
  have hoff : (UInt32.ofNat blobs.length).toNat = blobs.length := by
    rw [UInt32.toNat_ofNat']
    exact Nat.mod_eq_of_lt (by omega)
  have hlen : (UInt32.ofNat (strLen a.2)).toNat = strLen a.2 := by
    rw [UInt32.toNat_ofNat']
    exact Nat.mod_eq_of_lt (lt_of_le_of_lt (Nat.le_add_left _ _) hfit)
  have hat₄ : u32At (writeAttr a.1 (UInt32.ofNat blobs.length) (UInt32.ofNat (strLen a.2))) 4
      = UInt32.ofNat blobs.length := by
    rw [writeAttr, u32At_append_right (by simp)]
    exact u32At_putU32_append _ _
  have hat₈ : u32At (writeAttr a.1 (UInt32.ofNat blobs.length) (UInt32.ofNat (strLen a.2))) 8
      = UInt32.ofNat (strLen a.2) := by
    rw [writeAttr, u32At_append_right (by simp), u32At_append_right (by simp)]
    exact u32At_putU32 _
  unfold attrRec
  rw [hat₄, hat₈, hoff, hlen, text_of_inBounds (by rw [List.length_append]; exact le_rfl),
    range_append_right le_rfl, Nat.sub_self, strLen, range_zero_self rfl, fromUtf8_strBytes]
  rfl

namespace AttrPass

/-- What pushing the attributes of one node leaves: a row of records that read as
    the attributes. -/
structure Pushed (p q : AttrPass) (as : List (UInt8 × String)) (row : List Bytes) : Prop where
  recs : q.recs = row.foldl Csr.addRec p.recs
  blobs : p.blobs <+: q.blobs
  width : ∀ r ∈ row, r.length = attrLen ∧ (range r 1 3).all (· == 0) = true
  reads : row.mapM (attrRec q.blobs) = some as

theorem pushed_foldl (p : AttrPass) {as : List (UInt8 × String)}
    (hfit : (as.foldl pushAttr p).blobs.length < 2 ^ 32) :
    ∃ row, Pushed p (as.foldl pushAttr p) as row := by
  induction as using List.reverseRecOn with
  | nil => exact ⟨[], rfl, List.prefix_rfl, by simp, rfl⟩
  | append_singleton as a ih =>
    rw [List.foldl_append, List.foldl_cons, List.foldl_nil] at hfit ⊢
    generalize as.foldl pushAttr p = q at hfit ih ⊢
    have hgrow : q.blobs <+: (q.pushAttr a).blobs := List.prefix_append _ _
    obtain ⟨row, h⟩ := ih (lt_of_le_of_lt hgrow.length_le hfit)
    refine ⟨row ++ [writeAttr a.1 (UInt32.ofNat q.blobs.length) (UInt32.ofNat (strLen a.2))], ?_,
      h.blobs.trans hgrow, ?_, ?_⟩
    · rw [List.foldl_append, ← h.recs]
      rfl
    · intro r hr
      rcases List.mem_append.mp hr with hr | hr
      · exact h.width r hr
      · obtain rfl := List.mem_singleton.mp hr
        exact ⟨length_writeAttr _ _ _, rfl⟩
    · have hfront := FaultLib.mapM_mono (fun r _ v hv => attrRec_extends hgrow hv) h.reads
      have hlast : attrRec (q.pushAttr a).blobs
          (writeAttr a.1 (UInt32.ofNat q.blobs.length) (UInt32.ofNat (strLen a.2))) = some a :=
        attrRec_writeAttr hfit
      rw [List.mapM_append, hfront, Option.bind_eq_bind, Option.bind_some, List.mapM_cons, hlast]
      rfl

/-- The pass after the nodes `done`: a row of records for each, reading as its
    attributes. -/
structure Holds (p : AttrPass) (done : List (List (UInt8 × String))) (rows : List (List Bytes)) :
    Prop where
  recs : p.recs = Csr.ofRows rows
  length : rows.length = done.length
  width : ∀ row ∈ rows, ∀ r ∈ row, r.length = attrLen ∧ (range r 1 3).all (· == 0) = true
  reads : ∀ i (hi : i < rows.length) (hi' : i < done.length),
    rows[i].mapM (attrRec p.blobs) = some done[i]

theorem holds_foldl {done : List (List (UInt8 × String))}
    (hfit : (done.foldl pushRow ⟨.empty, []⟩).blobs.length < 2 ^ 32) :
    ∃ rows, Holds (done.foldl pushRow ⟨.empty, []⟩) done rows := by
  induction done using List.reverseRecOn with
  | nil => exact ⟨[], rfl, rfl, by simp, by simp⟩
  | append_singleton done as ih =>
    rw [List.foldl_append, List.foldl_cons, List.foldl_nil] at hfit ⊢
    generalize done.foldl pushRow ⟨.empty, []⟩ = p at hfit ih ⊢
    obtain ⟨row, hrow⟩ := pushed_foldl { p with recs := p.recs.openRow } hfit
    obtain ⟨rows, h⟩ := ih (lt_of_le_of_lt hrow.blobs.length_le hfit)
    refine ⟨rows ++ [row], ?_, by simp [h.length], ?_, ?_⟩
    · rw [Csr.ofRows, List.foldl_append, ← Csr.ofRows, ← h.recs]
      exact hrow.recs
    · intro row' hrow' r hr
      rcases List.mem_append.mp hrow' with hmem | hmem
      · exact h.width row' hmem r hr
      · obtain rfl := List.mem_singleton.mp hmem
        exact hrow.width r hr
    · intro i hi hi'
      rcases Nat.lt_or_ge i rows.length with hlt | hge
      · rw [List.getElem_append_left hlt, List.getElem_append_left (h.length ▸ hlt)]
        exact FaultLib.mapM_mono (fun r _ v hv => attrRec_extends hrow.blobs hv)
          (h.reads i hlt (h.length ▸ hlt))
      · -- the row just written
        obtain rfl : i = rows.length := by
          rw [List.length_append, List.length_singleton] at hi
          omega
        rw [List.getElem_append_right le_rfl, List.getElem_append_right (Nat.le_of_eq h.length.symm)]
        simp only [h.length, Nat.sub_self, List.getElem_singleton]
        exact hrow.reads

end AttrPass

end BaseFile

end GraphR
