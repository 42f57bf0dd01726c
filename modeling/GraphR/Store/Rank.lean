import GraphR.Library.Places
import GraphR.Store.Render

/-! # Importance

    `rank.rs`: page ranks over the link edges, twenty rounds of a rank handing itself
    on, and each node's percentile among them in permille. The numbers are a parameter;
    where the ranks compare, the permille of a node counts the nodes ranked below it. -/

namespace GraphR

open BaseFile PlaceLib

/-- Double-precision numbers: the value of a literal, the operations, `partial_cmp`. -/
structure F64 (F : Type) where
  lit : ℚ → F
  add : F → F → F
  sub : F → F → F
  mul : F → F → F
  div : F → F → F
  cmp : F → F → Option Ordering

/-- Numbers without rounding. -/
def F64.exact : F64 ℚ :=
  ⟨id, (· + ·), (· - ·), (· * ·), (· / ·), fun a b => some (compare a b)⟩

namespace Rank

/-- `DAMPING`. -/
def damping : ℚ := 85 / 100

/-- `ITERATIONS`. -/
def iterations : Nat := 20

section compute
variable {F : Type} (A : F64 F) (n : Nat) (outEdges : List (List BaseEdge))

/-- The rank of a node; there is one for each. -/
def rankAt (rank : List F) (u : Nat) : F := rank.getD u (A.lit 0)

/-- The out-degree over links, whose tag is 0. -/
def linkOut (es : List BaseEdge) : Nat := (es.filter fun e => e.etype = 0).length

/-- An edge gets a share, if it is a link. -/
def give (share : F) (next : List F) (e : BaseEdge) : List F :=
  if e.etype = 0 then next.modify e.node fun v => A.add v share else next

/-- What a round has handed on so far. -/
structure Round (F : Type) where
  next : List F
  dangling : F

/-- A node hands its rank on to the targets of its links, or lets it dangle. -/
def handOn (rank : List F) (r : Round F) (es : List BaseEdge × Nat) : Round F :=
  if linkOut es.1 = 0 then { r with dangling := A.add r.dangling (rankAt A rank es.2) }
  else
    let share := A.div (rankAt A rank es.2) (A.lit (linkOut es.1))
    { r with next := es.1.foldl (give A share) r.next }

/-- `(1.0 - DAMPING) / n`. -/
def teleport : F := A.div (A.sub (A.lit 1) (A.lit damping)) (A.lit n)

/-- One round. -/
def iteration (rank : List F) : List F :=
  let r := outEdges.zipIdx.foldl (handOn A rank) ⟨List.replicate n (A.lit 0), A.lit 0⟩
  let danglingShare := A.div r.dangling (A.lit n)
  r.next.map fun v => A.add (teleport A n) (A.mul (A.lit damping) (A.add v danglingShare))

def pagerank : List F :=
  (iteration A n outEdges)^[iterations] (List.replicate n (A.div (A.lit 1) (A.lit n)))

/-- Edges in and out. -/
def degree (i : Nat) : UInt32 :=
  (inDegrees n outEdges).getD i 0 + UInt32.ofNat (outEdges.getD i []).length

/-- By rank, then by id. -/
def cmpIds (rank : List F) (a b : Nat) : Ordering :=
  ((A.cmp (rankAt A rank a) (rankAt A rank b)).getD .eq).then (compare a b)

/-- The ids in ascending order; they are 32 bits wide. -/
def order (rank : List F) : List Nat :=
  (List.range (UInt32.ofNat n).toNat).insertionSort fun a b => cmpIds A rank a b ≠ .gt

/-- The percentile of a place. -/
def permilleOf (pos : Nat) : UInt16 := if n = 1 then 1000 else UInt16.ofNat (pos * 1000 / (n - 1))

/-- What a node at a place gets: nothing, where it has fewer than two edges. -/
def permilleAt (e : Nat × Nat) : UInt16 := if degree n outEdges e.1 < 2 then 0 else permilleOf n e.2

def percentilePermille (rank : List F) : List UInt16 :=
  (order A n rank).zipIdx.foldl (fun permille e => permille.set e.1 (permilleAt n outEdges e))
    (List.replicate n 0)

/-- `none`: the assertion fails, or the target of an edge is out of bounds. -/
def compute : Option (List UInt16) :=
  if outEdges.length ≠ n then none
  else if n = 0 then some []
  else if ∀ es ∈ outEdges, ∀ e ∈ es, e.node < n then
    some (percentilePermille A n outEdges (pagerank A n outEdges))
  else none

end compute

/-- The ranks of collected nodes; zeros, where compaction does not get that far. -/
def ofNodes {F : Type} (A : F64 F) (nodes : SortedMap UrlKey NodeModel) : List UInt16 :=
  ((Base.edgeRows ⟨nodes, []⟩).bind (compute A nodes.entries.length)).getD
    (List.replicate nodes.entries.length 0)

/-! ## Lengths -/

section length
variable {F : Type} (A : F64 F)

theorem length_give (share : F) (es : List BaseEdge) (next : List F) :
    (es.foldl (give A share) next).length = next.length := by
  induction es generalizing next with
  | nil => rfl
  | cons e es ih =>
    rw [List.foldl_cons, ih, give]
    split_ifs
    · exact List.length_modify _ _ _
    · rfl

theorem length_handOn (rank : List F) (r : Round F) (es : List BaseEdge × Nat) :
    (handOn A rank r es).next.length = r.next.length := by
  unfold handOn
  split_ifs
  · rfl
  · exact length_give A _ _ _

theorem length_iteration (n : Nat) (outEdges : List (List BaseEdge)) (rank : List F) :
    (iteration A n outEdges rank).length = n := by
  have hrows : ∀ (rows : List (List BaseEdge × Nat)) (r : Round F),
      (rows.foldl (handOn A rank) r).next.length = r.next.length := by
    intro rows
    induction rows with
    | nil => exact fun _ => rfl
    | cons es rows ih => exact fun r => (ih _).trans (length_handOn A rank r es)
  rw [iteration, List.length_map, hrows, List.length_replicate]

theorem length_pagerank (n : Nat) (outEdges : List (List BaseEdge)) :
    (pagerank A n outEdges).length = n := by
  have hlast := Function.iterate_succ_apply' (iteration A n outEdges) 19
    (List.replicate n (A.div (A.lit 1) (A.lit n)))
  exact (congrArg List.length hlast).trans (length_iteration A n outEdges _)

end length

/-! ## Percentiles -/

section percentile
variable {F : Type} {A : F64 F} {n : Nat} {outEdges : List (List BaseEdge)} {rank : List F}

theorem length_percentilePermille : (percentilePermille A n outEdges rank).length = n := by
  rw [percentilePermille, length_foldl_set, List.length_replicate]

theorem length_compute {p : List UInt16} (h : compute A n outEdges = some p) : p.length = n := by
  unfold compute at h
  split_ifs at h with hlen hn hin
  · cases h
    exact hn.symm
  · cases h
    exact length_percentilePermille

/-- There is a rank for each node. -/
theorem length_ofNodes {F : Type} (A : F64 F) (nodes : SortedMap UrlKey NodeModel) :
    (ofNodes A nodes).length = nodes.entries.length := by
  unfold ofNodes
  cases hp : (Base.edgeRows ⟨nodes, []⟩).bind (compute A nodes.entries.length) with
  | none => exact List.length_replicate
  | some p =>
    obtain ⟨rows, -, hrows⟩ := Option.bind_eq_some_iff.mp hp
    exact length_compute hrows

/-- Numbers that compare as their values do: no one of them is NaN. -/
def Comparable (A : F64 F) (value : F → ℚ) (xs : List F) : Prop :=
  ∀ a ∈ xs, ∀ b ∈ xs, A.cmp a b = some (compare (value a) (value b))

/-- `a` is ranked below `b`: it has less, or as much and the smaller id. -/
def Below (A : F64 F) (value : F → ℚ) (rank : List F) (a b : Nat) : Prop :=
  value (rankAt A rank a) < value (rankAt A rank b) ∨
    value (rankAt A rank a) = value (rankAt A rank b) ∧ a < b

variable {value : F → ℚ}

instance : DecidableRel (Below A value rank) := fun a b => by
  unfold Below
  infer_instance

theorem Below.asymm {a b : Nat} (h : Below A value rank a b) : ¬Below A value rank b a := by
  unfold Below at *
  rcases h with hlt | ⟨heq, hid⟩
  · rintro (hgt | ⟨heq, -⟩)
    · exact lt_asymm hlt hgt
    · exact absurd heq (ne_of_gt hlt)
  · rintro (hgt | ⟨-, hid'⟩)
    · exact absurd heq (ne_of_gt hgt)
    · exact lt_asymm hid hid'

theorem Below.trans {a b c : Nat} (h : Below A value rank a b) (h' : Below A value rank b c) :
    Below A value rank a c := by
  unfold Below at *
  rcases h with hlt | ⟨heq, hid⟩
  · rcases h' with hlt' | ⟨heq', -⟩
    · exact .inl (hlt.trans hlt')
    · exact .inl (heq' ▸ hlt)
  · rcases h' with hlt' | ⟨heq', hid'⟩
    · exact .inl (heq ▸ hlt')
    · exact .inr ⟨heq.trans heq', hid.trans hid'⟩

theorem Below.total {a b : Nat} (hne : a ≠ b) :
    Below A value rank a b ∨ Below A value rank b a := by
  unfold Below
  rcases lt_trichotomy (value (rankAt A rank a)) (value (rankAt A rank b)) with h | h | h
  · exact .inl (.inl h)
  · rcases Nat.lt_or_gt_of_ne hne with hid | hid
    · exact .inl (.inr ⟨h, hid⟩)
    · exact .inr (.inr ⟨h.symm, hid⟩)
  · exact .inr (.inl h)

theorem rankAt_mem (hlen : rank.length = n) {i : Nat} (hi : i < n) : rankAt A rank i ∈ rank := by
  rw [rankAt, List.getD_eq_getElem?_getD, List.getElem?_eq_getElem (by omega), Option.getD_some]
  exact List.getElem_mem _

/-- The place of a node: how many are ranked below it. -/
def placeOf (A : F64 F) (value : F → ℚ) (n : Nat) (rank : List F) (i : Nat) : Nat :=
  (List.range n).countP fun j => Below A value rank j i

theorem placeOf_lt {i : Nat} (hi : i < n) : placeOf A value n rank i < n := by
  have hlt : (List.range n).countP (fun j => decide (Below A value rank j i))
      < (List.range n).length := by
    rw [List.countP_lt_length_iff]
    exact ⟨i, List.mem_range.mpr hi, decide_eq_false fun h => h.asymm h⟩
  rwa [List.length_range] at hlt

theorem placeOf_mono {i j : Nat} (h : Below A value rank i j) :
    placeOf A value n rank i ≤ placeOf A value n rank j := by
  apply List.countP_mono_left
  intro k _ hk
  exact decide_eq_true ((of_decide_eq_true hk).trans h)

theorem toNat_permilleOf {pos : Nat} (hpos : pos < n) :
    (permilleOf n pos).toNat = (if n = 1 then 1000 else pos * 1000 / (n - 1)) ∧
      (permilleOf n pos).toNat ≤ 1000 := by
  unfold permilleOf
  split_ifs with hone
  · exact ⟨rfl, le_rfl⟩
  · have hle : pos * 1000 / (n - 1) ≤ 1000 :=
      Nat.div_le_of_le_mul (Nat.mul_le_mul_right 1000 (by omega))
    have hsmall : (UInt16.ofNat (pos * 1000 / (n - 1))).toNat = pos * 1000 / (n - 1) := by
      rw [UInt16.toNat_ofNat']
      exact Nat.mod_eq_of_lt (by omega)
    exact ⟨hsmall, hsmall.trans_le hle⟩

theorem permilleOf_mono {pos pos' : Nat} (hle : pos ≤ pos') (hpos : pos' < n) :
    permilleOf n pos ≤ permilleOf n pos' := by
  rw [UInt16.le_iff_toNat_le, (toNat_permilleOf (lt_of_le_of_lt hle hpos)).1, (toNat_permilleOf hpos).1]
  split_ifs
  · exact le_rfl
  · exact Nat.div_le_div_right (Nat.mul_le_mul_right 1000 hle)

theorem order_eq (hn : n < 2 ^ 32) : order A n rank
    = (List.range n).insertionSort fun a b => cmpIds A rank a b ≠ .gt := by
  have hsame : (UInt32.ofNat n).toNat = n := by
    rw [UInt32.toNat_ofNat']
    exact Nat.mod_eq_of_lt hn
  rw [order, hsame]

theorem perm_order (hn : n < 2 ^ 32) : (order A n rank).Perm (List.range n) := by
  rw [order_eq hn]
  exact List.perm_insertionSort _ _

variable (hlen : rank.length = n) (hcmp : Comparable A value rank)
include hlen hcmp

/-- The comparator of the source, on ids of nodes. -/
theorem cmpIds_ne_gt {a b : Nat} (ha : a < n) (hb : b < n) :
    cmpIds A rank a b ≠ .gt ↔ a = b ∨ Below A value rank a b := by
  rw [cmpIds, hcmp _ (rankAt_mem hlen ha) _ (rankAt_mem hlen hb), Option.getD_some]
  unfold Below
  rcases lt_trichotomy (value (rankAt A rank a)) (value (rankAt A rank b)) with h | h | h
  · simp [compare_lt_iff_lt.mpr h, h]
  · rw [compare_eq_iff_eq.mpr h, Ordering.eq_then, Ne, compare_gt_iff_gt]
    simp only [h, lt_irrefl, false_or, true_and]
    omega
  · have hne : a ≠ b := by
      rintro rfl
      exact lt_irrefl _ h
    simp [compare_gt_iff_gt.mpr h, hne, not_lt_of_gt h, ne_of_gt h]

variable (hn : n < 2 ^ 32)
include hn

/-- The ids ascend. -/
theorem pairwise_order : (order A n rank).Pairwise (Below A value rank) := by
  -- on ids of nodes, the comparator is the order `Below`, which is total and transitive
  have hsame : order A n rank = (List.range n).insertionSort fun a b => a = b ∨ Below A value rank a b := by
    have hmap := List.map_insertionSort (fun a b => cmpIds A rank a b ≠ .gt)
      (fun a b => a = b ∨ Below A value rank a b) id (List.range n)
      (fun a ha b hb => cmpIds_ne_gt hlen hcmp (List.mem_range.mp ha) (List.mem_range.mp hb))
    rw [order_eq hn]
    simpa using hmap
  have htotal : Std.Total fun a b => a = b ∨ Below A value rank a b := ⟨fun a b => by
    by_cases hab : a = b
    · exact .inl (.inl hab)
    · exact (Below.total hab).imp .inr .inr⟩
  have htrans : IsTrans Nat fun a b => a = b ∨ Below A value rank a b := ⟨fun a b c hab hbc => by
    rcases hab with rfl | hab
    · exact hbc
    · rcases hbc with rfl | hbc
      · exact .inr hab
      · exact .inr (hab.trans hbc)⟩
  have hsorted := List.pairwise_insertionSort (fun a b => a = b ∨ Below A value rank a b)
    (List.range n)
  rw [← hsame] at hsorted
  -- no id comes twice, so the order is strict
  have hnodup : (order A n rank).Nodup := (perm_order hn).nodup_iff.mpr List.nodup_range
  exact (hsorted.and hnodup).imp fun ⟨h, hne⟩ => h.resolve_left hne

/-- A node gets the percentile of its place. -/
theorem getElem?_percentilePermille {i : Nat} (hi : i < n) :
    (percentilePermille A n outEdges rank)[i]?
      = some (permilleAt n outEdges (i, placeOf A value n rank i)) := by
  have hmem : i ∈ order A n rank := (perm_order hn).mem_iff.mpr (List.mem_range.mpr hi)
  obtain ⟨pos, hpos, hat⟩ := List.getElem_of_mem hmem
  -- where the sort put it is how many are below it
  have hplace := countP_getElem (fun a b h => Below.asymm h) (pairwise_order hlen hcmp hn) hpos
  rw [hat, (perm_order hn).countP_eq] at hplace
  have hnodup : ((order A n rank).zipIdx.map Prod.fst).Nodup := by
    rw [List.zipIdx_map_fst]
    exact (perm_order hn).nodup_iff.mpr List.nodup_range
  have hentry : (i, pos) ∈ (order A n rank).zipIdx :=
    List.mem_zipIdx_iff_getElem?.mpr (by rw [List.getElem?_eq_getElem hpos, hat])
  rw [placeOf, hplace]
  exact getElem?_foldl_set (permilleAt n outEdges) hnodup hentry (by simpa using hi)

end percentile

section compute
variable {F : Type} (A : F64 F) (value : F → ℚ) {n : Nat} {outEdges : List (List BaseEdge)}
  (hlen : outEdges.length = n) (hin : ∀ es ∈ outEdges, ∀ e ∈ es, e.node < n) (hn : n < 2 ^ 32)
  (hcmp : Comparable A value (pagerank A n outEdges))
include hlen hin hn hcmp

theorem getElem?_compute : ∃ permille, compute A n outEdges = some permille ∧ ∀ i < n,
    permille[i]? = some (if degree n outEdges i < 2 then 0
      else permilleOf n (placeOf A value n (pagerank A n outEdges) i)) := by
  rcases Nat.eq_zero_or_pos n with hzero | hpos
  · exact ⟨[], by rw [compute, if_neg (by simpa using hlen), if_pos hzero], fun i hi => by omega⟩
  · refine ⟨percentilePermille A n outEdges (pagerank A n outEdges), ?_, fun i hi => ?_⟩
    · rw [compute, if_neg (by simpa using hlen), if_neg hpos.ne', if_pos hin]
    · exact getElem?_percentilePermille (length_pagerank A n outEdges) hcmp hn hi

/-- Over rows for all of at most 2^32 nodes with targets among them, and where no page rank
    is NaN, importance is a percentile. Each node gets a permille of at most 1000:
    nothing where it has fewer than two edges, and else that of its place, which counts
    the nodes ranked below it. So of two nodes the one ranked higher has no less, unless
    it has fewer than two edges. -/
theorem compute_spec : ∃ permille, compute A n outEdges = some permille ∧ permille.length = n ∧
    (∀ p ∈ permille, p ≤ 1000) ∧
      ∀ i < n, permille[i]? = some (if degree n outEdges i < 2 then 0
          else permilleOf n (placeOf A value n (pagerank A n outEdges) i)) ∧
        ∀ j < n, Below A value (pagerank A n outEdges) i j → ¬degree n outEdges j < 2 →
          permille.getD i 0 ≤ permille.getD j 0 := by
  obtain ⟨permille, hcompute, hget⟩ := getElem?_compute A value hlen hin hn hcmp
  have hlength := length_compute hcompute
  refine ⟨permille, hcompute, hlength, ?_, fun i hi => ⟨hget i hi, ?_⟩⟩
  · intro p hp
    obtain ⟨i, hi, rfl⟩ := List.getElem_of_mem hp
    have hat := hget i (hlength ▸ hi)
    rw [List.getElem?_eq_getElem hi, Option.some.injEq] at hat
    rw [hat]
    split_ifs
    · decide
    · exact UInt16.le_iff_toNat_le.mpr (toNat_permilleOf (placeOf_lt (hlength ▸ hi))).2
  · intro j hj hbelow hdegree
    rw [List.getD_eq_getElem?_getD, List.getD_eq_getElem?_getD, hget i hi, hget j hj,
      Option.getD_some, Option.getD_some, if_neg hdegree]
    split_ifs
    · exact UInt16.le_iff_toNat_le.mpr (Nat.zero_le _)
    · exact permilleOf_mono (placeOf_mono hbelow) (placeOf_lt hj)

end compute

/-! ## Numbers without rounding -/

theorem comparable_exact (xs : List ℚ) : Comparable F64.exact id xs := fun _ _ _ _ => rfl

/-- Two pages link to a third, which links back to the first. -/
def threePages : List (List BaseEdge) := [[⟨2, 0, 0, 1⟩], [⟨2, 0, 0, 1⟩], [⟨0, 0, 0, 1⟩]]

/-- The third is on top, the first behind it; the second has one edge. -/
theorem compute_spec_threePages : ∃ permille, compute F64.exact 3 threePages = some permille ∧
    permille = [500, 0, 1000] ∧ permille.getD 0 0 ≤ permille.getD 2 0 := by
  obtain ⟨permille, hcompute, -, -, hspec⟩ := @compute_spec ℚ F64.exact id 3 threePages
    rfl (by decide) (by decide) (comparable_exact _)
  refine ⟨permille, hcompute, ?_, (hspec 0 (by decide)).2 2 (by decide) (by decide +kernel)
    (by decide +kernel)⟩
  have hvalue : compute F64.exact 3 threePages = some [500, 0, 1000] := by decide +kernel
  rw [hvalue, Option.some.injEq] at hcompute
  exact hcompute.symm

end Rank

/-- The ranks of collected nodes, computed without rounding. -/
abbrev exactRanks : SortedMap UrlKey NodeModel → List UInt16 := Rank.ofNodes F64.exact

end GraphR
