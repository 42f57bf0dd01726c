import Mathlib.Tactic
import Mathlib.Data.List.Sort

/-! # Selecting the first of a list

    Taking the first `n` in order without sorting everything: partition the list
    around position `n`, cut it there, sort what is left. `Selects` is what such a
    partition promises, and `sort_take_of_selects` that the result is the sorted
    list cut at `n`. -/

namespace SelectLib

variable {α : Type} (le : α → α → Prop)

/-- `r` is `l` rearranged so that position `n` holds what a sort would put there:
    what stands before it is no later in order, what stands behind no earlier. -/
structure Selects (n : Nat) (l r : List α) : Prop where
  perm : r.Perm l
  before : ∀ p, r[n]? = some p → ∀ a ∈ r.take n, le a p
  behind : ∀ p, r[n]? = some p → ∀ b ∈ r.drop n, le p b

/-- A sorted list has been selected at every position. -/
theorem selects_of_sorted {le : α → α → Prop} (hrefl : ∀ a, le a a) {l r : List α}
    (hperm : r.Perm l) (hsorted : r.Pairwise le) (n : Nat) : Selects le n l r := by
  have hget := List.pairwise_iff_getElem.mp hsorted
  refine ⟨hperm, ?_, ?_⟩
  · intro p hp a ha
    obtain ⟨hlt, rfl⟩ := List.getElem?_eq_some_iff.mp hp
    obtain ⟨i, hi, rfl⟩ := List.getElem_of_mem ha
    rw [List.length_take] at hi
    rw [List.getElem_take]
    exact hget i n (by omega) hlt (by omega)
  · intro p hp a ha
    obtain ⟨hlt, rfl⟩ := List.getElem?_eq_some_iff.mp hp
    obtain ⟨i, hi, rfl⟩ := List.getElem_of_mem ha
    rw [List.length_drop] at hi
    rw [List.getElem_drop]
    by_cases hz : i = 0
    · subst hz
      exact hrefl _
    · exact hget n (n + i) hlt (by omega) (by omega)

variable {le} [DecidableRel le]

/-- Sorting is determined by the members, where no two of them tie. -/
theorem insertionSort_eq_of_perm (htrans : ∀ a b c, le a b → le b c → le a c)
    (htotal : ∀ a b, le a b ∨ le b a) {l r : List α} (hperm : r.Perm l)
    (hanti : ∀ a ∈ l, ∀ b ∈ l, le a b → le b a → a = b) (hsorted : r.Pairwise le) :
    l.insertionSort le = r := by
  have : Std.Total le := ⟨htotal⟩
  have : IsTrans α le := ⟨htrans⟩
  refine List.Perm.eq_of_pairwise ?_ (List.pairwise_insertionSort le l) hsorted
    ((List.perm_insertionSort le l).trans hperm.symm)
  intro a b ha hb hab hba
  exact hanti a ((List.perm_insertionSort le l).mem_iff.mp ha) b (hperm.mem_iff.mp hb) hab hba

/-- The first `n` of a list in order, by selection. -/
theorem sort_take_of_selects (htrans : ∀ a b c, le a b → le b c → le a c)
    (htotal : ∀ a b, le a b ∨ le b a) {n : Nat} {l r : List α} (hn : n < l.length)
    (h : Selects le n l r) (hanti : ∀ a ∈ l, ∀ b ∈ l, le a b → le b a → a = b) :
    (r.take n).insertionSort le = (l.insertionSort le).take n := by
  have : Std.Total le := ⟨htotal⟩
  have : IsTrans α le := ⟨htrans⟩
  have hlt : n < r.length := by rw [h.perm.length_eq]; exact hn
  have hpivot : r[n]? = some r[n] := List.getElem?_eq_getElem hlt
  -- the two halves, each sorted, one behind the other
  have hsorted : ((r.take n).insertionSort le ++ (r.drop n).insertionSort le).Pairwise le := by
    rw [List.pairwise_append]
    refine ⟨List.pairwise_insertionSort le _, List.pairwise_insertionSort le _, ?_⟩
    intro a ha b hb
    rw [List.mem_insertionSort] at ha hb
    exact htrans a _ b (h.before _ hpivot a ha) (h.behind _ hpivot b hb)
  have hperm : ((r.take n).insertionSort le ++ (r.drop n).insertionSort le).Perm l := by
    refine ((List.perm_insertionSort le _).append (List.perm_insertionSort le _)).trans ?_
    rw [List.take_append_drop]
    exact h.perm
  rw [insertionSort_eq_of_perm htrans htotal hperm hanti hsorted, List.take_left']
  rw [List.length_insertionSort, List.length_take]
  omega

end SelectLib
