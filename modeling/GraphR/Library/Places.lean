import Mathlib.Tactic
import Mathlib.Data.List.Sort

/-! # Places in a sorted list

    In a list that ascends strictly, an entry stands behind as many as come before it
    in the order. Writing each entry's value at its own index leaves it there. -/

namespace PlaceLib

section order
variable {α : Type} {lt : α → α → Prop} [DecidableRel lt]

/-- The place of an entry counts what is below it. -/
theorem countP_getElem (hasymm : ∀ a b, lt a b → ¬lt b a) {l : List α} (h : l.Pairwise lt) {i : Nat}
    (hi : i < l.length) : l.countP (fun a => lt a l[i]) = i := by
  have hget := List.pairwise_iff_getElem.mp h
  have hbefore : (l.take i).countP (fun a => lt a l[i]) = i := by
    have hall : ∀ a ∈ l.take i, decide (lt a l[i]) = true := by
      intro a ha
      obtain ⟨j, hj, rfl⟩ := List.getElem_of_mem ha
      rw [List.length_take] at hj
      rw [List.getElem_take]
      exact decide_eq_true (hget j i (by omega) hi (by omega))
    rw [List.countP_eq_length.mpr hall, List.length_take, Nat.min_eq_left (Nat.le_of_lt hi)]
  have hbehind : (l.drop i).countP (fun a => lt a l[i]) = 0 := by
    rw [List.countP_eq_zero]
    intro a ha
    obtain ⟨j, hj, rfl⟩ := List.getElem_of_mem ha
    rw [List.length_drop] at hj
    rw [List.getElem_drop, decide_eq_true_eq]
    rcases Nat.eq_zero_or_pos j with rfl | hpos
    · exact fun hlt => hasymm _ _ hlt hlt
    · exact hasymm _ _ (hget i (i + j) hi (by omega) (by omega))
  have hsplit : (l.take i ++ l.drop i).countP (fun a => lt a l[i]) = i + 0 := by
    rw [List.countP_append, hbefore, hbehind]
  rwa [List.take_append_drop] at hsplit

end order

section scatter
variable {α β : Type} (value : Nat × α → β)

theorem length_foldl_set (es : List (Nat × α)) (l : List β) :
    (es.foldl (fun l e => l.set e.1 (value e)) l).length = l.length := by
  induction es generalizing l with
  | nil => rfl
  | cons e es ih => rw [List.foldl_cons, ih, List.length_set]

/-- Each entry is where its index says. -/
theorem getElem?_foldl_set {es : List (Nat × α)} (hnodup : (es.map Prod.fst).Nodup) {l : List β}
    {e : Nat × α} (he : e ∈ es) (hlt : e.1 < l.length) :
    (es.foldl (fun l e => l.set e.1 (value e)) l)[e.1]? = some (value e) := by
  induction es using List.reverseRecOn with
  | nil => cases he
  | append_singleton es last ih =>
    rw [List.map_append, List.nodup_append] at hnodup
    rw [List.foldl_append, List.foldl_cons, List.foldl_nil]
    rcases List.mem_append.mp he with he | he
    · have hne : last.1 ≠ e.1 := fun heq =>
        hnodup.2.2 e.1 (List.mem_map_of_mem he) last.1 (by simp) heq.symm
      rw [List.getElem?_set_ne hne]
      exact ih hnodup.1 he
    · rw [List.mem_singleton.mp he] at hlt ⊢
      rw [List.getElem?_set_self (by rwa [length_foldl_set])]

end scatter

end PlaceLib
