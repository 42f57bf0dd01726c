import Mathlib.Tactic
import Mathlib.Data.List.Lex
import Mathlib.Data.List.Sort
import GraphR.Library.Faults

/-! # Looking up in sorted tables

    What replaces a scan of a vocabulary:

    - `bound`, the binary search for the first index a test rejects,
    - the strings with a given prefix, which are a run of a sorted table
      (`prefix_run`),
    - `windows`, the runs of `n` letters of a string: a string that contains
      another has all its windows (`mem_windows_of_isInfix`). -/

instance uint8LinearOrder : LinearOrder UInt8 where
  le_refl := fun _ => UInt8.le_refl _
  le_trans := fun _ _ _ => UInt8.le_trans
  le_antisymm := fun _ _ => UInt8.le_antisymm
  le_total := UInt8.le_total
  lt_iff_le_not_ge := by
    intro a b
    rw [UInt8.lt_iff_toNat_lt, UInt8.le_iff_toNat_le, UInt8.le_iff_toNat_le]
    omega
  toDecidableLE := inferInstance
  toDecidableEq := inferInstance
  toDecidableLT := inferInstance

namespace LookupLib

/-! ## Binary search -/

/-- Binary search between `lo` and `hi`; the fuel is no less than `hi - lo`. The
    test may fault. -/
def boundGo (test : Nat → Option Bool) : Nat → Nat → Nat → Option Nat
  | 0, lo, _ => some lo
  | fuel + 1, lo, hi =>
    if lo < hi then do
      let mid := (lo + hi) / 2
      if ← test mid then boundGo test fuel (mid + 1) hi else boundGo test fuel lo mid
    else some lo

/-- The first index below `n` the test rejects, `n` where it rejects none. -/
def bound (test : Nat → Option Bool) (n : Nat) : Option Nat := boundGo test n 0 n

theorem boundGo_isSome {test : Nat → Option Bool} {n : Nat} (htest : ∀ i < n, (test i).isSome) :
    ∀ fuel lo hi, hi ≤ n → (boundGo test fuel lo hi).isSome := by
  intro fuel
  induction fuel with
  | zero => exact fun _ _ _ => rfl
  | succ fuel ih =>
    intro lo hi hhi
    rw [boundGo]
    by_cases hlt : lo < hi
    · rw [if_pos hlt]
      obtain ⟨b, hb⟩ := Option.isSome_iff_exists.mp (htest ((lo + hi) / 2) (by omega))
      simp only [hb, Option.bind_eq_bind, Option.bind_some]
      cases b with
      | true => exact ih _ _ hhi
      | false => exact ih _ _ (by omega)
    · rw [if_neg hlt]
      rfl

/-- A search over a table whose tests do not fault does not fault. -/
theorem bound_isSome {test : Nat → Option Bool} {n : Nat} (htest : ∀ i < n, (test i).isSome) :
    (bound test n).isSome :=
  boundGo_isSome htest n 0 n le_rfl

theorem boundGo_le {test : Nat → Option Bool} {n m : Nat} :
    ∀ fuel lo hi, lo ≤ hi → hi ≤ n → boundGo test fuel lo hi = some m → m ≤ n := by
  intro fuel
  induction fuel with
  | zero =>
    intro lo hi hle hhi hm
    cases hm
    exact hle.trans hhi
  | succ fuel ih =>
    intro lo hi hle hhi hm
    rw [boundGo] at hm
    by_cases hlt : lo < hi
    · rw [if_pos hlt] at hm
      obtain ⟨b, -, hm⟩ := Option.bind_eq_some_iff.mp hm
      cases b with
      | true => exact ih _ _ (by omega) hhi hm
      | false => exact ih _ _ (by omega) (by omega) hm
    · rw [if_neg hlt] at hm
      cases hm
      exact hle.trans hhi

/-- The search ends inside the table. -/
theorem bound_le {test : Nat → Option Bool} {n : Nat} (htest : ∀ i < n, (test i).isSome) :
    ∃ m, bound test n = some m ∧ m ≤ n := by
  obtain ⟨m, hm⟩ := Option.isSome_iff_exists.mp (bound_isSome htest)
  exact ⟨m, hm, boundGo_le n 0 n (Nat.zero_le n) le_rfl hm⟩

/-- What a search has found out between `lo` and `hi`. -/
theorem boundGo_spec {test : Nat → Option Bool} {n : Nat} {p : Nat → Bool}
    (htest : ∀ i < n, test i = some (p i)) (hmono : ∀ i j, i ≤ j → j < n → p j → p i) :
    ∀ fuel lo hi, hi ≤ n → lo ≤ hi → hi - lo ≤ fuel → (∀ i < lo, p i) →
      (∀ i, hi ≤ i → i < n → p i = false) →
      ∃ m, boundGo test fuel lo hi = some m ∧ m ≤ n ∧ ∀ i < n, p i = true ↔ i < m := by
  intro fuel
  induction fuel with
  | zero =>
    intro lo hi hhi hle hfuel hbelow habove
    have heq : lo = hi := by omega
    subst heq
    refine ⟨lo, rfl, hhi, ?_⟩
    intro i hi
    by_cases hlt : i < lo
    · simp [hlt, hbelow i hlt]
    · simp [hlt, habove i (by omega) hi]
  | succ fuel ih =>
    intro lo hi hhi hle hfuel hbelow habove
    rw [boundGo]
    by_cases hlt : lo < hi
    · have hmid : (lo + hi) / 2 < n := by omega
      rw [if_pos hlt]
      simp only [htest _ hmid, Option.bind_eq_bind, Option.bind_some]
      cases hp : p ((lo + hi) / 2) with
      | true =>
        refine ih _ _ hhi (by omega) (by omega) ?_ habove
        intro i hi
        exact hmono i _ (by omega) hmid hp
      | false =>
        refine ih _ _ (by omega) (by omega) (by omega) hbelow ?_
        intro i hge hin
        by_contra hne
        have hpi : p i = true := by simpa using hne
        rw [hmono _ i hge hin hpi] at hp
        cases hp
    · have heq : lo = hi := by omega
      subst heq
      rw [if_neg hlt]
      refine ⟨lo, rfl, hhi, ?_⟩
      intro i hi
      by_cases hlt : i < lo
      · simp [hlt, hbelow i hlt]
      · simp [hlt, habove i (by omega) hi]

/-- The search finds where a falling test turns. -/
theorem bound_spec {test : Nat → Option Bool} {n : Nat} {p : Nat → Bool}
    (htest : ∀ i < n, test i = some (p i)) (hmono : ∀ i j, i ≤ j → j < n → p j → p i) :
    ∃ m, bound test n = some m ∧ m ≤ n ∧ ∀ i < n, p i = true ↔ i < m :=
  boundGo_spec htest hmono n 0 n le_rfl (Nat.zero_le n) (by omega) (by simp)
    (fun i hge hlt => by omega)

/-- The index of `x` in a strictly sorted table, by binary search. -/
theorem bound_find {β : Type} [LinearOrder β] {xs : List β} (hsorted : xs.Pairwise (· < ·))
    (x : β) {test : Nat → Option Bool} (htest : ∀ i (h : i < xs.length),
      test i = some (decide (xs[i] < x))) :
    ∃ m, bound test xs.length = some m ∧ m ≤ xs.length ∧ ∀ i, xs[i]? = some x → i = m := by
  have hget := List.pairwise_iff_getElem.mp hsorted
  have hpre : ∀ i < xs.length, test i = some (decide (∃ h : i < xs.length, xs[i] < x)) := by
    intro i hi
    rw [htest i hi]
    simp [hi]
  obtain ⟨m, hm, hle, hiff⟩ := bound_spec hpre (by
    intro i j hij hj hp
    obtain ⟨_, hlt⟩ := of_decide_eq_true hp
    refine decide_eq_true ⟨by omega, ?_⟩
    rcases Nat.lt_or_eq_of_le hij with h | rfl
    · exact lt_trans (hget i j (by omega) hj h) hlt
    · exact hlt)
  refine ⟨m, hm, hle, ?_⟩
  intro i hi
  obtain ⟨hlen, heq⟩ := List.getElem?_eq_some_iff.mp hi
  have hnot : ¬i < m := by
    rw [← hiff i hlen, decide_eq_true_eq]
    rintro ⟨_, hlt⟩
    exact lt_irrefl _ (heq ▸ hlt)
  by_contra hne
  -- `m` lies before `i`, so its entry is below `x` and the test accepts it
  have hlt : m < i := by omega
  have hacc := (hiff m (by omega)).mp (decide_eq_true ⟨by omega, heq ▸ hget m i (by omega) hlen hlt⟩)
  exact lt_irrefl m hacc

/-! ## Prefixes in a sorted table -/

section prefixes
variable {α : Type} [LinearOrder α]

theorem le_of_isPrefix {t s : List α} (h : t <+: s) : t ≤ s := by
  obtain ⟨r, rfl⟩ := h
  induction t with
  | nil =>
    cases r with
    | nil => exact le_rfl
    | cons a r => exact le_of_lt (List.nil_lt_cons a r)
  | cons a t ih =>
    rw [List.cons_append]
    rcases lt_or_eq_of_le ih with hlt | heq
    · exact le_of_lt (List.cons_lt_cons_iff.mpr (.inr ⟨rfl, hlt⟩))
    · rw [← heq]

/-- What lies between a string and one of its extensions extends it too. -/
theorem prefix_between {t b c : List α} (hc : t <+: c) (htb : t ≤ b) (hbc : b ≤ c) : t <+: b := by
  induction t generalizing b c with
  | nil => exact List.nil_prefix
  | cons a t ih =>
    obtain ⟨r, rfl⟩ := hc
    cases b with
    | nil => exact absurd htb (not_le.mpr (List.nil_lt_cons a t))
    | cons b bs =>
      rw [List.cons_append] at hbc
      have hab : ¬(b < a ∨ b = a ∧ bs < t) := by
        rw [← List.cons_lt_cons_iff]
        exact not_lt.mpr htb
      have hba : ¬(a < b ∨ a = b ∧ t ++ r < bs) := by
        rw [← List.cons_lt_cons_iff]
        exact not_lt.mpr hbc
      rw [not_or] at hab hba
      have heq : a = b := le_antisymm (not_lt.mp hab.1) (not_lt.mp hba.1)
      subst heq
      have hrest := @ih bs (t ++ r) (List.prefix_append t r)
        (not_lt.mp fun h => hab.2 ⟨rfl, h⟩) (not_lt.mp fun h => hba.2 ⟨rfl, h⟩)
      exact List.cons_prefix_cons.mpr ⟨rfl, hrest⟩

/-- In a list whose members satisfy `p` only in front, the front is all of them. -/
theorem takeWhile_eq_filter {β : Type} {p : β → Bool} {xs : List β}
    (h : xs.Pairwise fun a b => p b → p a) : xs.takeWhile p = xs.filter p := by
  induction xs with
  | nil => rfl
  | cons x xs ih =>
    obtain ⟨hhead, htail⟩ := List.pairwise_cons.mp h
    by_cases hp : p x = true
    · rw [List.takeWhile_cons_of_pos hp, List.filter_cons_of_pos hp, ih htail]
    · rw [List.takeWhile_cons_of_neg hp, List.filter_cons_of_neg hp, eq_comm,
        List.filter_eq_nil_iff]
      exact fun y hy hpy => hp (hhead y hy hpy)

/-- In a table sorted by string, the entries with prefix `t` are the run from the
    first one not below `t`. -/
theorem prefix_run {β : Type} {f : β → List α} {xs : List β} (t : List α)
    (hsorted : xs.Pairwise fun a b => f a ≤ f b) {lo : Nat}
    (hlo : ∀ i (h : i < xs.length), f xs[i] < t ↔ i < lo) :
    (xs.drop lo).takeWhile (fun x => decide (t <+: f x))
      = xs.filter fun x => decide (t <+: f x) := by
  have hfront : (xs.take lo).filter (fun x => decide (t <+: f x)) = [] := by
    rw [List.filter_eq_nil_iff]
    intro x hx hp
    obtain ⟨i, hi, rfl⟩ := List.getElem_of_mem hx
    rw [List.length_take] at hi
    rw [List.getElem_take] at hp
    have hlt := (hlo i (by omega)).mpr (by omega)
    exact absurd (le_of_isPrefix (of_decide_eq_true hp)) (not_le.mpr hlt)
  have hback : ∀ x ∈ xs.drop lo, t ≤ f x := by
    intro x hx
    obtain ⟨i, hi, rfl⟩ := List.getElem_of_mem hx
    rw [List.length_drop] at hi
    rw [List.getElem_drop]
    refine not_lt.mp fun hlt => ?_
    have := (hlo (lo + i) (by omega)).mp hlt
    omega
  have hrun : (xs.drop lo).Pairwise fun a b => decide (t <+: f b) → decide (t <+: f a) := by
    refine List.Pairwise.imp_of_mem ?_ (hsorted.drop)
    intro a b ha _ hab hb
    exact decide_eq_true (prefix_between (of_decide_eq_true hb) (hback a ha) hab)
  rw [takeWhile_eq_filter hrun]
  conv_rhs => rw [← List.take_append_drop lo xs, List.filter_append, hfront, List.nil_append]

end prefixes

/-! ## Windows -/

section windows
variable {α : Type}

/-- The runs of `n` consecutive letters. -/
def windows (n : Nat) : List α → List (List α)
  | [] => []
  | a :: l => if n ≤ l.length + 1 then (a :: l).take n :: windows n l else []

theorem mem_windows {n : Nat} (hn : 0 < n) {l w : List α} :
    w ∈ windows n l ↔ w.length = n ∧ w <:+: l := by
  induction l with
  | nil =>
    simp only [windows, List.not_mem_nil, List.infix_nil, false_iff]
    rintro ⟨hlen, rfl⟩
    simp only [List.length_nil] at hlen
    omega
  | cons a l ih =>
    rw [windows, List.infix_cons_iff]
    by_cases hle : n ≤ l.length + 1
    · rw [if_pos hle, List.mem_cons, ih]
      constructor
      · rintro (rfl | ⟨hlen, hin⟩)
        · exact ⟨by simp; omega, .inl (List.take_prefix n (a :: l))⟩
        · exact ⟨hlen, .inr hin⟩
      · rintro ⟨hlen, hpre | hin⟩
        · exact .inl (by rw [← hlen]; exact List.prefix_iff_eq_take.mp hpre)
        · exact .inr ⟨hlen, hin⟩
    · rw [if_neg hle]
      simp only [List.not_mem_nil, false_iff]
      rintro ⟨hlen, hpre | hin⟩
      · have := hpre.length_le
        simp only [List.length_cons] at this
        omega
      · have := hin.length_le
        omega

/-- A string has the windows of what it contains. -/
theorem mem_windows_of_isInfix {n : Nat} (hn : 0 < n) {t s w : List α} (hin : t <:+: s)
    (hw : w ∈ windows n t) : w ∈ windows n s := by
  rw [mem_windows hn] at hw ⊢
  exact ⟨hw.1, hw.2.trans hin⟩

theorem windows_ne_nil {n : Nat} {l : List α} (hn : 0 < n) (h : n ≤ l.length) :
    windows n l ≠ [] := by
  have hmem : l.take n ∈ windows n l := by
    rw [mem_windows hn]
    exact ⟨by simp; omega, (List.take_prefix n l).isInfix⟩
  exact List.ne_nil_of_mem hmem

end windows

/-! ## Postings -/

section postings
variable {κ : Type} [DecidableEq κ]

/-- Append a document unless it is the last one posted. -/
def pushId (i : Nat) (ids : List Nat) : List Nat :=
  if ids.getLast? = some i then ids else ids ++ [i]

theorem mem_pushId {i j : Nat} {ids : List Nat} : j ∈ pushId i ids ↔ j ∈ ids ∨ j = i := by
  unfold pushId
  by_cases h : ids.getLast? = some i
  · rw [if_pos h]
    constructor
    · exact .inl
    · rintro (hj | rfl)
      · exact hj
      · exact List.mem_of_getLast? h
  · rw [if_neg h]
    simp

theorem pushId_ascending {i : Nat} {ids : List Nat} (h : ids.Pairwise (· < ·))
    (hle : ∀ j ∈ ids, j ≤ i) : (pushId i ids).Pairwise (· < ·) := by
  unfold pushId
  by_cases hlast : ids.getLast? = some i
  · rwa [if_pos hlast]
  · rw [if_neg hlast, List.pairwise_append]
    refine ⟨h, List.pairwise_singleton _ _, ?_⟩
    intro a ha b hb
    obtain rfl := List.mem_singleton.mp hb
    refine lt_of_le_of_ne (hle a ha) ?_
    rintro rfl
    -- `a` is a member no other exceeds, so it is the last one
    apply hlast
    obtain ⟨front, back, rfl⟩ := List.append_of_mem ha
    cases back with
    | nil => simp
    | cons c back =>
      have hlt := (List.pairwise_cons.mp (List.pairwise_append.mp h).2.1).1 c (by simp)
      have := hle c (by simp)
      omega

/-- The postings after documents were posted under keys, in document order. -/
structure Posts (f : κ → List Nat) (events : List (κ × Nat)) : Prop where
  ascending : ∀ k, (f k).Pairwise (· < ·)
  mem : ∀ k i, i ∈ f k ↔ (k, i) ∈ events

theorem Posts.push {f : κ → List Nat} {events : List (κ × Nat)} (h : Posts f events) {k : κ}
    {i : Nat} (hlast : ∀ e ∈ events, e.2 ≤ i) :
    Posts (fun k' => if k' = k then pushId i (f k) else f k') (events ++ [(k, i)]) := by
  constructor
  · intro k'
    by_cases hk : k' = k
    · rw [if_pos hk]
      exact pushId_ascending (h.ascending k) fun j hj => hlast _ ((h.mem k j).mp hj)
    · rw [if_neg hk]
      exact h.ascending k'
  · intro k' j
    rw [List.mem_append, List.mem_singleton, Prod.mk.injEq, ← h.mem k' j]
    by_cases hk : k' = k
    · subst hk
      simp [mem_pushId]
    · simp [hk]

end postings

end LookupLib
