import Mathlib.Tactic
import Mathlib.Data.List.Basic

/-! # Computations that may fault, and checks that may refuse

    `Option` as the monad of reads without checks: `none` is a fault. A loop
    over a list is `mapM` (collect) or `foldlM` (accumulate); these rules turn
    "no step faults" into "the loop does not fault".

    `Except` as the monad of a validator: `check` refuses with an error, `each`
    runs a check over a list. A validator that accepts is the conjunction of its
    checks. -/

namespace FaultLib

variable {α β σ : Type}

theorem mapM_eq_some {xs : List α} {f : α → Option β} {g : α → β}
    (h : ∀ x ∈ xs, f x = some (g x)) : xs.mapM f = some (xs.map g) := by
  induction xs with
  | nil => rfl
  | cons x xs ih =>
    rw [List.mapM_cons, h x (by simp), ih (fun y hy => h y (by simp [hy]))]
    rfl

theorem mapM_isSome {xs : List α} {f : α → Option β} (h : ∀ x ∈ xs, (f x).isSome) :
    (xs.mapM f).isSome := by
  induction xs with
  | nil => rfl
  | cons x xs ih =>
    obtain ⟨y, hy⟩ := Option.isSome_iff_exists.mp (h x (by simp))
    obtain ⟨ys, hys⟩ := Option.isSome_iff_exists.mp (ih (fun y hy => h y (by simp [hy])))
    rw [List.mapM_cons, hy, hys]
    rfl

/-- A loop whose every step returns something that projects to the wanted
    value. -/
theorem mapM_proj {γ : Type} {xs : List α} {f : α → Option β} {g : β → γ} {w : α → γ}
    (h : ∀ x ∈ xs, ∃ y, f x = some y ∧ g y = w x) :
    ∃ ys, xs.mapM f = some ys ∧ ys.map g = xs.map w := by
  induction xs with
  | nil => exact ⟨[], rfl, rfl⟩
  | cons x xs ih =>
    obtain ⟨y, hy, hg⟩ := h x (by simp)
    obtain ⟨ys, hys, hgs⟩ := ih (fun x' hx' => h x' (by simp [hx']))
    refine ⟨y :: ys, ?_, by simp [hg, hgs]⟩
    rw [List.mapM_cons, hy, hys]
    rfl

/-- Two loops in a row are one loop of both steps. -/
theorem mapM_bind_mapM {γ : Type} (xs : List α) (f : α → Option β) (g : β → Option γ) :
    (xs.mapM f).bind (fun ys => ys.mapM g) = xs.mapM fun x => (f x).bind g := by
  induction xs with
  | nil => rfl
  | cons x xs ih =>
    rw [List.mapM_cons, List.mapM_cons, ← ih]
    cases f x with
    | none => rfl
    | some y =>
      cases xs.mapM f with
      | none => cases hy : g y <;> simp [hy]
      | some ys => simp

/-- A loop over a list made of pieces runs piece by piece. -/
theorem mapM_flatMap {γ : Type} {xs : List α} {g : α → List β} {f : β → Option γ}
    {w : α → List γ} (h : ∀ x ∈ xs, (g x).mapM f = some (w x)) :
    (xs.flatMap g).mapM f = some (xs.flatMap w) := by
  induction xs with
  | nil => rfl
  | cons x xs ih =>
    rw [List.flatMap_cons, List.mapM_append, h x (by simp), ih (fun y hy => h y (by simp [hy]))]
    rfl

/-- The members of what a loop collects. -/
theorem mem_of_mapM {xs : List α} {f : α → Option β} {ys : List β} (h : xs.mapM f = some ys)
    {y : β} : y ∈ ys ↔ ∃ x ∈ xs, f x = some y := by
  induction xs generalizing ys with
  | nil =>
    cases h
    simp
  | cons x xs ih =>
    rw [List.mapM_cons] at h
    cases hx : f x with
    | none => simp [hx] at h
    | some z =>
      cases hxs : xs.mapM f with
      | none => simp [hx, hxs] at h
      | some zs =>
        simp only [hx, hxs, Option.bind_eq_bind, Option.bind_some] at h
        cases h
        simp only [List.mem_cons, ih hxs, exists_eq_or_imp, hx, Option.some.injEq]
        constructor
        · rintro (rfl | h)
          · exact .inl rfl
          · exact .inr h
        · rintro (rfl | h)
          · exact .inl rfl
          · exact .inr h

/-- A loop that collects visits every element. -/
theorem exists_of_mapM {xs : List α} {f : α → Option β} {ys : List β} (h : xs.mapM f = some ys)
    {x : α} (hx : x ∈ xs) : ∃ y ∈ ys, f x = some y := by
  induction xs generalizing ys with
  | nil => cases hx
  | cons a xs ih =>
    rw [List.mapM_cons] at h
    obtain ⟨b, hb, h⟩ := Option.bind_eq_some_iff.mp h
    obtain ⟨bs, hbs, h⟩ := Option.bind_eq_some_iff.mp h
    cases h
    rcases List.mem_cons.mp hx with rfl | hx
    · exact ⟨b, by simp, hb⟩
    · obtain ⟨y, hy, hf⟩ := ih hbs hx
      exact ⟨y, by simp [hy], hf⟩

theorem length_of_mapM {xs : List α} {f : α → Option β} {ys : List β} (h : xs.mapM f = some ys) :
    ys.length = xs.length := by
  induction xs generalizing ys with
  | nil =>
    cases h
    rfl
  | cons a xs ih =>
    rw [List.mapM_cons] at h
    obtain ⟨b, hb, h⟩ := Option.bind_eq_some_iff.mp h
    obtain ⟨bs, hbs, h⟩ := Option.bind_eq_some_iff.mp h
    cases h
    rw [List.length_cons, List.length_cons, ih hbs]

theorem mapM_congr {xs : List α} {f g : α → Option β} (h : ∀ x ∈ xs, f x = g x) :
    xs.mapM f = xs.mapM g := by
  induction xs with
  | nil => rfl
  | cons a xs ih =>
    rw [List.mapM_cons, List.mapM_cons, h a (by simp), ih fun x hx => h x (by simp [hx])]

theorem mapM_mono {xs : List α} {f g : α → Option β} {ys : List β}
    (h : ∀ x ∈ xs, ∀ y, f x = some y → g x = some y) (hf : xs.mapM f = some ys) :
    xs.mapM g = some ys := by
  rw [← hf]
  refine (mapM_congr fun x hx => ?_).symm
  obtain ⟨y, -, hy⟩ := exists_of_mapM hf hx
  rw [hy, h x hx y hy]

theorem getElem_of_mapM {xs : List α} {f : α → Option β} {ys : List β} (h : xs.mapM f = some ys)
    {i : Nat} (hi : i < xs.length) (hi' : i < ys.length) : f xs[i] = some ys[i] := by
  induction xs generalizing ys i with
  | nil => cases hi
  | cons a xs ih =>
    rw [List.mapM_cons] at h
    obtain ⟨b, hb, h⟩ := Option.bind_eq_some_iff.mp h
    obtain ⟨bs, hbs, h⟩ := Option.bind_eq_some_iff.mp h
    cases h
    cases i with
    | zero => exact hb
    | succ i => exact ih hbs (Nat.lt_of_succ_lt_succ hi) (Nat.lt_of_succ_lt_succ hi')

/-- A relation between elements carries over to their images. -/
theorem pairwise_of_mapM {R : α → α → Prop} {S : β → β → Prop} {xs : List α} {f : α → Option β}
    {ys : List β} (h : xs.mapM f = some ys)
    (hRS : ∀ a a' b b', R a a' → f a = some b → f a' = some b' → S b b') (hR : xs.Pairwise R) :
    ys.Pairwise S := by
  induction xs generalizing ys with
  | nil =>
    cases h
    exact List.Pairwise.nil
  | cons a xs ih =>
    rw [List.mapM_cons] at h
    obtain ⟨b, hb, h⟩ := Option.bind_eq_some_iff.mp h
    obtain ⟨bs, hbs, h⟩ := Option.bind_eq_some_iff.mp h
    cases h
    obtain ⟨hhead, htail⟩ := List.pairwise_cons.mp hR
    refine List.Pairwise.cons ?_ (ih hbs htail)
    intro b' hb'
    obtain ⟨a', ha', hfa'⟩ := (mem_of_mapM hbs).mp hb'
    exact hRS a a' b b' (hhead a' ha') hb hfa'

/-- A loop over a state whose every step goes through and keeps `P`. -/
theorem foldlM_keeps {P : σ → Prop} {xs : List α} {f : σ → α → Option σ}
    (h : ∀ s, P s → ∀ x ∈ xs, ∃ s', f s x = some s' ∧ P s') {s : σ} (hs : P s) :
    ∃ s', xs.foldlM f s = some s' ∧ P s' := by
  induction xs generalizing s with
  | nil => exact ⟨s, rfl, hs⟩
  | cons a xs ih =>
    obtain ⟨s₁, hstep, hs₁⟩ := h s hs a (by simp)
    obtain ⟨s', hrun, hs'⟩ := ih (fun t ht x hx => h t ht x (by simp [hx])) hs₁
    refine ⟨s', ?_, hs'⟩
    rw [List.foldlM_cons, hstep]
    exact hrun

/-- `mapM` over the indices of a list, each read giving its element. -/
theorem mapM_range_eq_some (xs : List α) (f : Nat → Option α)
    (h : ∀ i (hi : i < xs.length), f i = some xs[i]) :
    (List.range xs.length).mapM f = some xs := by
  cases xs with
  | nil => rfl
  | cons a xs =>
    have hstep : ∀ i ∈ List.range (a :: xs).length, f i = some ((a :: xs).getD i a) := by
      intro i hi
      have hlt : i < (a :: xs).length := by simpa using hi
      rw [h i hlt, List.getD_eq_getElem?_getD, List.getElem?_eq_getElem hlt, Option.getD_some]
    rw [mapM_eq_some hstep]
    congr 1
    apply List.ext_getElem
    · simp
    · intro i h1 h2
      simp [List.getElem?_eq_getElem h2]

/-- The same from index `a` on. -/
theorem mapM_range'_eq_some (xs : List α) (f : Nat → Option α) (a : Nat)
    (h : ∀ i (hi : i < xs.length), f (a + i) = some xs[i]) :
    (List.range' a xs.length).mapM f = some xs := by
  rw [List.range'_eq_map_range, List.mapM_map]
  exact mapM_range_eq_some xs _ h

/-! ## Validators -/

section validators
variable {ε : Type}

/-- Refuse with `e` unless `p`. -/
def check (p : Prop) [Decidable p] (e : ε) : Except ε Unit := if p then .ok () else .error e

/-- Run a check only where `p` holds. -/
def onlyIf (p : Prop) [Decidable p] (c : Except ε Unit) : Except ε Unit := if p then c else .ok ()

/-- Run a check over a list, the first refusal first. -/
def each (f : α → Except ε Unit) : List α → Except ε Unit
  | [] => .ok ()
  | a :: rest => do
    f a
    each f rest

theorem bind_ok {x : Except ε α} {f : α → Except ε β} {r : β} :
    (x >>= f) = .ok r ↔ ∃ a, x = .ok a ∧ f a = .ok r := by
  cases x <;> simp [bind, Except.bind]

theorem check_ok {p : Prop} [Decidable p] {e : ε} {u : Unit} : check p e = .ok u ↔ p := by
  unfold check
  by_cases h : p <;> simp [h]

theorem check_bind_ok {p : Prop} [Decidable p] {e : ε} {f : Unit → Except ε β} {r : β} :
    (check p e >>= f) = .ok r ↔ p ∧ f () = .ok r := by
  unfold check
  by_cases h : p <;> simp [h, bind, Except.bind]

theorem onlyIf_ok {p : Prop} [Decidable p] {c : Except ε Unit} {u : Unit} :
    onlyIf p c = .ok u ↔ (p → c = .ok ()) := by
  unfold onlyIf
  by_cases h : p <;> simp [h]

theorem each_ok {f : α → Except ε Unit} {l : List α} {u : Unit} :
    each f l = .ok u ↔ ∀ a ∈ l, f a = .ok () := by
  induction l with
  | nil => simp [each]
  | cons a l ih =>
    rw [each, bind_ok]
    constructor
    · rintro ⟨⟨⟩, ha, hl⟩
      intro b hb
      rcases List.mem_cons.mp hb with rfl | hb
      · exact ha
      · exact ih.mp hl b hb
    · intro h
      exact ⟨(), h a (by simp), ih.mpr fun b hb => h b (by simp [hb])⟩

end validators

end FaultLib
