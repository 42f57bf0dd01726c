import Mathlib.Tactic
import Mathlib.Data.List.Basic

/-! # Folds that settle

    A step settles under `e` when it leaves every state alone, brings every
    state to the same one, or does what `e` does. With `e` idempotent such steps
    compose to such a step, so a list of them applied twice is the list applied
    once. A last-wins cell settles under the identity. -/

namespace SettleLib

variable {S T A : Type}

/-- `f` is the identity, a constant, or `e`. -/
def Settles (e f : S → S) : Prop :=
  (∀ x, f x = x) ∨ (∃ c, ∀ x, f x = c) ∨ ∀ x, f x = e x

variable {e f g : S → S}

theorem Settles.keeps (h : ∀ x, f x = x) : Settles e f := .inl h

theorem Settles.sets {c : S} (h : ∀ x, f x = c) : Settles e f := .inr (.inl ⟨c, h⟩)

theorem Settles.same (h : ∀ x, f x = e x) : Settles e f := .inr (.inr h)

theorem Settles.comp (he : ∀ x, e (e x) = e x) (hf : Settles e f) (hg : Settles e g) :
    Settles e fun x => g (f x) := by
  rcases hg with hg | ⟨c, hg⟩ | hg
  · simpa [hg] using hf
  · exact .sets fun x => hg (f x)
  · rcases hf with hf | ⟨c, hf⟩ | hf
    · exact .same fun x => by rw [hg, hf]
    · exact .sets fun x => by rw [hg, hf]
    · exact .same fun x => by rw [hg, hf, he]

theorem Settles.idem (he : ∀ x, e (e x) = e x) (hf : Settles e f) (x : S) : f (f x) = f x := by
  rcases hf with hf | ⟨c, hf⟩ | hf
  · rw [hf]
  · rw [hf, hf]
  · rw [hf, hf, he]

/-- A fold of steps that settle settles. -/
theorem Settles.foldl (he : ∀ x, e (e x) = e x) {step : S → A → S}
    (h : ∀ a, Settles e fun x => step x a) (l : List A) : Settles e fun x => l.foldl step x := by
  induction l with
  | nil => exact .keeps fun _ => rfl
  | cons a l ih => exact (h a).comp he ih

/-- So a cell of a larger state, whose steps settle, is as after one fold. -/
theorem foldl_twice (he : ∀ x, e (e x) = e x) {step : S → A → S}
    (h : ∀ a, Settles e fun x => step x a) (cell : T → S) {next : T → A → T}
    (hcell : ∀ t a, cell (next t a) = step (cell t) a) (l : List A) (t : T) :
    cell (l.foldl next (l.foldl next t)) = cell (l.foldl next t) := by
  have hfold : ∀ t, cell (l.foldl next t) = l.foldl step (cell t) :=
    fun t => (List.foldl_hom cell fun t a => (hcell t a).symm).symm
  rw [hfold, hfold]
  exact (Settles.foldl he h l).idem he (cell t)

/-! ## Steps that shrink -/

/-- A step that leaves a state alone or makes it smaller leaves it alone after as many
    steps as the state is large. -/
theorem iterate_settles {f : S → S} {Inv : S → Prop} {size : S → Nat}
    (hinv : ∀ x, Inv x → Inv (f x)) (hstep : ∀ x, Inv x → f x = x ∨ size (f x) < size x) {x : S}
    (hx : Inv x) {n : Nat} (hn : size x ≤ n) : f (f^[n] x) = f^[n] x := by
  induction n generalizing x with
  | zero =>
    rcases hstep x hx with hfix | hlt
    · exact hfix
    · omega
  | succ n ih =>
    rw [Function.iterate_succ_apply]
    rcases hstep x hx with hfix | hlt
    · rw [hfix, Function.iterate_fixed hfix]
      exact hfix
    · exact ih (hinv x hx) (by omega)

end SettleLib
