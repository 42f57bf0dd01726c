import GraphR.Library.Run
import Mathlib.Data.Option.Basic

/-! # Simulation of runs

    Two machines that take the same actions, and a relation between their states: where
    every action finds related states, passes a check and leaves related states, or is
    enabled in neither, so does every run whose actions all pass.

    And two machines of which one is seen in the other: where every step is a step of the
    other between the states seen, or leaves them alone, a run is one of the other. -/

namespace RunLib

variable {S T A : Type} (step : S → A → Option S) (check : S → A → Bool)

/-- Every action of a run passes the check in the state it is taken from. -/
def passes : S → List A → Bool
  | _, [] => true
  | s, a :: as => check s a && (step s a).all fun s' => passes s' as

variable {step check} {step' : T → A → Option T} {R : S → T → Prop}

theorem simulates (hstep : ∀ s t a, R s t → check s a = true → Option.Rel R (step s a) (step' t a))
    {s : S} {t : T} {as : List A} (hst : R s t) (hpass : passes step check s as = true) :
    Option.Rel R (run step s as) (run step' t as) := by
  induction as generalizing s t with
  | nil => exact .some hst
  | cons a as ih =>
    simp only [passes, Bool.and_eq_true] at hpass
    have hone := hstep s t a hst hpass.1
    have hrest := hpass.2
    unfold run at ih ⊢
    rw [List.foldlM_cons, List.foldlM_cons]
    generalize step s a = s', step' t a = t' at hone hrest ⊢
    cases hone with
    | none => exact .none
    | some h => exact ih h hrest

/-! ## One machine seen in another -/

section projection
variable {B : Type}

/-- The actions of the other machine that those of a run mean. -/
def project (step : S → A → Option S) (m : S → A → Option B) : S → List A → List B
  | _, [] => []
  | s, a :: as => (m s a).toList ++ (step s a).elim [] fun t => project step m t as

variable {m : S → A → Option B} {cond : S → A → Prop} {cond' : T → B → Prop}
  {step' : T → B → Option T}

theorem project_snoc {s t : S} {as : List A} {a : A} (hrun : run step s as = some t) :
    project step m s (as ++ [a]) = project step m s as ++ (m t a).toList := by
  induction as generalizing s with
  | nil =>
    cases hrun
    simp only [List.nil_append, project]
    cases step t a <;> simp
  | cons b as ih =>
    rw [run, List.foldlM_cons] at hrun
    obtain ⟨u, hu, hrest⟩ := Option.bind_eq_some_iff.mp hrun
    rw [List.cons_append, project, project, hu, Option.elim_some, Option.elim_some, ih hrest,
      List.append_assoc]

/-- A run seen through `see` is a run of the other machine, where an invariant of the first
    makes each of its steps the one it means. -/
theorem Run.project {see : S → T} {Inv : S → Prop} {s t : S} {as : List A}
    (h : Run step cond s as t) (hinit : Inv s)
    (hkeep : ∀ s a s', Inv s → step s a = some s' → Inv s')
    (hmeans : ∀ s a s', Inv s → step s a = some s' →
      (m s a).elim (some (see s)) (step' (see s)) = some (see s'))
    (hcond : ∀ s a b, cond s a → m s a = some b → cond' (see s) b) :
    Run step' cond' (see s) (project step m s as) (see t) := by
  induction h with
  | nil => exact .nil
  | @snoc as t u a hrun hc hstep ih =>
    have hinv : Inv t := hrun.invariant hinit fun s a s' hs _ hstep => hkeep s a s' hs hstep
    have hone := hmeans t a u hinv hstep
    rw [project_snoc hrun.run_eq]
    cases hm : m t a with
    | none =>
      rw [hm] at hone
      rw [Option.toList_none, List.append_nil, ← Option.some.inj hone]
      exact ih
    | some b =>
      rw [hm] at hone
      exact .snoc ih (hcond t a b hc hm) hone

end projection

end RunLib
