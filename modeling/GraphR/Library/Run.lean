import Mathlib.Tactic
import Mathlib.Data.List.Basic

/-! # Runs of a transition function

    A machine is a function `step s a`, `none` where action `a` is not enabled
    in `s`. A run under a condition is one whose every step meets the condition
    in the state it is taken from; what such a step keeps, such a run keeps. -/

namespace RunLib

variable {S A : Type} (step : S → A → Option S)

/-- The state after a list of actions. -/
def run (s : S) (as : List A) : Option S := as.foldlM step s

theorem run_append (s : S) (as bs : List A) :
    run step s (as ++ bs) = (run step s as).bind fun t => run step t bs := by
  unfold run
  rw [List.foldlM_append]
  rfl

/-- A run from `s` to `t` along `as` whose steps all meet `cond`. -/
inductive Run (cond : S → A → Prop) (s : S) : List A → S → Prop where
  | nil : Run cond s [] s
  | snoc {as : List A} {t u : S} {a : A} :
      Run cond s as t → cond t a → step t a = some u → Run cond s (as ++ [a]) u

variable {step} {cond : S → A → Prop}

/-- What every step that meets the condition keeps holds at the end of every
    run whose steps meet it. -/
theorem Run.invariant {Inv : S → Prop} {s t : S} {as : List A} (h : Run step cond s as t)
    (hinit : Inv s) (hstep : ∀ s a s', Inv s → cond s a → step s a = some s' → Inv s') :
    Inv t := by
  induction h with
  | nil => exact hinit
  | snoc _ hc hs ih => exact hstep _ _ _ ih hc hs

theorem Run.run_eq {s t : S} {as : List A} (h : Run step cond s as t) :
    run step s as = some t := by
  induction h with
  | nil => rfl
  | snoc _ _ hs ih => rw [run, List.foldlM_append] at *; simp [ih, hs]

/-- A run under a stronger condition is one under a weaker one. -/
theorem Run.mono {cond' : S → A → Prop} {s t : S} {as : List A} (h : Run step cond s as t)
    (hc : ∀ s a, cond s a → cond' s a) : Run step cond' s as t := by
  induction h with
  | nil => exact .nil
  | snoc _ hca hs ih => exact .snoc ih (hc _ _ hca) hs

/-- Where the states of a run keep an invariant, a condition that is enough there
    is enough. -/
theorem Run.strengthen {cond' : S → A → Prop} {Inv : S → Prop} {s t : S} {as : List A}
    (h : Run step cond s as t) (hinit : Inv s)
    (hstep : ∀ s a s', Inv s → cond s a → step s a = some s' → Inv s')
    (hc : ∀ s a, Inv s → cond s a → cond' s a) : Run step cond' s as t := by
  induction h with
  | nil => exact .nil
  | snoc hrun hca hs ih => exact .snoc ih (hc _ _ (hrun.invariant hinit hstep) hca) hs

variable (step) in
/-- The state after a list of actions that all pass a check. -/
def checkedRun (check : S → A → Bool) (s : S) (as : List A) : Option S :=
  as.foldlM (fun s a => if check s a then step s a else none) s

/-- A checked run is one under any condition the check is enough for. -/
theorem Run.of_checkedRun {check : S → A → Bool} (hcheck : ∀ s a, check s a = true → cond s a)
    {s t : S} {as : List A} (h : checkedRun step check s as = some t) : Run step cond s as t := by
  induction as using List.reverseRecOn generalizing t with
  | nil =>
    cases h
    exact .nil
  | append_singleton as a ih =>
    unfold checkedRun at h ih
    rw [List.foldlM_append] at h
    obtain ⟨u, hu, hlast⟩ := Option.bind_eq_some_iff.mp h
    simp only [List.foldlM_cons, List.foldlM_nil] at hlast
    split_ifs at hlast with hc
    · exact .snoc (ih hu) (hcheck u a hc) (by simpa using hlast)
    · simp at hlast

/-! ## Total steps -/

section total
variable {f : S → A → S} {R : S → S → Prop}

/-- The states a run goes through are related in order if and only if each step
    relates them. -/
theorem pairwise_scanl_iff (htrans : ∀ a b c, R a b → R b c → R a c) (as : List A) (s : S) :
    (as.scanl f s).Pairwise R ↔
      ∀ pre a post, as = pre ++ a :: post → R (pre.foldl f s) (f (pre.foldl f s) a) := by
  induction as generalizing s with
  | nil => simp
  | cons a as ih =>
    rw [List.scanl_cons, List.pairwise_cons, ih]
    constructor
    · rintro ⟨hfirst, hrest⟩ pre b post heq
      cases pre with
      | nil =>
        cases heq
        exact hfirst _ (List.mem_of_mem_head? List.head?_scanl)
      | cons c pre =>
        obtain ⟨rfl, rfl⟩ := List.cons.inj heq
        exact hrest pre b post rfl
    · intro hstep
      have hrest : ∀ pre b post, as = pre ++ b :: post →
          R (pre.foldl f (f s a)) (f (pre.foldl f (f s a)) b) := by
        rintro pre b post rfl
        exact hstep (a :: pre) b post rfl
      have hone : R s (f s a) := hstep [] a as rfl
      refine ⟨?_, hrest⟩
      -- the later states are related to the first of them
      intro t ht
      have hpair := (ih (f s a)).mpr hrest
      cases as with
      | nil =>
        rw [List.scanl_nil, List.mem_singleton] at ht
        rw [ht]
        exact hone
      | cons b as =>
        rw [List.scanl_cons] at ht hpair
        rcases List.mem_cons.mp ht with rfl | ht
        · exact hone
        · exact htrans _ _ _ hone ((List.pairwise_cons.mp hpair).1 t ht)

end total

end RunLib
