import GraphR.Multi.Step
import Mathlib.Data.Finset.Basic

/-! # Waiting for the commit lock

    `lock_within`, call by call, among any number of writers. The commit lock is
    `graph.lock`; a writer that has to wait announces itself with a shared lock on
    the turnstile `graph.wait`, and one that finds anyone announced does not take
    the commit lock ahead of them.

    A step is one system call of one writer, the death of one, or the passing of
    time. Times are microseconds; a pause lasts its length or longer. A lock that
    cannot be examined ends the call (`fault`); `unlock` never fails. -/

namespace GraphR.Multi.Turnstile

open RunLib

/-! ## State -/

/-- The pause before the first retry. -/
def napMin : Nat := 250
/-- The longest pause between retries. -/
def napMax : Nat := 2000

/-- The first pause: a full one for a writer that queued behind others. -/
def firstNap (queued : Bool) : Nat := if queued then napMax else napMin

/-- A call that waits: for how long, and since when. -/
structure Call where
  wait : Nat
  start : Nat
  deriving DecidableEq

/-- What is left of the wait. -/
def Call.left (c : Call) (now : Nat) : Nat := c.wait - (now - c.start)

/-- When the wait is over. -/
def Call.deadline (c : Call) : Nat := c.start + c.wait

/-- What a writer does next. -/
inductive At where
  /-- It is not in a call, and does not hold the commit lock. -/
  | out
  /-- `turnstile.try_lock()`. -/
  | probe (wait : Nat)
  /-- `turnstile.unlock()` of the probe. -/
  | probed (wait : Nat)
  /-- The attempt on the commit lock with nobody announced. -/
  | first (wait : Nat)
  /-- `turnstile.try_lock_shared()`. -/
  | announce (c : Call) (queued : Bool)
  /-- Asleep before it announces itself again. -/
  | standing (c : Call) (queued : Bool) (wake : Nat)
  /-- Announced; `left()` is read. -/
  | pause (c : Call) (nap : Nat)
  /-- Announced and asleep. -/
  | asleep (c : Call) (nap wake : Nat)
  /-- Announced; the attempt on the commit lock. -/
  | trying (c : Call) (nap : Nat)
  /-- It has the commit lock; the turnstile is unlocked next. -/
  | won
  /-- It gives up; the turnstile is unlocked next. -/
  | lost
  /-- It has the commit lock, and `lock_within` returned. -/
  | holds
  deriving DecidableEq

namespace At

/-- It holds the turnstile alone. -/
def probes : At → Bool
  | probed _ => true
  | _ => false

/-- It holds the turnstile shared. -/
def announced : At → Bool
  | pause .. | asleep .. | trying .. | won | lost => true
  | _ => false

/-- It holds the commit lock. -/
def owns : At → Bool
  | won | holds => true
  | _ => false

/-- It is about to try the commit lock, as a waiter. -/
def tries : At → Bool
  | trying .. => true
  | _ => false

/-- It is about to try the commit lock ahead of every waiter. -/
def fast : At → Bool
  | first _ => true
  | _ => false

/-- The wait it is in. -/
def call : At → Option Call
  | announce c _ | standing c _ _ | pause c _ | asleep c _ _ | trying c _ => some c
  | _ => none

/-- Until when it leaves the processor alone: a sleeper until it wakes, a holder
    and one outside for as long as it likes; everyone else is at work. -/
def idleUntil (now : Nat) : At → Option Nat
  | out | holds => none
  | standing _ _ wake | asleep _ _ wake => some wake
  | _ => some now

end At

/-- The clock, the two locks, and where every writer stands. -/
structure State where
  now : Nat
  /-- The exclusive lock on the turnstile. -/
  excl : Option Nat
  /-- The shared locks on it. -/
  shared : Finset Nat
  /-- The commit lock. -/
  commit : Option Nat
  pc : Nat → At

def State.init : State := ⟨0, none, ∅, none, fun _ => .out⟩

namespace State

variable (s : State)

def move (p : Nat) (x : At) : State := { s with pc := Function.update s.pc p x }

@[simp] theorem now_move (p : Nat) (x : At) : (s.move p x).now = s.now := rfl
@[simp] theorem excl_move (p : Nat) (x : At) : (s.move p x).excl = s.excl := rfl
@[simp] theorem shared_move (p : Nat) (x : At) : (s.move p x).shared = s.shared := rfl
@[simp] theorem commit_move (p : Nat) (x : At) : (s.move p x).commit = s.commit := rfl
@[simp] theorem pc_move (p : Nat) (x : At) : (s.move p x).pc p = x := Function.update_self ..

theorem pc_move_of_ne {p q : Nat} (h : q ≠ p) (x : At) : (s.move p x).pc q = s.pc q :=
  Function.update_of_ne h ..

end State

/-! ## Steps -/

inductive Act where
  /-- A call of `lock_within`. -/
  | arrive (p wait : Nat)
  /-- The next system call of `p`. -/
  | proceed (p : Nat)
  /-- It fails. -/
  | fault (p : Nat)
  /-- The commit lock is dropped. -/
  | release (p : Nat)
  /-- The process dies; its locks go with it. -/
  | crash (p : Nat)
  | tick (n : Nat)
  deriving DecidableEq

/-- `lock_within`, from one system call to the next. -/
def proceed (s : State) (p : Nat) : Option State :=
  match s.pc p with
  | .probe wait =>
    if s.excl = none ∧ s.shared = ∅ then some ({ s with excl := some p }.move p (.probed wait))
    else if wait = 0 then some (s.move p .out)
    else some (s.move p (.announce ⟨wait, s.now⟩ true))
  | .probed wait => some ({ s with excl := none }.move p (.first wait))
  | .first wait =>
    if s.commit = none then some ({ s with commit := some p }.move p .holds)
    else if wait = 0 then some (s.move p .out)
    else some (s.move p (.announce ⟨wait, s.now⟩ false))
  | .announce c queued =>
    if s.excl = none then
      some ({ s with shared := insert p s.shared }.move p (.pause c (firstNap queued)))
    else if c.left s.now = 0 then some (s.move p .out)
    else some (s.move p (.standing c queued (s.now + min napMin (c.left s.now))))
  | .standing c queued wake =>
    if wake ≤ s.now then some (s.move p (.announce c queued)) else none
  | .pause c nap =>
    if c.left s.now = 0 then some (s.move p .lost)
    else some (s.move p (.asleep c nap (s.now + min nap (c.left s.now))))
  | .asleep c nap wake =>
    if wake ≤ s.now then some (s.move p (.trying c (min (nap * 2) napMax))) else none
  | .trying c nap =>
    if s.commit = none then some ({ s with commit := some p }.move p .won)
    else some (s.move p (.pause c nap))
  | .won => some ({ s with shared := s.shared.erase p }.move p .holds)
  | .lost => some ({ s with shared := s.shared.erase p }.move p .out)
  | .out | .holds => none

/-- The lock cannot be examined: the call ends, a waiter unlocking the turnstile
    first. -/
def fault (s : State) (p : Nat) : Option State :=
  match s.pc p with
  | .probe _ | .first _ | .announce _ _ => some (s.move p .out)
  | .trying _ _ => some (s.move p .lost)
  | _ => none

def step (s : State) : Act → Option State
  | .arrive p wait => if s.pc p = .out then some (s.move p (.probe wait)) else none
  | .proceed p => proceed s p
  | .fault p => fault s p
  | .release p =>
    if s.pc p = .holds then some ({ s with commit := none }.move p .out) else none
  | .crash p =>
    some ({ s with
      excl := if s.excl = some p then none else s.excl
      shared := s.shared.erase p
      commit := if s.commit = some p then none else s.commit }.move p .out)
  | .tick n => some { s with now := s.now + n }

/-! ## The locks and the calls agree -/

/-- Who holds which lock is what the calls say; nobody is announced while a probe
    holds the turnstile. -/
structure Agrees (s : State) : Prop where
  excl : ∀ p, s.excl = some p ↔ (s.pc p).probes = true
  shared : ∀ p, p ∈ s.shared ↔ (s.pc p).announced = true
  commit : ∀ p, s.commit = some p ↔ (s.pc p).owns = true
  apart : s.excl ≠ none → s.shared = ∅

theorem agrees_init : Agrees .init := by
  refine ⟨?_, ?_, ?_, ?_⟩ <;> intro p <;> simp_all [State.init, At.probes, At.announced, At.owns]

/-- One writer moves, and the locks change for it alone. -/
theorem Agrees.move {s : State} (h : Agrees s) {p : Nat} {x : At} {excl : Option Nat}
    {shared : Finset Nat} {commit : Option Nat}
    (hexcl : ∀ q, excl = some q ↔ if q = p then x.probes = true else s.excl = some q)
    (hshared : ∀ q, q ∈ shared ↔ if q = p then x.announced = true else q ∈ s.shared)
    (hcommit : ∀ q, commit = some q ↔ if q = p then x.owns = true else s.commit = some q)
    (hapart : excl ≠ none → shared = ∅) :
    Agrees (State.move { s with excl, shared, commit } p x) := by
  refine ⟨fun q => ?_, fun q => ?_, fun q => ?_, hapart⟩
  · by_cases hq : q = p
    · subst hq
      simpa using hexcl q
    · rw [State.pc_move_of_ne _ hq]
      simpa [hq, h.excl q] using hexcl q
  · by_cases hq : q = p
    · subst hq
      simpa using hshared q
    · rw [State.pc_move_of_ne _ hq]
      simpa [hq, h.shared q] using hshared q
  · by_cases hq : q = p
    · subst hq
      simpa using hcommit q
    · rw [State.pc_move_of_ne _ hq]
      simpa [hq, h.commit q] using hcommit q

/-- One writer moves on, holding what it held. -/
theorem Agrees.keep {s : State} (h : Agrees s) {p : Nat} {x : At}
    (hprobes : x.probes = (s.pc p).probes) (hannounced : x.announced = (s.pc p).announced)
    (howns : x.owns = (s.pc p).owns) : Agrees (s.move p x) := by
  apply @Agrees.move s h p x s.excl s.shared s.commit _ _ _ h.apart
  · intro q
    split_ifs with hq
    · rw [hq, hprobes, h.excl]
    · rfl
  · intro q
    split_ifs with hq
    · rw [hq, hannounced, h.shared]
    · rfl
  · intro q
    split_ifs with hq
    · rw [hq, howns, h.commit]
    · rfl

/-- A writer takes the free commit lock. -/
theorem Agrees.take {s : State} (h : Agrees s) {p : Nat} {x : At} (hfree : s.commit = none)
    (hprobes : x.probes = (s.pc p).probes) (hannounced : x.announced = (s.pc p).announced)
    (howns : x.owns = true) : Agrees (State.move { s with commit := some p } p x) := by
  apply @Agrees.move s h p x s.excl s.shared (some p) _ _ _ h.apart
  · intro q
    split_ifs with hq
    · rw [hq, hprobes, h.excl]
    · rfl
  · intro q
    split_ifs with hq
    · rw [hq, hannounced, h.shared]
    · rfl
  · intro q
    by_cases hq : q = p
    · simp [hq, howns]
    · simp [hq, Ne.symm hq, hfree]

/-- A waiter unlocks the turnstile. -/
theorem Agrees.unshare {s : State} (h : Agrees s) {p : Nat} {x : At}
    (hprobes : x.probes = (s.pc p).probes) (hannounced : x.announced = false)
    (howns : x.owns = (s.pc p).owns) :
    Agrees (State.move { s with shared := s.shared.erase p } p x) := by
  apply @Agrees.move s h p x s.excl (s.shared.erase p) s.commit
  · intro q
    split_ifs with hq
    · rw [hq, hprobes, h.excl]
    · rfl
  · intro q
    by_cases hq : q = p
    · simp [hq, hannounced]
    · simp [hq]
  · intro q
    split_ifs with hq
    · rw [hq, howns, h.commit]
    · rfl
  · intro hne
    rw [h.apart hne, Finset.erase_empty]

theorem Agrees.proceed {s t : State} {p : Nat} (h : Agrees s) (hstep : proceed s p = some t) :
    Agrees t := by
  have hexcl := h.excl p
  have hshared := h.shared p
  have hcommit := h.commit p
  unfold Turnstile.proceed at hstep
  match hpc : s.pc p with
  | .out | .holds => simp [hpc] at hstep
  | .probe wait =>
    simp only [hpc] at hstep hexcl hshared hcommit
    -- it passes, is told `Locked` at once, or goes to the loop with a wait
    split_ifs at hstep with hfree hzero
    · -- the probe has the turnstile to itself
      cases hstep
      apply h.move
      · intro q
        by_cases hq : q = p
        · simp [hq, At.probes]
        · simp [hq, Ne.symm hq, hfree.1]
      · intro q
        simp [At.announced, hfree.2]
      · intro q
        by_cases hq : q = p
        · simpa [hq, At.owns] using hcommit
        · simp [hq]
      · exact fun _ => hfree.2
    · cases hstep
      exact h.keep (by rw [hpc]; rfl) (by rw [hpc]; rfl) (by rw [hpc]; rfl)
    · cases hstep
      exact h.keep (by rw [hpc]; rfl) (by rw [hpc]; rfl) (by rw [hpc]; rfl)
  | .probed wait =>
    simp only [hpc] at hstep hexcl hshared hcommit
    cases hstep
    -- it gives back what only it held
    have hmine : s.excl = some p := hexcl.mpr rfl
    apply h.move
    · intro q
      by_cases hq : q = p
      · simp [hq, At.probes]
      · simp [hq, hmine, Ne.symm hq]
    · intro q
      by_cases hq : q = p
      · simpa [hq, At.announced] using hshared
      · simp [hq]
    · intro q
      by_cases hq : q = p
      · simpa [hq, At.owns] using hcommit
      · simp [hq]
    · simp
  | .first wait =>
    simp only [hpc] at hstep hexcl hshared hcommit
    split_ifs at hstep with hfree hzero
    · cases hstep
      exact h.take hfree (by rw [hpc]; rfl) (by rw [hpc]; rfl) rfl
    · cases hstep
      exact h.keep (by rw [hpc]; rfl) (by rw [hpc]; rfl) (by rw [hpc]; rfl)
    · cases hstep
      exact h.keep (by rw [hpc]; rfl) (by rw [hpc]; rfl) (by rw [hpc]; rfl)
  | .announce c queued =>
    simp only [hpc] at hstep hexcl hshared hcommit
    split_ifs at hstep with hfree hzero
    · -- announced among the waiting, which is shared and needs no probe to be on
      cases hstep
      apply h.move
      · intro q
        by_cases hq : q = p
        · simp [hq, hfree, At.probes]
        · simp [hq]
      · intro q
        by_cases hq : q = p
        · simp [hq, At.announced]
        · simp [hq]
      · intro q
        by_cases hq : q = p
        · simpa [hq, At.owns] using hcommit
        · simp [hq]
      · exact fun hne => absurd hfree hne
    · cases hstep
      exact h.keep (by rw [hpc]; rfl) (by rw [hpc]; rfl) (by rw [hpc]; rfl)
    · cases hstep
      exact h.keep (by rw [hpc]; rfl) (by rw [hpc]; rfl) (by rw [hpc]; rfl)
  | .standing c queued wake =>
    -- from here on only the clock of the call moves, until it tries the lock
    simp only [hpc] at hstep
    split_ifs at hstep with hwake
    cases hstep
    exact h.keep (by rw [hpc]; rfl) (by rw [hpc]; rfl) (by rw [hpc]; rfl)
  | .pause c nap =>
    simp only [hpc] at hstep
    split_ifs at hstep with hover
    · cases hstep
      exact h.keep (by rw [hpc]; rfl) (by rw [hpc]; rfl) (by rw [hpc]; rfl)
    · cases hstep
      exact h.keep (by rw [hpc]; rfl) (by rw [hpc]; rfl) (by rw [hpc]; rfl)
  | .asleep c nap wake =>
    simp only [hpc] at hstep
    split_ifs at hstep with hwake
    cases hstep
    exact h.keep (by rw [hpc]; rfl) (by rw [hpc]; rfl) (by rw [hpc]; rfl)
  | .trying c nap =>
    simp only [hpc] at hstep
    split_ifs at hstep with hfree
    · cases hstep
      exact h.take hfree (by rw [hpc]; rfl) (by rw [hpc]; rfl) rfl
    · cases hstep
      exact h.keep (by rw [hpc]; rfl) (by rw [hpc]; rfl) (by rw [hpc]; rfl)
  | .won =>
    simp only [hpc] at hstep
    cases hstep
    exact h.unshare (by rw [hpc]; rfl) rfl (by rw [hpc]; rfl)
  | .lost =>
    simp only [hpc] at hstep
    cases hstep
    exact h.unshare (by rw [hpc]; rfl) rfl (by rw [hpc]; rfl)

/-- Every step keeps the locks in line with the calls. -/
theorem Agrees.step {s t : State} {a : Act} (h : Agrees s) (hstep : step s a = some t) :
    Agrees t := by
  cases a with
  | arrive p wait =>
    simp only [Turnstile.step] at hstep
    split_ifs at hstep with hpc
    cases hstep
    exact h.keep (by rw [hpc]; rfl) (by rw [hpc]; rfl) (by rw [hpc]; rfl)
  | proceed p => exact h.proceed hstep
  | fault p =>
    simp only [Turnstile.step, fault] at hstep
    match hpc : s.pc p with
    | .probe wait | .first wait =>
      simp only [hpc] at hstep
      cases hstep
      exact h.keep (by rw [hpc]; rfl) (by rw [hpc]; rfl) (by rw [hpc]; rfl)
    | .announce c queued | .trying c nap =>
      simp only [hpc] at hstep
      cases hstep
      exact h.keep (by rw [hpc]; rfl) (by rw [hpc]; rfl) (by rw [hpc]; rfl)
    | .out | .holds | .won | .lost | .probed _ | .standing .. | .pause .. | .asleep .. =>
      simp [hpc] at hstep
  | release p =>
    simp only [Turnstile.step] at hstep
    split_ifs at hstep with hpc
    cases hstep
    have hmine : s.commit = some p := (h.commit p).mpr (by rw [hpc]; rfl)
    apply h.move
    · intro q
      by_cases hq : q = p
      · simpa [hq, hpc, At.probes] using h.excl p
      · simp [hq]
    · intro q
      by_cases hq : q = p
      · simpa [hq, hpc, At.announced] using h.shared p
      · simp [hq]
    · intro q
      by_cases hq : q = p
      · simp [hq, At.owns]
      · simp [hq, hmine, Ne.symm hq]
    · exact h.apart
  | crash p =>
    simp only [Turnstile.step] at hstep
    cases hstep
    apply h.move
    · intro q
      by_cases hq : q = p
      · by_cases hmine : s.excl = some p <;> simp [hq, hmine, At.probes]
      · by_cases hmine : s.excl = some p <;> simp [hq, hmine, Ne.symm hq]
    · intro q
      by_cases hq : q = p
      · simp [hq, At.announced]
      · simp [hq]
    · intro q
      by_cases hq : q = p
      · by_cases hmine : s.commit = some p <;> simp [hq, hmine, At.owns]
      · by_cases hmine : s.commit = some p <;> simp [hq, hmine, Ne.symm hq]
    · intro hne
      have hempty : s.shared = ∅ := by
        apply h.apart
        intro hnone
        simp [hnone] at hne
      simp [hempty]
  | tick n =>
    simp only [Turnstile.step] at hstep
    cases hstep
    exact ⟨h.excl, h.shared, h.commit, h.apart⟩

theorem agrees_run {s t : State} {cond : State → Act → Prop} {as : List Act} (h : Agrees s)
    (hrun : Run Turnstile.step cond s as t) : Agrees t :=
  hrun.invariant h fun _ _ _ hs _ hstep => hs.step hstep

/-- One writer at a time has the commit lock, and one that is not in a call and
    does not hold it has nothing of either lock. -/
theorem exclusive {t : State} {as : List Act} (hrun : Run Turnstile.step (fun _ _ => True) .init as t) :
    (∀ p q, (t.pc p).owns = true → (t.pc q).owns = true → p = q) ∧
      ∀ p, t.pc p = .out → t.excl ≠ some p ∧ p ∉ t.shared ∧ t.commit ≠ some p := by
  have h := agrees_run agrees_init hrun
  constructor
  · intro p q hp hq
    have hpq : some p = some q := by
      rw [← (h.commit p).mpr hp, (h.commit q).mpr hq]
    exact Option.some.inj hpq
  · intro p hout
    refine ⟨?_, ?_, ?_⟩
    · rw [Ne, h.excl, hout]
      simp [At.probes]
    · rw [h.shared, hout]
      simp [At.announced]
    · rw [Ne, h.commit, hout]
      simp [At.owns]

/-- A writer takes the lock. -/
def oneHolds : List Act := [.arrive 0 0, .proceed 0, .proceed 0, .proceed 0]

/-- A second one asks in vain. -/
def twoAsk : List Act := oneHolds ++ [.arrive 1 0, .proceed 1, .proceed 1, .proceed 1]

/-- A run under no condition. -/
theorem run_of_some {s t : State} {as : List Act} (h : RunLib.run step s as = some t) :
    Run step (fun _ _ => True) s as t :=
  @Run.of_checkedRun _ _ step _ (fun _ _ => true) (fun _ _ _ => trivial) s t as h

theorem exclusive_twoAsk : ∃ t, RunLib.run step .init twoAsk = some t ∧
    (t.pc 0).owns = true ∧ t.pc 1 = .out ∧ 1 ∉ t.shared := by
  have hrun : RunLib.run step .init twoAsk = some _ := rfl
  exact ⟨_, hrun, rfl, rfl, ((exclusive (run_of_some hrun)).2 1 rfl).2.1⟩

/-! ### The lock of the protocol -/

/-- The writer a step is of. -/
def Act.actor : Act → Option Nat
  | .arrive p _ | .proceed p | .fault p | .release p | .crash p => some p
  | .tick _ => none

/-- A system call moves the writer that makes it, and takes no time. -/
theorem proceed_moves {s t : State} {p : Nat} (hstep : proceed s p = some t) :
    ∃ (u : State) (x : At), t = u.move p x ∧ u.pc = s.pc ∧ u.now = s.now ∧
      (u.commit = s.commit ∨ s.commit = none ∧ u.commit = some p) := by
  unfold proceed at hstep
  split at hstep
  case h_1 | h_3 | h_4 | h_5 | h_6 | h_7 | h_8 =>
    split_ifs at hstep <;> cases hstep <;>
      exact ⟨_, _, rfl, rfl, rfl, by simp_all⟩
  case h_2 | h_9 | h_10 =>
    cases hstep
    exact ⟨_, _, rfl, rfl, rfl, .inl rfl⟩
  case h_11 | h_12 => cases hstep

theorem fault_moves {s t : State} {p : Nat} (hstep : fault s p = some t) :
    ∃ x, t = s.move p x := by
  unfold fault at hstep
  split at hstep
  case h_5 => cases hstep
  all_goals
    cases hstep
    exact ⟨_, rfl⟩

/-- A writer moves by its own steps only. -/
theorem pc_of_step {s t : State} {a : Act} {p : Nat} (hne : a.actor ≠ some p)
    (hstep : step s a = some t) : t.pc p = s.pc p := by
  have hmove : ∀ {u : State} {q : Nat} {x : At}, some q ≠ some p → u.pc = s.pc →
      (u.move q x).pc p = s.pc p := by
    intro u q x hq hu
    rw [u.pc_move_of_ne (fun h => hq (congrArg some h.symm)), hu]
  cases a with
  | arrive q wait =>
    simp only [step] at hstep
    split_ifs at hstep
    cases hstep
    exact hmove hne rfl
  | proceed q =>
    obtain ⟨u, x, rfl, hu, -, -⟩ := proceed_moves hstep
    exact hmove hne hu
  | fault q =>
    obtain ⟨x, rfl⟩ := fault_moves hstep
    exact hmove hne rfl
  | release q =>
    simp only [step] at hstep
    split_ifs at hstep
    cases hstep
    exact hmove hne rfl
  | crash q =>
    cases hstep
    exact hmove hne rfl
  | tick n =>
    cases hstep
    rfl

/-- The commit lock as the protocol sees it. -/
def State.lock (s : State) : Lock := s.commit.elim .free fun p => .held (some p)

theorem State.lock_of_commit {s t : State} (h : t.commit = s.commit) : t.lock = s.lock := by
  rw [lock, lock, h]

theorem State.commit_of_lock {s : State} {p : Nat} (h : s.lock = .held (some p)) :
    s.commit = some p := by
  unfold lock at h
  cases hc : s.commit with
  | none =>
    rw [hc] at h
    cases h
  | some q =>
    rw [hc] at h
    cases h
    rfl

/-- The protocol's lock is taken when it is free, by a writer in a call, and freed
    by its holder: its release or its death. -/
theorem lock_step {s t : State} {a : Act} (h : Agrees s) (hstep : step s a = some t) :
    t.lock = s.lock ∨
      (∃ p, a = .proceed p ∧ s.lock = .free ∧ t.lock = .held (some p)) ∨
      ∃ p, (a = .release p ∨ a = .crash p) ∧ s.lock = .held (some p) ∧ t.lock = .free := by
  cases a with
  | arrive p wait =>
    simp only [step] at hstep
    split_ifs at hstep
    cases hstep
    exact .inl rfl
  | proceed p =>
    obtain ⟨u, x, rfl, -, -, hsame | ⟨hfree, htaken⟩⟩ := proceed_moves hstep
    · exact .inl (State.lock_of_commit hsame)
    · refine .inr (.inl ⟨p, rfl, ?_, ?_⟩)
      · rw [State.lock, hfree]
        rfl
      · rw [State.lock, State.commit_move, htaken]
        rfl
  | fault p =>
    obtain ⟨x, rfl⟩ := fault_moves hstep
    exact .inl rfl
  | release p =>
    simp only [step] at hstep
    split_ifs at hstep with hpc
    cases hstep
    have hmine : s.commit = some p := (h.commit p).mpr (by rw [hpc]; rfl)
    refine .inr (.inr ⟨p, .inl rfl, ?_, rfl⟩)
    rw [State.lock, hmine]
    rfl
  | crash p =>
    cases hstep
    by_cases hmine : s.commit = some p
    · refine .inr (.inr ⟨p, .inr rfl, ?_, ?_⟩)
      · rw [State.lock, hmine]
        rfl
      · rw [State.lock, State.commit_move]
        simp [hmine]
    · refine .inl (State.lock_of_commit ?_)
      simp [hmine]
  | tick n =>
    cases hstep
    exact .inl rfl

/-! ## Overtaking

    While a writer is announced nobody holds the turnstile alone, so nobody gets
    past a probe: only those that were past it already can still go first. -/

/-- `a` takes the commit lock for `p` ahead of every waiter. -/
def State.overtakes (s : State) (p : Nat) (a : Act) : Bool :=
  a = .proceed p ∧ (s.pc p).fast = true ∧ s.commit = none

/-- How often `p` does along a run. -/
def overtakings (p : Nat) : State → List Act → Nat
  | _, [] => 0
  | s, a :: as =>
    (s.overtakes p a).toNat + (step s a).elim 0 fun t => overtakings p t as

theorem overtakings_snoc {p : Nat} {s t : State} {as : List Act} {a : Act}
    (hrun : RunLib.run step s as = some t) :
    overtakings p s (as ++ [a]) = overtakings p s as + (t.overtakes p a).toNat := by
  induction as generalizing s with
  | nil =>
    cases hrun
    simp only [List.nil_append, overtakings]
    cases step t a <;> simp
  | cons b as ih =>
    rw [run, List.foldlM_cons] at hrun
    obtain ⟨u, hu, hrest⟩ := Option.bind_eq_some_iff.mp hrun
    rw [List.cons_append, overtakings, overtakings, hu, Option.elim_some, Option.elim_some,
      ih hrest, Nat.add_assoc]

/-- The only way to the attempt ahead of everyone is through a probe. -/
theorem fast_of_proceed {s t : State} {p : Nat} (hstep : proceed s p = some t)
    (hfast : (t.pc p).fast = true) : (s.pc p).probes = true := by
  unfold proceed at hstep
  split at hstep
  case h_2 wait hpc => rw [hpc]; rfl
  case h_1 | h_3 | h_4 | h_5 | h_6 | h_7 | h_8 =>
    split_ifs at hstep <;> cases hstep <;> simp [At.fast] at hfast
  case h_9 | h_10 =>
    cases hstep
    simp [At.fast] at hfast
  case h_11 | h_12 => cases hstep

/-- With someone announced, a step never brings a writer to that attempt, and the
    one that takes the lock there leaves it. -/
theorem overtakes_step {s t : State} {a : Act} {w : Nat} (h : Agrees s) (hw : w ∈ s.shared)
    (hstep : step s a = some t) (p : Nat) :
    (s.overtakes p a).toNat + (t.pc p).fast.toNat ≤ (s.pc p).fast.toNat := by
  by_cases hactor : a.actor = some p
  · have hslow : (t.pc p).fast = false := by
      cases a with
      | arrive q wait | release q =>
        cases hactor
        simp only [step] at hstep
        split_ifs at hstep
        cases hstep
        simp [At.fast]
      | proceed q =>
        cases hactor
        by_contra hfast
        have hprobe := fast_of_proceed hstep (by simpa using hfast)
        -- a probe holds the turnstile alone, and `w` is announced
        have hexcl := (h.excl p).mpr hprobe
        have hempty := h.apart (by rw [hexcl]; simp)
        rw [hempty] at hw
        simp at hw
      | fault q =>
        cases hactor
        simp only [step, fault] at hstep
        split at hstep
        case h_5 => cases hstep
        all_goals
          cases hstep
          simp [At.fast]
      | crash q =>
        cases hactor
        cases hstep
        simp [At.fast]
      | tick n => cases hactor
    rw [hslow]
    cases hover : s.overtakes p a with
    | false => simp
    | true =>
      have hfast : (s.pc p).fast = true := by
        simp only [State.overtakes, decide_eq_true_eq] at hover
        exact hover.2.1
      simp [hfast]
  · have hnot : s.overtakes p a = false := by
      simp only [State.overtakes, decide_eq_false_iff_not]
      intro hover
      rw [hover.1] at hactor
      exact hactor rfl
    rw [pc_of_step hactor hstep, hnot]
    simp

/-- While `w` is announced, whoever holds the lock and however long it takes, each
    other writer takes the commit lock ahead of `w` on the fast path at most once,
    and only if its probe came before. -/
theorem overtaken_once {s t : State} {pre as : List Act} {w : Nat}
    (hreach : Run step (fun _ _ => True) .init pre s)
    (hrun : Run step (fun u _ => w ∈ u.shared) s as t) (p : Nat) :
    overtakings p s as + (t.pc p).fast.toNat ≤ (s.pc p).fast.toNat := by
  have hs := agrees_run agrees_init hreach
  induction hrun with
  | nil => simp [overtakings]
  | @snoc as u v a hu hw hstep ih =>
    have hone := overtakes_step (agrees_run hs hu) hw hstep p
    rw [overtakings_snoc hu.run_eq]
    omega

/-- A writer is past its probe when another announces itself. -/
def oneFast : List Act :=
  oneHolds ++ [.arrive 1 0, .proceed 1, .proceed 1, .arrive 2 5000, .proceed 2, .proceed 2,
    .proceed 2, .proceed 2]

/-- It goes ahead of the other, once. -/
theorem overtaken_once_oneFast : ∃ s t, RunLib.run step .init oneFast = some s ∧
    RunLib.run step s [.release 0, .proceed 1] = some t ∧
    overtakings 1 s [.release 0, .proceed 1] = 1 ∧ (s.pc 1).fast.toNat = 1 ∧
    overtakings 1 s [.release 0, .proceed 1] + (t.pc 1).fast.toNat ≤ (s.pc 1).fast.toNat := by
  have hreach : RunLib.run step .init oneFast = some _ := rfl
  refine ⟨_, _, hreach, rfl, rfl, rfl, ?_⟩
  exact @overtaken_once _ _ _ _ 2 (run_of_some hreach)
    (@Run.of_checkedRun _ _ step _ (fun u _ => decide (2 ∈ u.shared))
      (fun _ _ => of_decide_eq_true) _ _ _ rfl) 1

/-! ## Time

    What the pauses are worth is said of punctual runs: code between two pauses
    takes no time, and a pause lasts its length. -/

/-- Time passes only up to the next end of a pause, and only while every writer
    is asleep, holds the lock or is outside. -/
def Punctual (s : State) : Act → Prop
  | .tick n => ∀ p u, (s.pc p).idleUntil s.now = some u → s.now + n ≤ u
  | _ => True

/-- Where a call stands in time. -/
def At.Timely (now : Nat) : At → Prop
  | announce c _ => c.start ≤ now ∧ now ≤ c.deadline
  | standing c _ wake => c.start ≤ now ∧ now ≤ wake ∧ wake ≤ c.deadline
  | pause c nap | trying c nap => c.start ≤ now ∧ now ≤ c.deadline ∧ nap ≤ napMax
  | asleep c nap wake =>
    c.start ≤ now ∧ now ≤ wake ∧ wake ≤ c.deadline ∧ wake ≤ now + napMax ∧ nap ≤ napMax
  | _ => True

theorem left_eq_zero {c : Call} {now : Nat} (h : c.start ≤ now) :
    c.left now = 0 ↔ c.deadline ≤ now := by
  unfold Call.left Call.deadline
  omega

/-- A pause cut short by what is left ends by the deadline. -/
theorem nap_le_deadline {c : Call} {now : Nat} (h : c.start ≤ now) (hle : now ≤ c.deadline)
    (nap : Nat) : now + min nap (c.left now) ≤ c.deadline := by
  unfold Call.left Call.deadline at *
  omega

theorem timely_proceed {s t : State} {p : Nat} (h : (s.pc p).Timely s.now)
    (hstep : proceed s p = some t) : (t.pc p).Timely s.now := by
  unfold proceed at hstep
  match hpc : s.pc p with
  | .out | .holds => simp [hpc] at hstep
  | .probe wait | .first wait =>
    simp only [hpc] at hstep
    split_ifs at hstep <;> cases hstep <;> simp [At.Timely, Call.deadline]
  | .probed wait | .won | .lost =>
    simp only [hpc] at hstep
    cases hstep
    simp [At.Timely]
  | .announce c queued =>
    simp only [hpc] at hstep
    rw [hpc] at h
    obtain ⟨hstart, hdue⟩ := h
    have hfirst : firstNap queued ≤ napMax := by cases queued <;> decide
    split_ifs at hstep with hfree hover <;> cases hstep <;> simp only [State.pc_move, At.Timely]
    · exact ⟨hstart, hdue, hfirst⟩
    · exact ⟨hstart, Nat.le_add_right _ _, nap_le_deadline hstart hdue _⟩
  | .standing c queued wake =>
    simp only [hpc] at hstep
    rw [hpc] at h
    obtain ⟨hstart, hnow, hdue⟩ := h
    split_ifs at hstep
    cases hstep
    simp only [State.pc_move, At.Timely]
    exact ⟨hstart, Nat.le_trans hnow hdue⟩
  | .pause c nap =>
    simp only [hpc] at hstep
    rw [hpc] at h
    obtain ⟨hstart, hdue, hnap⟩ := h
    split_ifs at hstep with hover <;> cases hstep <;> simp only [State.pc_move, At.Timely]
    refine ⟨hstart, Nat.le_add_right _ _, nap_le_deadline hstart hdue _, ?_, hnap⟩
    exact Nat.add_le_add_left (Nat.le_trans (Nat.min_le_left _ _) hnap) _
  | .asleep c nap wake =>
    simp only [hpc] at hstep
    rw [hpc] at h
    obtain ⟨hstart, hnow, hdue, -, -⟩ := h
    split_ifs at hstep
    cases hstep
    simp only [State.pc_move, At.Timely]
    exact ⟨hstart, Nat.le_trans hnow hdue, Nat.min_le_right _ _⟩
  | .trying c nap =>
    simp only [hpc] at hstep
    rw [hpc] at h
    split_ifs at hstep <;> cases hstep <;> simp only [State.pc_move, At.Timely]
    exact h

theorem now_of_step {s t : State} {a : Act} (hstep : step s a = some t) :
    t.now = s.now ∨ ∃ n, a = .tick n ∧ t = { s with now := s.now + n } := by
  cases a with
  | arrive p wait | release p =>
    simp only [step] at hstep
    split_ifs at hstep
    cases hstep
    exact .inl rfl
  | proceed p =>
    obtain ⟨u, x, rfl, -, hnow, -⟩ := proceed_moves hstep
    exact .inl hnow
  | fault p =>
    obtain ⟨x, rfl⟩ := fault_moves hstep
    exact .inl rfl
  | crash p =>
    cases hstep
    exact .inl rfl
  | tick n =>
    cases hstep
    exact .inr ⟨n, rfl, rfl⟩

theorem timely_step {s t : State} {a : Act} (h : ∀ p, (s.pc p).Timely s.now)
    (hpunct : Punctual s a) (hstep : step s a = some t) : ∀ p, (t.pc p).Timely t.now := by
  intro p
  rcases now_of_step hstep with hnow | ⟨n, rfl, rfl⟩
  · rw [hnow]
    by_cases hactor : a.actor = some p
    · cases a with
      | arrive q wait | release q =>
        cases hactor
        simp only [step] at hstep
        split_ifs at hstep
        cases hstep
        simp [At.Timely]
      | proceed q =>
        cases hactor
        exact timely_proceed (h p) hstep
      | fault q =>
        cases hactor
        simp only [step, fault] at hstep
        split at hstep
        case h_5 => cases hstep
        all_goals
          cases hstep
          simp [At.Timely]
      | crash q =>
        cases hactor
        cases hstep
        simp [At.Timely]
      | tick n => cases hactor
    · rw [pc_of_step hactor hstep]
      exact h p
  · -- time passes: nobody wakes before the end of the step, nobody else is at work
    have hp := h p
    have hidle := hpunct p
    show (s.pc p).Timely (s.now + n)
    match hpc : s.pc p with
    | .out | .holds | .won | .lost | .probe _ | .probed _ | .first _ => trivial
    | .announce c queued =>
      have := hidle s.now (by rw [hpc]; rfl)
      rw [hpc] at hp
      simp only [At.Timely] at hp ⊢
      omega
    | .standing c queued wake =>
      have := hidle wake (by rw [hpc]; rfl)
      rw [hpc] at hp
      simp only [At.Timely] at hp ⊢
      omega
    | .pause c nap | .trying c nap =>
      have := hidle s.now (by rw [hpc]; rfl)
      rw [hpc] at hp
      simp only [At.Timely] at hp ⊢
      omega
    | .asleep c nap wake =>
      have := hidle wake (by rw [hpc]; rfl)
      rw [hpc] at hp
      simp only [At.Timely] at hp ⊢
      omega

theorem timely_run {t : State} {as : List Act} (hrun : Run step Punctual .init as t) :
    ∀ p, (t.pc p).Timely t.now :=
  hrun.invariant (fun _ => trivial) fun _ _ _ h hpunct hstep => timely_step h hpunct hstep

/-- A call gives up when nothing is left of its wait. -/
theorem left_of_gives_up {t u : State} {p : Nat} {c : Call} (hcall : (t.pc p).call = some c)
    (hstep : proceed t p = some u) (hout : u.pc p = .out ∨ u.pc p = .lost) : c.left t.now = 0 := by
  unfold proceed at hstep
  match hpc : t.pc p with
  | .out | .holds | .won | .lost | .probe _ | .probed _ | .first _ =>
    rw [hpc] at hcall
    cases hcall
  | .announce c' queued =>
    rw [hpc] at hcall
    cases hcall
    simp only [hpc] at hstep
    split_ifs at hstep with hfree hover
    · cases hstep
      simp at hout
    · exact hover
    · cases hstep
      simp at hout
  | .standing c' queued wake =>
    simp only [hpc] at hstep
    split_ifs at hstep
    cases hstep
    simp at hout
  | .pause c' nap =>
    rw [hpc] at hcall
    cases hcall
    simp only [hpc] at hstep
    split_ifs at hstep with hover
    · exact hover
    · cases hstep
      simp at hout
  | .asleep c' nap wake =>
    simp only [hpc] at hstep
    split_ifs at hstep
    cases hstep
    simp at hout
  | .trying c' nap =>
    simp only [hpc] at hstep
    split_ifs at hstep
    · cases hstep
      simp at hout
    · cases hstep
      simp at hout

theorem call_in_time {x : At} {now : Nat} {c : Call} (h : x.Timely now) (hcall : x.call = some c) :
    c.start ≤ now ∧ now ≤ c.deadline := by
  match x with
  | .out | .holds | .won | .lost | .probe _ | .probed _ | .first _ => cases hcall
  | .announce c' queued =>
    cases hcall
    exact h
  | .standing c' queued wake =>
    cases hcall
    exact ⟨h.1, Nat.le_trans h.2.1 h.2.2⟩
  | .pause c' nap | .trying c' nap =>
    cases hcall
    exact ⟨h.1, h.2.1⟩
  | .asleep c' nap wake =>
    cases hcall
    exact ⟨h.1, Nat.le_trans h.2.1 h.2.2.1⟩

/-- A call waits until its deadline at the latest, pausing for `napMax` at a time
    at most, and gives up at its deadline, not before. -/
theorem waits_in_time {t : State} {as : List Act} (hrun : Run step Punctual .init as t) {p : Nat}
    {c : Call} (hcall : (t.pc p).call = some c) :
    t.now ≤ c.deadline ∧
      (∀ nap wake, t.pc p = .asleep c nap wake → wake ≤ t.now + napMax ∧ wake ≤ c.deadline) ∧
      ∀ u, proceed t p = some u → u.pc p = .out ∨ u.pc p = .lost → t.now = c.deadline := by
  have htimely := timely_run hrun p
  obtain ⟨hstart, hdue⟩ := call_in_time htimely hcall
  refine ⟨hdue, ?_, ?_⟩
  · intro nap wake hpc
    rw [hpc] at htimely
    obtain ⟨-, -, hdeadline, hlong, -⟩ := htimely
    exact ⟨hlong, hdeadline⟩
  · intro u hstep hout
    have hleft := left_of_gives_up hcall hstep hout
    exact Nat.le_antisymm hdue ((left_eq_zero hstart).mp hleft)

/-- A check for the writers `ps`, the only ones in the run. -/
def punctualCheck (ps : List Nat) (s : State) (a : Act) : Bool :=
  a.actor.all (· ∈ ps) &&
    match a with
    | .tick n => ps.all fun p => ((s.pc p).idleUntil s.now).all fun u => s.now + n ≤ u
    | _ => true

theorem punctual_of_check {ps : List Nat} {s : State} {a : Act} (hout : ∀ p ∉ ps, s.pc p = .out)
    (h : punctualCheck ps s a = true) : Punctual s a := by
  match a with
  | .arrive _ _ | .proceed _ | .fault _ | .release _ | .crash _ => trivial
  | .tick n =>
    intro p u hu
    by_cases hp : p ∈ ps
    · simp only [punctualCheck, Bool.and_eq_true, List.all_eq_true] at h
      have := h.2 p hp
      rw [hu] at this
      simpa using this
    · rw [hout p hp] at hu
      cases hu

/-- The others stay outside. -/
theorem out_of_check {ps : List Nat} {s t : State} {a : Act} (hout : ∀ p ∉ ps, s.pc p = .out)
    (h : punctualCheck ps s a = true) (hstep : step s a = some t) : ∀ p ∉ ps, t.pc p = .out := by
  intro p hp
  rw [pc_of_step ?_ hstep]
  · exact hout p hp
  · intro hactor
    simp only [punctualCheck, hactor, Option.all_some, Bool.and_eq_true, decide_eq_true_eq] at h
    exact hp h.1

theorem run_of_check {ps : List Nat} {s t : State} {as : List Act} {check : State → Act → Bool}
    {cond : State → Act → Prop} (hout : ∀ p ∉ ps, s.pc p = .out)
    (hcond : ∀ s a, Punctual s a → check s a = true → cond s a)
    (h : checkedRun step (fun s a => punctualCheck ps s a && check s a) s as = some t) :
    Run step cond s as t ∧ ∀ p ∉ ps, t.pc p = .out := by
  have hrun := @Run.of_checkedRun _ _ step
    (fun s a => punctualCheck ps s a = true ∧ check s a = true) _ (fun s a hok => by simpa using hok)
    s t as h
  have hstep : ∀ s a s', (∀ p ∉ ps, s.pc p = .out) →
      punctualCheck ps s a = true ∧ check s a = true → step s a = some s' →
        ∀ p ∉ ps, s'.pc p = .out :=
    fun s a s' hs hok hstep => out_of_check hs hok.1 hstep
  exact ⟨hrun.strengthen hout hstep fun s a hs hok => hcond s a (punctual_of_check hs hok.1) hok.2,
    hrun.invariant hout hstep⟩

/-- A writer waits 300 µs for a lock that stays held. -/
def oneWaits : List Act :=
  oneHolds ++ [.arrive 1 300, .proceed 1, .proceed 1, .proceed 1, .proceed 1, .proceed 1, .tick 250,
    .proceed 1, .proceed 1, .proceed 1, .tick 50, .proceed 1, .proceed 1]

/-- It gives up after 300 µs. -/
theorem waits_in_time_oneWaits : ∃ t u, RunLib.run step .init oneWaits = some t ∧
    (t.pc 1).call = some ⟨300, 0⟩ ∧ proceed t 1 = some u ∧ u.pc 1 = .lost ∧
    t.now = (Call.mk 300 0).deadline := by
  obtain ⟨hrun, -⟩ :=
    @run_of_check [0, 1] .init _ oneWaits (fun _ _ => true) Punctual (fun _ _ => rfl)
      (fun _ _ h _ => h) rfl
  refine ⟨_, _, hrun.run_eq, rfl, rfl, rfl, ?_⟩
  exact (@waits_in_time _ _ hrun 1 ⟨300, 0⟩ rfl).2.2 _ rfl (.inr rfl)

/-! ### Standing back -/

/-- The steps before `w` tries again, in the life of `p` and `w`. -/
def BeforeTry (p w : Nat) (s : State) (a : Act) : Prop :=
  Punctual s a ∧ a ≠ .crash p ∧ a ≠ .crash w ∧ ¬(a.actor = some w ∧ (s.pc w).tries = true)

/-- `p` is in its first pause, which ends at `stop`; `w` wakes before, or is awake
    and about to try. -/
structure StandsBack (p w stop : Nat) (s : State) : Prop where
  soon : s.now < stop
  newcomer : (∃ c, s.pc p = .pause c napMax ∧ s.now + napMax = stop ∧ napMax ≤ c.left s.now) ∨
    ∃ c nap, s.pc p = .asleep c nap stop
  waiter : (∃ c nap wake, s.pc w = .asleep c nap wake ∧ wake < stop) ∨ (s.pc w).tries = true

theorem StandsBack.ne {p w stop : Nat} {s : State} (h : StandsBack p w stop s) : p ≠ w := by
  intro heq
  subst heq
  rcases h.newcomer with ⟨c, hpc, -, -⟩ | ⟨c, nap, hpc⟩
  · rcases h.waiter with ⟨c', nap', wake, hpc', -⟩ | htries
    · rw [hpc] at hpc'
      cases hpc'
    · rw [hpc] at htries
      cases htries
  · rcases h.waiter with ⟨c', nap', wake, hpc', hwake⟩ | htries
    · rw [hpc] at hpc'
      cases hpc'
      exact Nat.lt_irrefl _ hwake
    · rw [hpc] at htries
      cases htries

/-- A sleeper's only step is to wake. -/
theorem wakes {s t : State} {a : Act} {p : Nat} {c : Call} {nap wake : Nat}
    (hpc : s.pc p = .asleep c nap wake) (hactor : a.actor = some p) (hcrash : a ≠ .crash p)
    (hstep : step s a = some t) :
    wake ≤ s.now ∧ t = s.move p (.trying c (min (nap * 2) napMax)) := by
  cases a with
  | arrive q wait | release q =>
    cases hactor
    simp [step, hpc] at hstep
  | proceed q =>
    cases hactor
    simp only [step, proceed, hpc] at hstep
    split_ifs at hstep with hwake
    cases hstep
    exact ⟨hwake, rfl⟩
  | fault q =>
    cases hactor
    simp [step, fault, hpc] at hstep
  | crash q =>
    cases hactor
    exact absurd rfl hcrash
  | tick n => cases hactor

/-- Nothing left of the wait apart, an announced writer's next step is to sleep. -/
theorem falls_asleep {s t : State} {a : Act} {p : Nat} {c : Call} {nap : Nat}
    (hpc : s.pc p = .pause c nap) (hleft : c.left s.now ≠ 0) (hactor : a.actor = some p)
    (hcrash : a ≠ .crash p) (hstep : step s a = some t) :
    t = s.move p (.asleep c nap (s.now + min nap (c.left s.now))) := by
  cases a with
  | arrive q wait | release q =>
    cases hactor
    simp [step, hpc] at hstep
  | proceed q =>
    cases hactor
    simp only [step, proceed, hpc] at hstep
    rw [if_neg hleft] at hstep
    exact (Option.some.inj hstep).symm
  | fault q =>
    cases hactor
    simp [step, fault, hpc] at hstep
  | crash q =>
    cases hactor
    exact absurd rfl hcrash
  | tick n => cases hactor

/-- While the waiter has not tried, the newcomer stays in its first pause. -/
theorem StandsBack.step {p w stop : Nat} {s t : State} {a : Act} (h : StandsBack p w stop s)
    (hcond : BeforeTry p w s a) (hstep : step s a = some t) : StandsBack p w stop t := by
  obtain ⟨hpunct, hlive, hlive', htry⟩ := hcond
  have hne := h.ne
  rcases now_of_step hstep with hnow | ⟨n, rfl, rfl⟩
  · by_cases hp : a.actor = some p
    · have hw : t.pc w = s.pc w :=
        pc_of_step (fun hw => hne (Option.some.inj (hp.symm.trans hw))) hstep
      have hwaiter := h.waiter
      rw [← hw] at hwaiter
      refine ⟨by rw [hnow]; exact h.soon, ?_, hwaiter⟩
      rcases h.newcomer with ⟨c, hpc, hstop, hleft⟩ | ⟨c, nap, hpc⟩
      · have hpos : napMax = 2000 := rfl
        rw [falls_asleep hpc (by omega) hp hlive hstep]
        refine .inr ⟨c, napMax, ?_⟩
        rw [State.pc_move, Nat.min_eq_left hleft, hstop]
      · -- its pause is not over
        obtain ⟨hwake, -⟩ := wakes hpc hp hlive hstep
        have := h.soon
        omega
    · have hpc := pc_of_step hp hstep
      have hnewcomer := h.newcomer
      rw [← hpc, ← hnow] at hnewcomer
      refine ⟨by rw [hnow]; exact h.soon, hnewcomer, ?_⟩
      by_cases hw : a.actor = some w
      · rcases h.waiter with ⟨c, nap, wake, hpcw, -⟩ | htries
        · obtain ⟨-, rfl⟩ := wakes hpcw hw hlive' hstep
          right
          rw [State.pc_move]
          rfl
        · exact absurd ⟨hw, htries⟩ htry
      · rw [pc_of_step hw hstep]
        exact h.waiter
  · -- time stops where the waiter wakes
    have hsoon : s.now + n < stop := by
      rcases h.waiter with ⟨c, nap, wake, hpcw, hwake⟩ | htries
      · have := hpunct w wake (by rw [hpcw]; rfl)
        omega
      · match hpcw : s.pc w with
        | .trying c nap =>
          have := hpunct w s.now (by rw [hpcw]; rfl)
          have := h.soon
          omega
        | .out | .holds | .won | .lost | .probe _ | .probed _ | .first _ | .announce .. |
          .standing .. | .pause .. | .asleep .. =>
          rw [hpcw] at htries
          cases htries
    refine ⟨hsoon, ?_, h.waiter⟩
    rcases h.newcomer with ⟨c, hpc, hstop, hleft⟩ | hasleep
    · have hzero := hpunct p s.now (by rw [hpc]; rfl)
      obtain rfl : n = 0 := by omega
      exact .inl ⟨c, hpc, hstop, hleft⟩
    · exact .inr hasleep

/-- A writer that found others waiting, and has a full pause of its wait left when
    it announces itself, does not try the commit lock before each waiter asleep
    then has tried it. -/
theorem stands_back {s t : State} {pre as : List Act} {p w : Nat} {c cw : Call} {nap wake : Nat}
    (hreach : Run step Punctual .init pre s) (hp : s.pc p = .announce c true)
    (hw : s.pc w = .asleep cw nap wake) (hwake : wake < s.now + napMax)
    (hleft : napMax ≤ c.left s.now)
    (hrun : Run step (BeforeTry p w) (State.move { s with shared := insert p s.shared } p
      (.pause c napMax)) as t) :
    step s (.proceed p)
        = some (State.move { s with shared := insert p s.shared } p (.pause c napMax)) ∧
      (t.pc p).tries = false := by
  have hs := agrees_run agrees_init hreach
  have hnone : s.excl = none := by
    by_contra hsome
    have hmem : w ∈ s.shared := (hs.shared w).mpr (by rw [hw]; rfl)
    rw [hs.apart hsome] at hmem
    simp at hmem
  have hne : w ≠ p := by
    intro heq
    rw [heq, hp] at hw
    cases hw
  refine ⟨?_, ?_⟩
  · simp only [Turnstile.step, proceed, hp]
    rw [if_pos hnone]
    rfl
  · have hback : StandsBack p w (s.now + napMax) t := by
      refine hrun.invariant ⟨?_, ?_, ?_⟩ fun u a v hu hcond hstep => hu.step hcond hstep
      · show s.now < s.now + napMax
        have hpos : napMax = 2000 := rfl
        omega
      · exact .inl ⟨c, State.pc_move .., rfl, hleft⟩
      · refine .inl ⟨cw, nap, wake, ?_, hwake⟩
        rw [State.pc_move_of_ne _ hne]
        exact hw
    rcases hback.newcomer with ⟨c', hpc, -, -⟩ | ⟨c', nap', hpc⟩
    · rw [hpc]
      rfl
    · rw [hpc]
      rfl

/-- A writer waits; another finds it announced. -/
def oneBehind : List Act :=
  oneHolds ++ [.arrive 1 5000, .proceed 1, .proceed 1, .proceed 1, .proceed 1, .proceed 1, .tick 100,
    .arrive 2 5000, .proceed 2]

/-- The newcomer sleeps on while the waiter wakes and is about to try. -/
theorem stands_back_oneBehind : ∃ s t, RunLib.run step .init oneBehind = some s ∧
    s.pc 1 = .asleep ⟨5000, 0⟩ 250 250 ∧
    RunLib.run step s [.proceed 2, .proceed 2, .tick 150, .proceed 1] = some t ∧
    (t.pc 1).tries = true ∧ (t.pc 2).tries = false := by
  obtain ⟨hreach, hout⟩ :=
    @run_of_check [0, 1, 2] .init _ oneBehind (fun _ _ => true) Punctual (fun _ _ => rfl)
      (fun _ _ h _ => h) rfl
  refine ⟨_, _, rfl, rfl, rfl, rfl, ?_⟩
  refine (@stands_back _ _ _ [.proceed 2, .tick 150, .proceed 1] 2 1 _ _ _ _ hreach rfl rfl
    (by decide) (by decide) ?_).2
  refine (@run_of_check [0, 1, 2] _ _ _ (fun s a => decide (a ≠ .crash 2 ∧ a ≠ .crash 1 ∧
    ¬(a.actor = some 1 ∧ (s.pc 1).tries = true))) _ ?_ ?_ rfl).1
  · intro p hp
    rw [State.pc_move_of_ne _ (fun heq => hp (by simp [heq]))]
    exact hout p hp
  · intro s a hpunct hok
    exact ⟨hpunct, of_decide_eq_true hok⟩

end GraphR.Multi.Turnstile
