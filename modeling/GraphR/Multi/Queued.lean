import GraphR.Library.Simulation
import GraphR.Multi.Generations
import GraphR.Multi.Turnstile

/-! # The store behind its lock

    The protocol takes the commit lock in one step, where it is free. The code asks for
    it system call by system call (`lock_within`), and that a call returned is all a
    handle knows of it. Here both run side by side: a writer's operation begins when its
    call gets the lock file, and nobody looks at the protocol's lock. Every such run is
    one of the protocol and one of the turnstile, so what holds of either holds here.

    A lock is let go by the call that took it: a `CommitLock` kept for later is left
    out. -/

namespace GraphR.Multi

open Wal ByteLib RunLib

/-! ## Both side by side -/

/-- The lock files and the store; writer `p` is party `p`. -/
structure Queued where
  queue : Turnstile.State
  sys : Sys

def Queued.init : Queued := ⟨.init, Sys.init⟩

/-- A system call on the lock files, or a step of the store. -/
inductive QueuedAct where
  | call (a : Turnstile.Act)
  | work (a : Act)

/-- The system call it is. -/
def QueuedAct.asked : QueuedAct → Option Turnstile.Act
  | .call a => some a
  | .work _ => none

namespace Turnstile.At

/-- It is in no call. -/
def free : At → Bool
  | out | holds => true
  | _ => false

end Turnstile.At

/-- It may ask for the lock: a handle between two operations, or a creator. -/
def Party.ready : Party → Bool
  | .out => true
  | .live h =>
    match h.phase with
    | .idle => true
    | _ => false
  | _ => false

/-- It works under the lock. -/
def Party.inside : Party → Bool
  | .creating => true
  | .live h => h.phase.isLocked
  | _ => false

/-- The step of the protocol with which `p` begins under the lock; a creator that finds a
    base has nothing to do. -/
def Sys.beginning (s : Sys) (p : Nat) : Option Act :=
  match s.parties p with
  | .live _ => some (.acquire p)
  | .out => if s.base.isNone then some (.create p) else none
  | _ => none

/-- `p` begins, its call having returned. -/
def Sys.enter (s : Sys) (p : Nat) : Sys :=
  match s.parties p with
  | .live h => { s with lock := .held (some p) }.setParty p (.live { h with phase := .locked })
  | .out => if s.base.isNone then { s with lock := .held (some p) }.setParty p .creating else s
  | _ => s

namespace Queued

variable (xxh3 : Bytes → UInt64)

/-- A handle in a call of `lock_within` keeps its write mutex: it can pin and let go what it
    shows. The lock comes and goes with calls. -/
def mayWork (q : Queued) : Act → Bool
  | .create _ | .acquire _ | .resume _ | .park _ | .dropLock | .crash _ => false
  | .pin _ | .unpin _ _ => true
  | a => (Sys.party a).all fun p => (q.queue.pc p).free

/-- What a system call that leaves the lock files as `t` does to the store. -/
def follow (q : Queued) (t : Turnstile.State) : Turnstile.Act → Option Sys
  | .arrive p _ => if (q.sys.parties p).ready then some q.sys else none
  | .proceed p => some (if t.lock = q.queue.lock then q.sys else q.sys.enter p)
  -- an operation is over before its lock is dropped
  | .release p => if q.sys.lock = .held (some p) then none else some q.sys
  | .crash p => q.sys.step xxh3 (.crash p)
  | .fault _ | .tick _ => some q.sys

def step (q : Queued) : QueuedAct → Option Queued
  | .call a => do
    let t ← Turnstile.step q.queue a
    let s ← q.follow xxh3 t a
    return ⟨t, s⟩
  | .work a => if q.mayWork a then (q.sys.step xxh3 a).map fun s => ⟨q.queue, s⟩ else none

/-- The call of `p` gets the lock. -/
def gets (q : Queued) (p : Nat) : Bool :=
  (Turnstile.step q.queue (.proceed p)).any fun t => t.lock ≠ q.queue.lock

/-- The step of the protocol that a step is. -/
def means (q : Queued) : QueuedAct → Option Act
  | .work a => some a
  | .call (.crash p) => some (.crash p)
  | .call (.proceed p) => if q.gets p then q.sys.beginning p else none
  | .call _ => none

end Queued

/-! ## Steps of the store -/

section moves
variable {xxh3 : Bytes → UInt64} {s s' : Sys}

/-- It takes the lock, or leaves it to nobody. -/
def Act.takes : Act → Bool
  | .create _ | .acquire _ | .resume _ | .park _ => true
  | _ => false

theorem stepSync_lock (xxh3 : Bytes → UInt64) (s : Sys) (h : Handle) :
    (s.stepSync xxh3 h).1.lock = s.lock := by
  unfold Sys.stepSync
  split
  · rfl
  · exact (repair_keeps s _).2.2.2.1

/-- A handle's step moves that handle, and frees the lock or keeps it. -/
theorem act_moves {p : Nat} {h : Handle} {a : Act} (hstep : s.act xxh3 p h a = some s') :
    ∃ (t : Sys) (x : Party), s' = t.setParty p x ∧ t.parties = s.parties ∧
      (a.takes = false → t.lock = s.lock ∨ t.lock = .free) := by
  cases a <;> simp only [Sys.act] at hstep <;> try cases hstep
  case pin => exact ⟨_, _, rfl, rfl, fun _ => .inl rfl⟩
  case unpin => exact ⟨_, _, rfl, rfl, fun _ => .inl rfl⟩
  case sync =>
    split at hstep
    next =>
      cases hstep
      exact ⟨_, _, rfl, stepSync_parties xxh3 s h, fun _ => .inl (stepSync_lock xxh3 s h)⟩
    next => cases hstep
  case write =>
    split at hstep
    next =>
      split_ifs at hstep
      cases hstep
      unfold Sys.stepWrite
      split_ifs <;> exact ⟨_, _, rfl, rfl, fun _ => .inl rfl⟩
    next => cases hstep
  case fail =>
    split at hstep
    next =>
      cases hstep
      unfold Sys.stepFail
      split_ifs <;> exact ⟨_, _, rfl, rfl, fun _ => .inl rfl⟩
    next => cases hstep
  case compactLog =>
    split at hstep
    next =>
      cases hstep
      unfold Sys.stepCompactLog
      split <;> exact ⟨_, _, rfl, rfl, fun _ => .inl rfl⟩
    next => cases hstep
  case commit =>
    split at hstep
    next => split at hstep <;> cases hstep <;> exact ⟨_, _, rfl, rfl, fun _ => .inl rfl⟩
    next => cases hstep
  case transact =>
    split at hstep
    next => split at hstep <;> cases hstep <;> exact ⟨_, _, rfl, rfl, fun _ => .inl rfl⟩
    next => cases hstep
  case complete =>
    split at hstep
    next =>
      split_ifs at hstep
      cases hstep
      exact ⟨_, _, rfl, rfl, fun _ => .inl rfl⟩
    next => cases hstep
  case acquire | resume | park =>
    split at hstep <;> cases hstep
    all_goals exact ⟨_, _, rfl, rfl, by simp [Act.takes]⟩
  case release =>
    split at hstep <;> cases hstep
    all_goals exact ⟨_, _, rfl, rfl, fun _ => .inr rfl⟩
  case reload | giveUp | stage | discard | compactBase =>
    split at hstep <;> cases hstep
    all_goals exact ⟨_, _, rfl, rfl, fun _ => .inl rfl⟩
  case reloadStat | reloadTail | reloadMap | reloadRead =>
    split at hstep
    next =>
      obtain ⟨h', -, rfl⟩ := Option.map_eq_some_iff.mp hstep
      exact ⟨_, _, rfl, rfl, fun _ => .inl rfl⟩
    next => cases hstep

/-- A step moves one party at most, and frees the lock or keeps it. -/
theorem step_moves {a : Act} (hstep : s.step xxh3 a = some s') :
    (∀ q, Sys.party a ≠ some q → s'.parties q = s.parties q) ∧
      (a.takes = false → s'.lock = s.lock ∨ s'.lock = .free) := by
  have hone : ∀ {t : Sys} {p : Nat} {x : Party}, Sys.party a = some p → t.parties = s.parties →
      ∀ q, Sys.party a ≠ some q → (t.setParty p x).parties q = s.parties q := by
    intro t p x hp ht q hq
    have hne : q ≠ p := fun heq => hq (by rw [hp, heq])
    rw [setParty_ne _ _ hne, ht]
  cases a <;> simp only [Sys.step] at hstep
  case create p =>
    split at hstep <;> cases hstep
    exact ⟨hone rfl rfl, by simp [Act.takes]⟩
  case layLog p =>
    split at hstep <;> cases hstep
    exact ⟨fun _ _ => rfl, fun _ => .inl rfl⟩
  case layBase p =>
    split at hstep <;> cases hstep
    exact ⟨hone rfl rfl, fun _ => .inr rfl⟩
  case openBase p =>
    split at hstep <;> cases hstep
    exact ⟨hone rfl rfl, fun _ => .inl rfl⟩
  case openLog p | openMap p | openRead p =>
    split at hstep
    next =>
      obtain ⟨x, -, rfl⟩ := Option.map_eq_some_iff.mp hstep
      exact ⟨hone rfl rfl, fun _ => .inl rfl⟩
    next => cases hstep
  case dropLock =>
    split_ifs at hstep
    cases hstep
    exact ⟨fun _ _ => rfl, fun _ => .inr rfl⟩
  case crash p =>
    cases hstep
    refine ⟨hone rfl rfl, fun _ => ?_⟩
    rw [setParty_lock]
    split_ifs with hmine
    · exact .inr rfl
    · exact .inl rfl
  all_goals
    simp only [Sys.party] at hstep
    split at hstep
    next h _ =>
      obtain ⟨t, x, rfl, ht, hlock⟩ := act_moves hstep
      exact ⟨hone rfl ht, hlock⟩
    next => cases hstep

end moves

/-! ## The two locks -/

/-- The queue is in order; the store's lock is with whoever has the lock file, if with
    anyone; and who is in a call has not begun. -/
structure Queued.Meets (q : Queued) : Prop where
  agrees : Turnstile.Agrees q.queue
  lock : q.sys.lock = .free ∨ q.sys.lock = q.queue.lock
  ready : ∀ p, (q.queue.pc p).free = false → (q.queue.pc p).owns = false →
    (q.sys.parties p).ready = true

namespace Queued

variable {xxh3 : Bytes → UInt64} {q q' : Queued}

theorem meets_init : Meets .init where
  agrees := Turnstile.agrees_init
  lock := .inl rfl
  ready := by
    intro p hfree
    cases hfree

/-- A call that gets the lock found it free and had not begun. -/
theorem Meets.begins (hq : q.Meets) {p : Nat} {t : Turnstile.State}
    (hstep : Turnstile.step q.queue (.proceed p) = some t) (hgets : t.lock ≠ q.queue.lock) :
    q.sys.lock = .free ∧ t.lock = .held (some p) ∧ (q.sys.parties p).ready = true := by
  rcases Turnstile.lock_step hq.agrees hstep with hsame | ⟨p', ha, hfree, htaken⟩ | ⟨p', ha, -, -⟩
  · exact absurd hsame hgets
  · cases ha
    have hnone : q.queue.commit ≠ some p := by
      intro hmine
      rw [Turnstile.State.lock, hmine] at hfree
      cases hfree
    refine ⟨?_, htaken, hq.ready p ?_ ?_⟩
    · rcases hq.lock with hlock | hlock
      · exact hlock
      · rw [hlock, hfree]
    · -- one that is in no call makes none
      cases hpc : q.queue.pc p <;> first | rfl | skip
      all_goals simp [Turnstile.step, Turnstile.proceed, hpc] at hstep
    · rw [← Bool.not_eq_true, ← hq.agrees.commit]
      exact hnone
  · rcases ha with ha | ha <;> cases ha

/-- What it begins with is a step of the protocol. -/
theorem enter_step {s : Sys} {p : Nat} (hfree : s.lock = .free) (hready : (s.parties p).ready = true) :
    (s.beginning p).elim (some s) (s.step xxh3) = some (s.enter p) := by
  unfold Sys.beginning Sys.enter
  cases hp : s.parties p with
  | out =>
    simp only
    cases hbase : s.base with
    | none =>
      simp only [Option.isNone_none, if_true, Option.elim_some, Sys.step, hp, hfree, hbase]
    | some b => rfl
  | creating =>
    rw [hp] at hready
    cases hready
  | opening phase =>
    rw [hp] at hready
    cases hready
  | live h =>
    simp only [Option.elim_some, Sys.step, Sys.party, hp, Sys.act, hfree]
    rw [hp] at hready
    cases hphase : h.phase <;> simp [Party.ready, hphase] at hready ⊢

/-- Who is in a call after a system call of its own was in it before. -/
theorem asks_before {s t : Turnstile.State} {p : Nat} {a : Turnstile.Act}
    (ha : a = .proceed p ∨ a = .fault p) (hstep : Turnstile.step s a = some t)
    (hfree : (t.pc p).free = false) (howns : (t.pc p).owns = false) :
    (s.pc p).free = false ∧ (s.pc p).owns = false := by
  cases hpc : s.pc p <;> first | exact ⟨rfl, rfl⟩ | skip
  all_goals
    rcases ha with rfl | rfl
    all_goals simp only [Turnstile.step, Turnstile.proceed, Turnstile.fault, hpc] at hstep
    all_goals cases hstep
  -- the last call of a wait that was won
  rw [Turnstile.State.pc_move] at hfree
  cases hfree

theorem enter_parties {s : Sys} {p r : Nat} (h : r ≠ p) : (s.enter p).parties r = s.parties r := by
  unfold Sys.enter
  split
  · exact setParty_ne _ _ h
  · split_ifs
    · exact setParty_ne _ _ h
    · rfl
  · rfl

theorem enter_lock (s : Sys) (p : Nat) : (s.enter p).lock = .held (some p) ∨ s.enter p = s := by
  unfold Sys.enter
  split
  · exact .inl rfl
  · split_ifs
    · exact .inl rfl
    · exact .inr rfl
  · exact .inr rfl

/-- The party of a step at work is in no call, or pins and lets go. -/
theorem party_of_mayWork {a : Act} (h : q.mayWork a = true) :
    a.takes = false ∧ ∀ p, Sys.party a = some p →
      (q.queue.pc p).free = true ∨ a = .pin p ∨ ∃ i, a = .unpin p i := by
  cases a <;> simp_all [mayWork, Act.takes, Sys.party]

/-- Pinning leaves a handle where it is. -/
theorem ready_pin {s s' : Sys} {a : Act} {p : Nat} (ha : a = .pin p ∨ ∃ i, a = .unpin p i)
    (hstep : s.step xxh3 a = some s') : (s'.parties p).ready = (s.parties p).ready := by
  obtain rfl | ⟨i, rfl⟩ := ha <;>
  · simp only [Sys.step, Sys.party] at hstep
    split at hstep
    next h hp =>
      cases hstep
      rw [setParty_self, hp]
      rfl
    next => cases hstep

/-- A death frees the protocol's lock where it was the dead party's. -/
theorem crash_lock {s s' : Sys} {p : Nat} (hstep : s.step xxh3 (.crash p) = some s') :
    s'.lock = if s.lock = .held (some p) then .free else s.lock := by
  cases hstep
  rfl

section follow
variable {t : Turnstile.State} {s : Sys} {a : Turnstile.Act}

/-- A call that leaves the lock file alone frees the protocol's lock or keeps it. -/
theorem follow_same (hs : q.follow xxh3 t a = some s) (hsame : t.lock = q.queue.lock) :
    s.lock = .free ∨ s.lock = q.sys.lock := by
  cases a with
  | arrive p wait | release p =>
    simp only [follow] at hs
    split_ifs at hs
    cases hs
    exact .inr rfl
  | proceed p =>
    simp only [follow, if_pos hsame] at hs
    cases hs
    exact .inr rfl
  | crash p =>
    rw [@crash_lock xxh3 _ _ _ hs]
    split_ifs
    · exact .inl rfl
    · exact .inr rfl
  | fault p | tick n =>
    cases hs
    exact .inr rfl

/-- Other parties stay as they are. -/
theorem follow_parties (hs : q.follow xxh3 t a = some s) {r : Nat} (hactor : a.actor ≠ some r) :
    s.parties r = q.sys.parties r := by
  cases a with
  | arrive p wait | release p =>
    simp only [follow] at hs
    split_ifs at hs
    cases hs
    rfl
  | proceed p =>
    simp only [follow] at hs
    split_ifs at hs
    · cases hs
      rfl
    · cases hs
      exact enter_parties fun heq => hactor (congrArg some heq.symm)
  | crash p =>
    have hcrash : q.sys.step xxh3 (.crash p) = some s := hs
    exact (step_moves hcrash).1 r hactor
  | fault p | tick n =>
    cases hs
    rfl

theorem Meets.follow_lock (hq : q.Meets) (ht : Turnstile.step q.queue a = some t)
    (hs : q.follow xxh3 t a = some s) : s.lock = .free ∨ s.lock = t.lock := by
  rcases Turnstile.lock_step hq.agrees ht with hsame | ⟨p, rfl, hfree, htaken⟩ | ⟨p, ha, hheld, -⟩
  · rcases follow_same hs hsame with hnone | hkept
    · exact .inl hnone
    · rw [hkept, hsame]
      exact hq.lock
  · -- the lock file is taken, and the operation begins
    have hgets : t.lock ≠ q.queue.lock := by
      rw [hfree, htaken]
      exact Lock.noConfusion
    simp only [follow, if_neg hgets] at hs
    cases hs
    rcases enter_lock q.sys p with hheld | hnothing
    · exact .inr (hheld.trans htaken.symm)
    · rw [hnothing]
      exact .inl (hq.begins ht hgets).1
  · -- it is dropped, by the end of an operation or by a death
    have hmine : q.sys.lock = .free ∨ q.sys.lock = .held (some p) := by
      rw [← hheld]
      exact hq.lock
    rcases ha with rfl | rfl
    · simp only [follow] at hs
      split_ifs at hs with hinside
      cases hs
      exact .inl (hmine.resolve_right hinside)
    · left
      rw [@crash_lock xxh3 _ _ _ hs]
      split_ifs with hinside
      · rfl
      · exact hmine.resolve_right hinside

theorem Meets.follow_ready (hq : q.Meets) (ht : Turnstile.step q.queue a = some t)
    (hs : q.follow xxh3 t a = some s) {r : Nat} (hfree : (t.pc r).free = false)
    (howns : (t.pc r).owns = false) : (s.parties r).ready = true := by
  by_cases hactor : a.actor = some r
  · -- its own call: it was in it before, and has not got the lock
    have hbefore : (a = .proceed r ∨ a = .fault r) → (q.sys.parties r).ready = true := by
      intro ha
      obtain ⟨hf, ho⟩ := asks_before ha ht hfree howns
      exact hq.ready r hf ho
    cases a with
    | arrive p wait =>
      cases hactor
      simp only [follow] at hs
      split_ifs at hs with hready
      cases hs
      exact hready
    | proceed p =>
      cases hactor
      simp only [follow] at hs
      split_ifs at hs with hsame
      · cases hs
        exact hbefore (.inl rfl)
      · -- the lock would be its own
        have hmine := Turnstile.State.commit_of_lock (hq.begins ht hsame).2.1
        rw [(hq.agrees.step ht).commit r, howns] at hmine
        cases hmine
    | fault p =>
      cases hactor
      cases hs
      exact hbefore (.inr rfl)
    | release p =>
      cases hactor
      simp only [Turnstile.step] at ht
      split_ifs at ht
      cases ht
      rw [Turnstile.State.pc_move] at hfree
      cases hfree
    | crash p =>
      cases hactor
      cases ht
      rw [Turnstile.State.pc_move] at hfree
      cases hfree
    | tick n => cases hactor
  · -- another writer's call
    rw [Turnstile.pc_of_step hactor ht] at hfree howns
    rw [follow_parties hs hactor]
    exact hq.ready r hfree howns

end follow

theorem Meets.step (hq : q.Meets) {a : QueuedAct} (hstep : q.step xxh3 a = some q') :
    q'.Meets := by
  cases a with
  | call a =>
    obtain ⟨t, ht, hstep⟩ := Option.bind_eq_some_iff.mp hstep
    obtain ⟨s, hs, hstep⟩ := Option.bind_eq_some_iff.mp hstep
    cases hstep
    exact ⟨hq.agrees.step ht, hq.follow_lock ht hs, fun _ => hq.follow_ready ht hs⟩
  | work a =>
    simp only [Queued.step] at hstep
    split_ifs at hstep with hmay
    obtain ⟨s, hs, rfl⟩ := Option.map_eq_some_iff.mp hstep
    obtain ⟨hothers, hlock⟩ := step_moves hs
    obtain ⟨htakes, hparty⟩ := party_of_mayWork hmay
    refine ⟨hq.agrees, ?_, fun p hfree howns => ?_⟩
    · rcases hlock htakes with hsame | hnone
      · rw [hsame]
        exact hq.lock
      · exact .inl hnone
    · have hready := hq.ready p hfree howns
      by_cases hp : Sys.party a = some p
      · rcases hparty p hp with hin | hpin
        · rw [hfree] at hin
          cases hin
        · rw [ready_pin hpin hs]
          exact hready
      · rw [hothers p hp]
        exact hready

/-- A step is the step of the protocol that it means. -/
theorem Meets.step_sys (hq : q.Meets) {a : QueuedAct} (hstep : q.step xxh3 a = some q') :
    (q.means a).elim (some q.sys) (q.sys.step xxh3) = some q'.sys := by
  cases a with
  | call a =>
    obtain ⟨t, ht, hstep⟩ := Option.bind_eq_some_iff.mp hstep
    obtain ⟨s, hs, hstep⟩ := Option.bind_eq_some_iff.mp hstep
    cases hstep
    cases a with
    | arrive p wait | release p =>
      simp only [follow] at hs
      split_ifs at hs
      exact hs
    | proceed p =>
      simp only [follow] at hs
      simp only [means, gets, ht, Option.any_some, decide_eq_true_eq]
      by_cases hsame : t.lock = q.queue.lock
      · rw [if_pos hsame] at hs
        rw [if_neg (not_not.mpr hsame)]
        exact hs
      · obtain ⟨hfree, -, hready⟩ := hq.begins ht hsame
        rw [if_neg hsame] at hs
        rw [if_pos hsame, enter_step hfree hready]
        exact hs
    | crash p => exact hs
    | fault p | tick n => exact hs
  | work a =>
    simp only [Queued.step] at hstep
    split_ifs at hstep
    obtain ⟨s, hs, rfl⟩ := Option.map_eq_some_iff.mp hstep
    exact hs

theorem step_queue {a : QueuedAct} (hstep : q.step xxh3 a = some q') :
    a.asked.elim (some q.queue) (Turnstile.step q.queue) = some q'.queue := by
  cases a with
  | call a =>
    obtain ⟨t, ht, hstep⟩ := Option.bind_eq_some_iff.mp hstep
    obtain ⟨s, hs, hstep⟩ := Option.bind_eq_some_iff.mp hstep
    cases hstep
    exact ht
  | work a =>
    simp only [Queued.step] at hstep
    split_ifs at hstep
    obtain ⟨s, hs, rfl⟩ := Option.map_eq_some_iff.mp hstep
    rfl

end Queued

/-! ## Runs -/

section runs
variable {xxh3 : Bytes → UInt64} {C : Sys → Act → Prop}
  {D : Turnstile.State → Turnstile.Act → Prop} {q : Queued} {as : List QueuedAct}

/-- A step is one that `C` lets the store take and `D` the queue. -/
def Queued.Under (C : Sys → Act → Prop) (D : Turnstile.State → Turnstile.Act → Prop) (q : Queued)
    (a : QueuedAct) : Prop :=
  (∀ b, q.means a = some b → C q.sys b) ∧ ∀ c, a.asked = some c → D q.queue c

/-- Whoever works under the lock is the one the protocol's lock is with. -/
theorem GenInv.inside {s : Sys} (hI : GenInv s) {p : Nat} (h : (s.parties p).inside = true) :
    s.lock = .held (some p) := by
  have hparty := hI.parties p
  cases hp : s.parties p with
  | out | opening =>
    rw [hp] at h
    cases h
  | creating =>
    rw [hp] at hparty
    exact hparty.2
  | live h' =>
    rw [hp] at hparty h
    exact hparty.1 h

/-- A run of both is, step for step, a run of the protocol, which takes its lock in one step
    where it is free, and a run of the turnstile. Whoever works under the lock owns the lock
    file. -/
theorem queue_implements_lock (hrun : Run (Queued.step xxh3) (Queued.Under C D) .init as q) :
    Run (Sys.step xxh3) C Sys.init (project (Queued.step xxh3) Queued.means .init as) q.sys ∧
      Run Turnstile.step D .init (project (Queued.step xxh3) (fun _ => QueuedAct.asked) .init as)
        q.queue ∧
      ∀ p, (q.sys.parties p).inside = true → (q.queue.pc p).owns = true := by
  have hkeep : ∀ q a q', q.Meets → Queued.step xxh3 q a = some q' → q'.Meets :=
    fun _ _ _ hq hstep => hq.step hstep
  have hsys : Run (Sys.step xxh3) C Sys.init _ q.sys :=
    hrun.project Queued.meets_init hkeep (fun _ _ _ hq hstep => hq.step_sys hstep)
      fun _ _ b hc hb => hc.1 b hb
  have hqueue : Run Turnstile.step D .init _ q.queue :=
    hrun.project Queued.meets_init hkeep (fun _ _ _ _ hstep => Queued.step_queue hstep)
      fun _ _ c hc hca => hc.2 c hca
  refine ⟨hsys, hqueue, fun p hinside => ?_⟩
  have hmeets : q.Meets :=
    hrun.invariant Queued.meets_init fun _ _ _ hq _ hstep => hq.step hstep
  have hI : GenInv q.sys := hsys.invariant genInv_init fun _ _ _ hI _ hstep => hI.step hstep
  have hheld := hI.inside hinside
  rw [← hmeets.agrees.commit p]
  rcases hmeets.lock with hnone | hsame
  · rw [hheld] at hnone
    cases hnone
  · exact Turnstile.State.commit_of_lock (hsame.symm.trans hheld)

/-- `p` asks for the lock and takes it on the fast path. -/
def takesLock (p : Nat) : List QueuedAct :=
  [.call (.arrive p 0), .call (.proceed p), .call (.proceed p), .call (.proceed p)]

/-- Handle 0 creates the store and commits; handle 1 waits for it, gets the lock and starts
    its append. -/
def oneAfterOther : List QueuedAct :=
  takesLock 0 ++ [.work (.layLog 0), .work (.layBase 0), .call (.release 0)] ++
    (openActs 0 ++ openActs 1 ++ [Act.stage 0 [removeOp 1], .stage 1 [removeOp 2]]).map .work ++
    takesLock 0 ++ .call (.arrive 1 5000) :: List.replicate 5 (.call (.proceed 1)) ++
    [Act.sync 0, .commit 0, .write 0 48, .complete 0, .release 0].map .work ++
    [.call (.release 0), .call (.tick 250), .call (.proceed 1), .call (.proceed 1),
      .call (.proceed 1), .work (.sync 1), .work (.commit 1)]

theorem queue_implements_lock_oneAfterOther : ∃ q,
    run (Queued.step zeroSum) .init oneAfterOther = some q ∧ q.sys.acked.length = 1 ∧
    Run (Sys.step zeroSum) (Regular zeroSum) Sys.init
      (project (Queued.step zeroSum) Queued.means .init oneAfterOther) q.sys ∧
    (q.sys.parties 1).inside = true ∧ (q.queue.pc 1).owns = true := by
  have hrun : (checkedRun (Queued.step zeroSum)
      (fun q a => (q.means a).all (regularCheck zeroSum q.sys)) .init oneAfterOther).any
      (fun q => q.sys.acked.length = 1 ∧ (q.sys.parties 1).inside = true) = true := by
    decide +kernel
  obtain ⟨q, hq, hprop⟩ := Option.any_eq_true _ _ |>.mp hrun
  simp only [decide_eq_true_eq] at hprop
  have hunder : Run (Queued.step zeroSum) (Queued.Under (Regular zeroSum) fun _ _ => True) .init
      oneAfterOther q :=
    Run.of_checkedRun (fun q a hc => ⟨fun b hb => (regularCheck_sound (by
      rw [hb, Option.all_some] at hc
      exact hc)).1, fun _ _ => trivial⟩) hq
  obtain ⟨hsys, -, howns⟩ := queue_implements_lock hunder
  exact ⟨q, hunder.run_eq, hprop.1, hsys, hprop.2, howns 1 hprop.2⟩

end runs

end GraphR.Multi
