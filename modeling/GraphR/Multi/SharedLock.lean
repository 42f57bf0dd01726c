import GraphR.Multi.Calm
import GraphR.Multi.Durability

/-! # One `CommitLock`, several handles

    `transact_with` takes no lock of its own: it checks that the `CommitLock` it
    is given belongs to the handle's directory, and holds the handle's own
    mutex. Shared by reference, one `CommitLock` lets transactions of several
    handles in at once. Here they are let in as the code does, and `users` lists
    the handles that are inside. One at a time, such a run is one of the
    protocol's. -/

namespace GraphR.Multi

open Wal ByteLib RunLib

/-- The system, and the handles with a `transact_with` under way. -/
structure Shared where
  sys : Sys
  users : List Nat

def Shared.init : Shared := ⟨Sys.init, []⟩

/-- `transact_with` begins and ends; everything else is a step of the system. -/
inductive SharedAct where
  | enter (p : Nat)
  | leave (p : Nat)
  | other (a : Act)

namespace Shared

variable (xxh3 : Bytes → UInt64)

/-- The borrowed lock outlives every transaction under it. -/
def borrowed (s : Shared) : Act → Bool
  | .resume _ => true
  | .release p | .park p | .crash p => p ∈ s.users
  | .dropLock => s.users ≠ []
  | _ => false

def step (s : Shared) : SharedAct → Option Shared
  | .enter p =>
    match s.sys.parties p with
    | .live h =>
      match h.phase with
      | .idle =>
        if s.sys.lock = .held none ∨ s.users ≠ [] then
          some ⟨{ s.sys with lock := .held (some p) }.setParty p (.live { h with phase := .locked }),
            p :: s.users⟩
        else none
      | _ => none
    | _ => none
  | .leave p =>
    if p ∈ s.users then (s.sys.step xxh3 (.park p)).map fun t => ⟨t, s.users.erase p⟩ else none
  | .other a => if s.borrowed a then none else (s.sys.step xxh3 a).map fun t => ⟨t, s.users⟩

end Shared

/-- A `transact_with` begins when no other is under way; other steps are calm and
    keep the log short. -/
def OneAtATime (s : Shared) : SharedAct → Prop
  | .enter _ => s.users = []
  | .leave _ => True
  | .other a => Calm s.sys a ∧ KeepsShort s.sys a

variable {xxh3 : Bytes → UInt64} {s s' : Shared}

/-- One at a time, a step under the shared lock is a step of the system. -/
theorem Shared.step_sys {a : SharedAct} (hc : OneAtATime s a)
    (hstep : s.step xxh3 a = some s') :
    ∃ a', Calm s.sys a' ∧ KeepsShort s.sys a' ∧ s.sys.step xxh3 a' = some s'.sys := by
  cases a with
  | enter p =>
    refine ⟨.resume p, trivial, trivial, ?_⟩
    simp only [Shared.step] at hstep
    split at hstep
    next h hp =>
      split at hstep
      next hphase =>
        have husers : s.users = [] := hc
        rw [husers] at hstep
        split_ifs at hstep with hlock
        cases hstep
        have hlock' : s.sys.lock = .held none := by simpa using hlock
        simp only [Sys.step, Sys.party, hp, Sys.act, hphase, hlock']
      next => cases hstep
    next => cases hstep
  | leave p =>
    refine ⟨.park p, trivial, trivial, ?_⟩
    simp only [Shared.step] at hstep
    split_ifs at hstep
    obtain ⟨t, ht, rfl⟩ := Option.map_eq_some_iff.mp hstep
    exact ht
  | other a =>
    refine ⟨a, hc.1, hc.2, ?_⟩
    simp only [Shared.step] at hstep
    split_ifs at hstep
    obtain ⟨t, ht, rfl⟩ := Option.map_eq_some_iff.mp hstep
    exact ht

/-- One `transact_with` at a time under a shared `CommitLock`: after every step a
    fresh open succeeds, and every transaction that returned is there. -/
theorem commitLock_one_at_a_time {as : List SharedAct}
    (hrun : Run (Shared.step xxh3) OneAtATime Shared.init as s) :
    FreshOpen xxh3 s.sys ∧ s.sys.acked.Sublist s.sys.hist := by
  have hinv : CalmInv xxh3 s.sys ∧ Short s.sys := by
    have hinit : CalmInv xxh3 Shared.init.sys ∧ Short Shared.init.sys :=
      ⟨calmInv_init xxh3, by rintro l ⟨⟩⟩
    refine @Run.invariant _ _ _ _ (fun s => CalmInv xxh3 s.sys ∧ Short s.sys) _ _ _ hrun hinit ?_
    intro s a s' hI hc hstep
    obtain ⟨a', hcalm, hshort, hstep'⟩ := Shared.step_sys hc hstep
    exact ⟨(hI.1.step hcalm hstep').1, hI.2.step hshort hstep'⟩
  rcases hinv.1.1 with hU | ⟨fold, b, l, hB⟩
  · refine ⟨?_, ?_⟩
    · intro b hb
      rw [hU.base] at hb
      cases hb
    · rw [hU.acked]
      exact List.nil_sublist _
  · exact ⟨hB.freshOpen hinv.2, hB.acked⟩

/-- A store with three handles, and a `CommitLock` taken on the first. -/
def lockTaken : List SharedAct :=
  (threeHandles ++ [Act.acquire 0, .sync 0, .park 0]).map .other

/-- The transaction a handle runs under the lock. -/
def removeOne : Closure := fun _ => some [removeOp 1]

/-- Handle `p` runs it from start to end. -/
def transactWith (p : Nat) : List SharedAct :=
  [.enter p, .other (.sync p), .other (.transact p removeOne), .other (.write p 48),
    .other (.complete p), .leave p]

/-- A sufficient check for `OneAtATime`. -/
def oneAtATimeCheck (s : Shared) : SharedAct → Bool
  | .enter _ => s.users = []
  | .leave _ => true
  | .other a =>
    match a with
    | .crash _ | .fail _ | .reloadTail _ => false
    | .write _ n =>
      match s.sys.log with
      | some l => l.len + n ≤ offMask
      | none => false
    | _ => true

theorem oneAtATimeCheck_sound {a : SharedAct} (h : oneAtATimeCheck s a = true) : OneAtATime s a := by
  cases a with
  | enter p =>
    show s.users = []
    simpa [oneAtATimeCheck] using h
  | leave p => trivial
  | other a =>
    cases a <;> simp only [oneAtATimeCheck] at h <;> first | exact ⟨trivial, trivial⟩ | skip
    case write p n =>
      refine ⟨trivial, ?_⟩
      intro l hl
      rw [hl] at h
      simpa using h
    all_goals cases h

theorem commitLock_one_at_a_time_two :
    ∃ s, run (Shared.step zeroSum) Shared.init (lockTaken ++ transactWith 1 ++ transactWith 2) = some s ∧
      s.sys.acked.length = 2 ∧ FreshOpen zeroSum s.sys := by
  have hrun : (checkedRun (Shared.step zeroSum) oneAtATimeCheck Shared.init
      (lockTaken ++ transactWith 1 ++ transactWith 2)).any
      (fun s => s.sys.acked.length = 2) = true := by decide +kernel
  obtain ⟨s, hs, hacked⟩ := Option.any_eq_true _ _ |>.mp hrun
  have h := Run.of_checkedRun (fun _ _ => oneAtATimeCheck_sound) hs
  exact ⟨s, h.run_eq, by simpa using hacked, (commitLock_one_at_a_time h).1⟩

/-- Handles 1 and 2 are both let in and catch up before either appends. -/
def twoAtOnce : List SharedAct :=
  lockTaken ++ [.enter 1, .enter 2, .other (.sync 1), .other (.sync 2),
    .other (.transact 1 removeOne), .other (.transact 2 removeOne),
    .other (.write 1 48), .other (.complete 1), .leave 1,
    .other (.write 2 48), .other (.complete 2), .leave 2]

/-- Both transactions return, both records are numbered 1, and the log no longer
    opens. -/
theorem twoAtOnce_breaks_log :
    ∃ s, run (Shared.step zeroSum) Shared.init twoAtOnce = some s ∧
      s.sys.acked.map (fun r => r.firstSeq) = [1, 1] ∧ freshOps zeroSum s.sys = none ∧
      ¬FreshOpen zeroSum s.sys := by
  have hrun : (run (Shared.step zeroSum) Shared.init twoAtOnce).any (fun s =>
      s.sys.acked.map (fun r => r.firstSeq) = [1, 1] ∧ freshOps zeroSum s.sys = none ∧
        s.sys.base.isSome) = true := by decide +kernel
  obtain ⟨s, hs, hprop⟩ := Option.any_eq_true _ _ |>.mp hrun
  simp only [decide_eq_true_eq] at hprop
  obtain ⟨hacked, hops, hbase⟩ := hprop
  refine ⟨s, hs, hacked, hops, ?_⟩
  intro hfresh
  rw [hfresh.ops_eq hbase] at hops
  cases hops

end GraphR.Multi
