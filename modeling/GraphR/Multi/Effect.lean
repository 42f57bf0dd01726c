import GraphR.Multi.Step

/-! # What a step can do to the log and to the parties

    Everything a step does to the log file, whoever takes it: leave it, lay down
    an empty one, cut it, or append to it. A step moves at most one party. -/

namespace GraphR.Multi

open Wal ByteLib

variable {xxh3 : Bytes → UInt64} {s s' : Sys}

/-- The log after a step. -/
inductive LogEffect (s s' : Sys) : Act → Prop where
  | same {a : Act} : s'.log = s.log → LogEffect s s' a
  | reset {a : Act} (l : DiskLog) : s'.log = some l → l.ident = s.fresh → l.frames = [] →
      LogEffect s s' a
  | repaired (p pos : Nat) : s'.log = s.log.map (fun l => l.cut pos) → LogEffect s s' (.sync p)
  | takenBack (p pos : Nat) : s'.log = s.log.map (fun l => l.cut pos) → LogEffect s s' (.fail p)
  | grown (p n : Nat) (chunk : Bytes) (wal : Option Nat) : chunk.length ≤ n →
      s'.log = (s.log.map fun l : DiskLog =>
        if wal = some l.ident then { l with frames := l.frames ++ chunk } else l) →
      LogEffect s s' (.write p n)

theorem repair_log (s : Sys) (h : Handle) :
    (s.repair h).1.log = s.log ∨ (s.repair h).1.log = some ⟨s.fresh, h.seen.baseGen, []⟩ ∨
      ∃ pos, (s.repair h).1.log = s.log.map fun l => l.cut pos := by
  unfold Sys.repair
  by_cases hcur : h.seen.logCurrent = true
  · rw [if_neg (not_not.mpr hcur)]
    split
    · split_ifs
      · exact .inr (.inr ⟨_, rfl⟩)
      · exact .inl rfl
    · exact .inl rfl
  · rw [if_pos hcur]
    exact .inr (.inl rfl)

theorem stepSync_parties (xxh3 : Bytes → UInt64) (s : Sys) (h : Handle) :
    (s.stepSync xxh3 h).1.parties = s.parties := by
  have hrepair : ∀ h', (s.repair h').1.parties = s.parties := by
    intro h'
    unfold Sys.repair
    by_cases hcur : h'.seen.logCurrent = true
    · rw [if_neg (not_not.mpr hcur)]
      split
      · split_ifs <;> rfl
      · rfl
    · rw [if_pos hcur]
  unfold Sys.stepSync
  split
  · rfl
  · exact hrepair _

theorem stepSync_log (xxh3 : Bytes → UInt64) (s : Sys) (h : Handle) (p : Nat) (x : Party) :
    LogEffect s ((s.stepSync xxh3 h).1.setParty p x) (.sync p) := by
  unfold Sys.stepSync
  split
  · exact .same rfl
  next h' _ =>
    rcases repair_log s h' with hlog | hlog | ⟨pos, hlog⟩
    · exact .same hlog
    · exact .reset _ hlog rfl rfl
    · exact .repaired p pos hlog

/-- The handle of an append that starts. -/
theorem startAppend_cases {h h' : Handle} {staged : List OpBytes} {origin : Origin}
    (hstart : s.startAppend h staged origin = some h') :
    ∃ r l, s.log = some l ∧ h' = { h with
      staged := staged
      wal := some (h.wal.getD l.ident)
      phase := .appending r 0 origin h.staged } := by
  unfold Sys.startAppend at hstart
  simp only [Option.bind_eq_bind, Option.bind_eq_some_iff] at hstart
  obtain ⟨r, -, hstart⟩ := hstart
  split_ifs at hstart
  obtain ⟨l, hl, hstart⟩ := Option.bind_eq_some_iff.mp hstart
  cases hstart
  exact ⟨r, l, hl, rfl⟩

/-- A handle's step. -/
theorem act_log {p : Nat} {h : Handle} {a : Act} (hparty : Sys.party a = some p)
    (hstep : s.act xxh3 p h a = some s') : LogEffect s s' a := by
  cases a <;> simp only [Sys.act] at hstep <;> try cases hstep
  case pin => exact .same rfl
  case unpin => exact .same rfl
  case sync q =>
    cases hparty
    split at hstep
    next =>
      cases hstep
      exact stepSync_log xxh3 s h p _
    next => cases hstep
  case write q n =>
    cases hparty
    split at hstep
    next r k origin undo _ =>
      split_ifs at hstep
      cases hstep
      refine .grown p n (range (r.bytes xxh3) k n) h.wal ?_ ?_
      · exact List.length_take_le _ _
      · unfold Sys.stepWrite
        split_ifs <;> rfl
    next => cases hstep
  case fail q =>
    cases hparty
    split at hstep
    next r k origin undo _ =>
      cases hstep
      refine .takenBack p h.seen.walPos ?_
      unfold Sys.stepFail
      split_ifs <;> rfl
    next => cases hstep
  case compactLog q =>
    split at hstep
    next applied b _ _ =>
      cases hstep
      refine .reset ⟨s.fresh, h.diskGeneration, []⟩ ?_ rfl rfl
      unfold Sys.stepCompactLog
      split <;> rfl
    next => cases hstep
  case commit q =>
    split at hstep
    next =>
      split at hstep <;> cases hstep <;> exact .same rfl
    next => cases hstep
  case transact q f =>
    split at hstep
    next =>
      split at hstep <;> cases hstep <;> exact .same rfl
    next => cases hstep
  case complete q =>
    split at hstep
    next =>
      split_ifs at hstep
      cases hstep
      exact .same rfl
    next => cases hstep
  all_goals
    split at hstep <;> try cases hstep
  all_goals first
    | exact .same rfl
    | skip
  all_goals
    obtain ⟨h', -, rfl⟩ := Option.map_eq_some_iff.mp hstep
    exact .same rfl

theorem step_log {a : Act} (hstep : s.step xxh3 a = some s') : LogEffect s s' a := by
  cases a <;> simp only [Sys.step] at hstep
  case layLog p =>
    split at hstep
    next =>
      cases hstep
      exact .reset _ rfl rfl rfl
    next => cases hstep
  case dropLock =>
    split_ifs at hstep
    cases hstep
    exact .same rfl
  case crash p =>
    cases hstep
    exact .same rfl
  case create p =>
    split at hstep <;> cases hstep
    exact .same rfl
  case layBase p =>
    split at hstep <;> cases hstep
    exact .same rfl
  case openBase p =>
    split at hstep <;> cases hstep
    exact .same rfl
  case openLog p =>
    split at hstep
    next =>
      obtain ⟨x, -, rfl⟩ := Option.map_eq_some_iff.mp hstep
      exact .same rfl
    next => cases hstep
  case openMap p =>
    split at hstep
    next =>
      obtain ⟨x, -, rfl⟩ := Option.map_eq_some_iff.mp hstep
      exact .same rfl
    next => cases hstep
  case openRead p =>
    split at hstep
    next =>
      obtain ⟨x, -, rfl⟩ := Option.map_eq_some_iff.mp hstep
      exact .same rfl
    next => cases hstep
  all_goals
    simp only [Sys.party] at hstep
    split at hstep
    next h _ => exact act_log rfl hstep
    next => cases hstep

end GraphR.Multi
