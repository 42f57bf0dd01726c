import GraphR.Format.Wal.Calls

/-! # What is staged when a compaction starts

    A handle's staged ops live in its write state: they outlive the writer that
    staged them, a commit that fails keeps them, a failed transaction cuts back
    to its mark, and a panic cuts nothing and poisons the handle. A compaction
    starts inside a commit or from `Store::compact`, and asserts that nothing is
    staged. What lies outside the write state (the commit lock, the files, the
    overlay) is an answer to the operation that asks for it, so a run here stands
    for the handle among any other writers. -/

namespace GraphR

open Wal ByteLib

/-! ## The write state -/

/-- When a commit forces the log to the disk. -/
inductive Durability where
  | always
  | batch (n : Nat)
  | never
  deriving DecidableEq

/-- What of the configuration a commit reads. -/
structure Config where
  durability : Durability
  compactAfterOps : Nat
  compactAfterWalBytes : Nat

/-- A handle's write state and the flags beside it. `entered` is history, read
    by no step: what was staged at each start of `compact_locked`. -/
structure WriteState where
  nextSeq : UInt64
  staged : RecordBuf
  opsSinceCompact : Nat
  walBytes : Nat
  commitsSinceSync : Nat
  /-- The log is open for appending. -/
  wal : Bool
  readOnly : Bool
  /-- The mutex around the write state is poisoned. -/
  poisoned : Bool
  compactInline : Bool
  due : Bool
  entered : List RecordBuf

/-! ## Answers from outside -/

/-- What a catch-up found: the next sequence number and the overlay's size, the
    log offset consumed, and whether both files were read. -/
structure Found where
  nextSeq : UInt64
  overlayOps : Nat
  walPos : Nat
  full : Bool

/-- A catch-up that failed, and whether it had dropped the log handle by then. -/
structure SyncFault where
  error : Error
  dropped : Bool

/-- How far a compaction gets. -/
inductive Compaction where
  /-- The files are not both replaced. -/
  | refused (e : Error)
  /-- Both are, but the new generation is not installed. -/
  | notInstalled (e : Error) (walAppliedSeq : UInt64)
  | done (walAppliedSeq : UInt64)

/-- What one operation is told from outside, in the order it asks. -/
structure Answers where
  locked : Except Error Unit
  synced : Except SyncFault Found
  /-- The current slot, and room for the record in its overlay. -/
  reserved : Except Error Bool
  opened : Except Error Unit
  /-- The write, the flush and the fsync, as one. -/
  appended : Except Error Unit
  compacted : Compaction

/-- How a transaction's closure ends. -/
inductive ClosureEnd where
  | ok
  | err (e : Error)
  | panics

namespace WriteState

/-- A handle as `assemble` makes it. -/
def assemble (nextSeq : UInt64) (replayed goodLen : Nat) (readOnly : Bool) : WriteState :=
  ⟨nextSeq, RecordBuf.new, replayed, goodLen, 0, false, readOnly, false, true, false, []⟩

variable (s : WriteState)

/-! ## The steps inside an operation -/

/-- `write_state` behind the read-only check. -/
def writable : Except Error Unit :=
  if s.readOnly then .error .readOnly
  else if s.poisoned then .error (.corrupt "writer mutex poisoned")
  else .ok ()

/-- Past a threshold. -/
def isOver (cfg : Config) : Bool :=
  cfg.compactAfterOps ≤ s.opsSinceCompact || cfg.compactAfterWalBytes ≤ s.walBytes

/-- Advance to what a catch-up found. -/
def adopt (f : Found) : WriteState :=
  { s with
    nextSeq := max s.nextSeq f.nextSeq
    opsSinceCompact := f.overlayOps
    walBytes := f.walPos }

/-- `sync`, with what catching up and repairing came to. -/
def sync (cfg : Config) : Except SyncFault Found → Except Error Unit × WriteState
  | .error f => (.error f.error, if f.dropped then { s with wal := false } else s)
  | .ok f =>
    if f.full then
      let s := { s with wal := false }.adopt f
      (.ok (), { s with due := s.isOver cfg && !s.compactInline })
    else (.ok (), s.adopt f)

def resetAfterCompact (nextSeq : UInt64) : WriteState :=
  { s with
    nextSeq := nextSeq
    opsSinceCompact := 0
    walBytes := headerLen
    commitsSinceSync := 0
    wal := false
    due := false }

/-- `compact_locked`: its assertion is about what is staged as it starts. -/
def compactLocked (c : Compaction) : Except Error Unit × WriteState :=
  let s := { s with entered := s.entered ++ [s.staged] }
  match c with
  | .refused e => (.error e, s)
  | .notInstalled e applied => (.error e, s.resetAfterCompact (applied + 1))
  | .done applied => (.ok (), s.resetAfterCompact (applied + 1))

/-- Whether this append is forced to the disk. -/
def syncs (cfg : Config) : Bool :=
  match cfg.durability with
  | .always => true
  | .batch n => max n 1 ≤ s.commitsSinceSync + 1
  | .never => false

/-- Account for a record that is durable. -/
def account (cfg : Config) : WriteState :=
  { s with
    commitsSinceSync := if s.syncs cfg then 0 else s.commitsSinceSync + 1
    walBytes := s.walBytes + s.staged.buf.length
    nextSeq := s.nextSeq + UInt64.ofNat s.staged.ops
    opsSinceCompact := s.opsSinceCompact + s.staged.ops
    staged := RecordBuf.new }

/-- The end of a commit: compact inline past the thresholds, or leave it due. -/
def autoCompact (cfg : Config) (c : Compaction) : WriteState :=
  if s.isOver cfg then
    if s.compactInline then
      match s.compactLocked c with
      | (.ok (), s) => s
      | (.error _, s) => { s with due := true }
    else { s with due := true }
  else s

/-- The last committed sequence number. -/
def lastSeq : UInt64 := if s.nextSeq = 0 then 0 else s.nextSeq - 1

variable (xxh3 : Bytes → UInt64) (cfg : Config) (a : Answers)

/-- The commit itself, with the commit lock held and the handle caught up. -/
def appendHeld : Except Error UInt64 × WriteState :=
  if s.staged.isEmpty then (.ok s.lastSeq, s)
  else
    match s.staged.seal xxh3 s.nextSeq with
    | .error e => (.error e, s)
    | .ok sealed =>
      let s := { s with staged := sealed }
      match a.reserved with
      | .error e => (.error e, s)
      | .ok false => (.error (.busy "overlay arena full"), s)
      | .ok true =>
        match (if s.wal then .ok () else a.opened) with
        | .error e => (.error e, s)
        | .ok () =>
          match a.appended with
          -- cut back, the handle's log descriptor dropped, the ops kept
          | .error e => (.error e, { s with wal := false })
          | .ok () =>
            let s := { s with wal := true }.account cfg
            (.ok (s.nextSeq - 1), s.autoCompact cfg a.compacted)

/-! ## The operations -/

/-- One staging call, accepted or refused. -/
def stage (p : Push) : WriteState :=
  match p.apply s.staged with
  | .ok b => { s with staged := b.narrow }
  | .error _ => s

/-- Take the commit lock and catch up, then `f`; the lock is released after. -/
def underLock {α : Type} (f : WriteState → Except Error α × WriteState) :
    Except Error α × WriteState :=
  match a.locked with
  | .error e => (.error e, s)
  | .ok () =>
    match s.sync cfg a.synced with
    | (.error e, s) => (.error e, s)
    | (.ok (), s) => f s

/-- `Writer::commit`. -/
def commit : Except Error UInt64 × WriteState :=
  match s.writable with
  | .error e => (.error e, s)
  | .ok () =>
    if s.staged.isEmpty then (.ok s.lastSeq, s)
    else s.underLock cfg a fun s => s.appendHeld xxh3 cfg a

/-- A closure that stages `body` and ends as `ends`, and the commit of it. An
    abort removes only the closure's own ops; a panic removes nothing. -/
def runClosure (body : List Push) (ends : ClosureEnd) : Except Error Unit × WriteState :=
  let mark := s.staged.mark
  let s := body.foldl stage s
  match ends with
  | .panics => (.error (.corrupt "panicked"), { s with poisoned := true })
  | .err e => (.error e, { s with staged := s.staged.truncate mark })
  | .ok =>
    match s.appendHeld xxh3 cfg a with
    | (.ok _, s) => (.ok (), s)
    | (.error e, s) => (.error e, { s with staged := s.staged.truncate mark })

/-- `Store::transact`. -/
def transact (body : List Push) (ends : ClosureEnd) : Except Error Unit × WriteState :=
  match s.writable with
  | .error e => (.error e, s)
  | .ok () => s.underLock cfg a fun s => s.runClosure xxh3 cfg a body ends

/-- `Store::compact`. -/
def compact : Except Error Unit × WriteState :=
  match s.writable with
  | .error e => (.error e, s)
  | .ok () => s.underLock cfg a fun s => s.compactLocked a.compacted

end WriteState

/-- One operation on a handle. Dropping a writer changes nothing, so a call of a
    writer stands alone, whichever writer makes it. -/
inductive HandleCall where
  | stage (p : Push)
  | discard
  | commit (a : Answers)
  | transact (a : Answers) (body : List Push) (ends : ClosureEnd)
  | compact (a : Answers)
  /-- `reload_if_stale`, which finds something or not. -/
  | reload (found : Option (Except SyncFault Found))
  | setCompactInline (inline : Bool)
  /-- A thread panics while it holds the writer. -/
  | panics

namespace WriteState

variable (xxh3 : Bytes → UInt64) (cfg : Config)

/-- What an operation leaves behind. -/
def next (s : WriteState) : HandleCall → WriteState
  | .stage p => if s.writable.isOk then s.stage p else s
  | .discard => if s.writable.isOk then { s with staged := RecordBuf.new } else s
  | .commit a => (s.commit xxh3 cfg a).2
  | .transact a body ends => (s.transact xxh3 cfg a body ends).2
  | .compact a => (s.compact cfg a).2
  | .reload none => s
  | .reload (some found) => (s.sync cfg found).2
  | .setCompactInline inline => { s with compactInline := inline }
  | .panics => { s with poisoned := true }

/-- A handle after a sequence of operations. -/
def after (s : WriteState) (calls : List HandleCall) : WriteState :=
  calls.foldl (next xxh3 cfg) s

/-- `Store::compact` gets as far as `compact_locked`. -/
def Compacts (s : WriteState) (a : Answers) : Prop :=
  s.writable.isOk = true ∧ a.locked.isOk = true ∧ a.synced.isOk = true

/-! ## What an operation does to the buffer

    `Quiet s t`: every compaction between `s` and `t` started with nothing
    staged. -/

def Quiet (s t : WriteState) : Prop :=
  ∃ starts, t.entered = s.entered ++ starts ∧ ∀ b ∈ starts, b = RecordBuf.new

variable {xxh3 cfg} {s t : WriteState} {a : Answers}

theorem Quiet.of_entered_eq (h : t.entered = s.entered) : Quiet s t :=
  ⟨[], by simpa using h, by simp⟩

@[simp] theorem sync_staged (found : Except SyncFault Found) :
    (s.sync cfg found).2.staged = s.staged := by
  cases found with
  | error f =>
    simp only [sync]
    split_ifs <;> rfl
  | ok f =>
    simp only [sync]
    split_ifs <;> rfl

@[simp] theorem sync_entered (found : Except SyncFault Found) :
    (s.sync cfg found).2.entered = s.entered := by
  cases found with
  | error f =>
    simp only [sync]
    split_ifs <;> rfl
  | ok f =>
    simp only [sync]
    split_ifs <;> rfl

theorem sync_isOk (found : Except SyncFault Found) :
    (s.sync cfg found).1.isOk = found.isOk := by
  cases found with
  | error f => rfl
  | ok f =>
    simp only [sync]
    split_ifs <;> rfl

@[simp] theorem compactLocked_entered (c : Compaction) :
    (s.compactLocked c).2.entered = s.entered ++ [s.staged] := by
  cases c <;> rfl

@[simp] theorem compactLocked_staged (c : Compaction) :
    (s.compactLocked c).2.staged = s.staged := by
  cases c <;> rfl

@[simp] theorem autoCompact_staged (c : Compaction) : (s.autoCompact cfg c).staged = s.staged := by
  have hstaged := @compactLocked_staged s c
  unfold autoCompact
  split_ifs
  · split <;> simp_all
  · rfl
  · rfl

/-- An inline compaction starts with what is staged right then. -/
theorem autoCompact_entered (c : Compaction) :
    (s.autoCompact cfg c).entered = s.entered ∨
      (s.autoCompact cfg c).entered = s.entered ++ [s.staged] := by
  have hentered := @compactLocked_entered s c
  unfold autoCompact
  split_ifs
  · right
    split <;> simp_all
  · exact .inl rfl
  · exact .inl rfl

/-- The ops are kept, sealed or not, or they are in the log and the buffer is
    new; only then a compaction may start. -/
theorem appendHeld_cases :
    (∃ e t, s.appendHeld xxh3 cfg a = (.error e, t) ∧ t.entered = s.entered ∧
      (t.staged = s.staged ∨ s.staged.seal xxh3 s.nextSeq = .ok t.staged)) ∨
    (∃ n, s.staged.isEmpty = true ∧ s.appendHeld xxh3 cfg a = (.ok n, s)) ∨
    (∃ n t, s.appendHeld xxh3 cfg a = (.ok n, t) ∧ t.staged = RecordBuf.new ∧ Quiet s t) := by
  unfold appendHeld
  split_ifs with hempty
  · exact .inr (.inl ⟨_, hempty, rfl⟩)
  cases hseal : s.staged.seal xxh3 s.nextSeq with
  | error e => exact .inl ⟨e, s, rfl, rfl, .inl rfl⟩
  | ok sealed =>
    simp only
    cases hroom : a.reserved with
    | error e => exact .inl ⟨e, _, rfl, rfl, .inr rfl⟩
    | ok room =>
      cases room with
      | false => exact .inl ⟨_, _, rfl, rfl, .inr rfl⟩
      | true =>
        simp only
        cases hopen : (if s.wal = true then Except.ok () else a.opened) with
        | error e => exact .inl ⟨e, _, rfl, rfl, .inr rfl⟩
        | ok u =>
          simp only
          cases happ : a.appended with
          | error e => exact .inl ⟨e, _, rfl, rfl, .inr rfl⟩
          | ok u =>
            refine .inr (.inr ⟨_, _, rfl, by simp [account], ?_⟩)
            -- the buffer was taken before the compaction that may follow
            rcases @autoCompact_entered cfg (account { s with staged := sealed, wal := true } cfg)
                a.compacted with h | h
            · exact .of_entered_eq h
            · exact ⟨[RecordBuf.new], h, by simp⟩

theorem underLock_cases {α : Type} (f : WriteState → Except Error α × WriteState) :
    (a.locked.isOk = true ∧ a.synced.isOk = true ∧
      s.underLock cfg a f = f (s.sync cfg a.synced).2) ∨
    (¬(a.locked.isOk = true ∧ a.synced.isOk = true) ∧
      ∃ e t, s.underLock cfg a f = (.error e, t) ∧ t.staged = s.staged ∧ t.entered = s.entered) := by
  unfold underLock
  cases hlocked : a.locked with
  | error e => exact .inr ⟨by simp [Except.isOk, Except.toBool], e, s, rfl, rfl, rfl⟩
  | ok u =>
    have hok := @sync_isOk cfg s a.synced
    have hstaged := @sync_staged cfg s a.synced
    have hentered := @sync_entered cfg s a.synced
    rcases hs : s.sync cfg a.synced with ⟨r, t⟩
    rw [hs] at hok hstaged hentered
    cases r with
    | error e => 
      refine .inr ⟨fun h => ?_, e, t, rfl, hstaged, hentered⟩
      rw [h.2] at hok
      simp [Except.isOk, Except.toBool] at hok
    | ok u => exact .inl ⟨rfl, hok.symm, rfl⟩

theorem Quiet.of_sync {found : Except SyncFault Found} (h : Quiet (s.sync cfg found).2 t) :
    Quiet s t := by
  obtain ⟨starts, hentered, hnew⟩ := h
  exact ⟨starts, by rw [hentered, sync_entered], hnew⟩

theorem appendHeld_quiet : Quiet s (s.appendHeld xxh3 cfg a).2 := by
  rcases @appendHeld_cases xxh3 cfg s a with ⟨e, t, h, hentered, -⟩ | ⟨n, -, h⟩ | ⟨n, t, h, -, hq⟩
  · rw [h]
    exact .of_entered_eq hentered
  · rw [h]
    exact .of_entered_eq rfl
  · rw [h]
    exact hq

theorem commit_cases :
    (∃ e t, s.commit xxh3 cfg a = (.error e, t) ∧ t.staged = s.staged ∧ t.entered = s.entered) ∨
    (∃ n, s.staged.isEmpty = true ∧ s.commit xxh3 cfg a = (.ok n, s)) ∨
    s.commit xxh3 cfg a = (s.sync cfg a.synced).2.appendHeld xxh3 cfg a := by
  unfold commit
  cases s.writable with
  | error e => exact .inl ⟨e, s, rfl, rfl, rfl⟩
  | ok u =>
    simp only
    split_ifs with hempty
    · exact .inr (.inl ⟨_, hempty, rfl⟩)
    rcases @underLock_cases cfg s a _ fun s => s.appendHeld xxh3 cfg a with
      ⟨-, -, h⟩ | ⟨-, e, t, h, hstaged, hentered⟩
    · exact .inr (.inr h)
    · exact .inl ⟨e, t, h, hstaged, hentered⟩

theorem commit_quiet : Quiet s (s.commit xxh3 cfg a).2 := by
  rcases @commit_cases xxh3 cfg s a with ⟨e, t, h, -, hentered⟩ | ⟨n, -, h⟩ | h
  · rw [h]
    exact .of_entered_eq hentered
  · rw [h]
    exact .of_entered_eq rfl
  · rw [h]
    exact appendHeld_quiet.of_sync

@[simp] theorem stage_entered (p : Push) : (s.stage p).entered = s.entered := by
  unfold stage
  cases p.apply s.staged <;> rfl

@[simp] theorem stageAll_entered (body : List Push) :
    (body.foldl stage s).entered = s.entered := by
  induction body generalizing s with
  | nil => rfl
  | cons p ps ih => rw [List.foldl_cons, ih, stage_entered]

theorem runClosure_quiet {body : List Push} {ends : ClosureEnd} :
    Quiet s (s.runClosure xxh3 cfg a body ends).2 := by
  cases ends with
  | panics => exact .of_entered_eq (stageAll_entered body)
  | err e => exact .of_entered_eq (stageAll_entered body)
  | ok =>
    have hquiet : Quiet s ((body.foldl stage s).appendHeld xxh3 cfg a).2 := by
      obtain ⟨starts, hentered, hnew⟩ := @appendHeld_quiet xxh3 cfg (body.foldl stage s) a
      exact ⟨starts, by rw [hentered, stageAll_entered], hnew⟩
    simp only [runClosure]
    rcases happ : (body.foldl stage s).appendHeld xxh3 cfg a with ⟨r, t⟩
    rw [happ] at hquiet
    cases r with
    | ok n => exact hquiet
    | error e => exact hquiet

/-- The closure runs, on a caught-up handle, or nothing happens. -/
theorem transact_cases {body : List Push} {ends : ClosureEnd} :
    ((s.writable.isOk && a.locked.isOk && a.synced.isOk) = true ∧
      s.transact xxh3 cfg a body ends
        = (s.sync cfg a.synced).2.runClosure xxh3 cfg a body ends) ∨
    ((s.writable.isOk && a.locked.isOk && a.synced.isOk) = false ∧
      ∃ e t, s.transact xxh3 cfg a body ends = (.error e, t) ∧ t.staged = s.staged ∧
        t.entered = s.entered) := by
  unfold transact
  cases s.writable with
  | error e => exact .inr ⟨rfl, e, s, rfl, rfl, rfl⟩
  | ok u =>
    rcases @underLock_cases cfg s a _ fun s => s.runClosure xxh3 cfg a body ends with
      ⟨hl, hs, h⟩ | ⟨hnot, e, t, h, hstaged, hentered⟩
    · exact .inl ⟨by rw [hl, hs]; rfl, h⟩
    · refine .inr ⟨?_, e, t, h, hstaged, hentered⟩
      rw [Bool.and_assoc, Bool.and_eq_false_iff]
      exact .inr (by simpa using hnot)

theorem transact_quiet {body : List Push} {ends : ClosureEnd} :
    Quiet s (s.transact xxh3 cfg a body ends).2 := by
  rcases @transact_cases xxh3 cfg s a body ends with ⟨-, h⟩ | ⟨-, e, t, h, -, hentered⟩
  · rw [h]
    exact runClosure_quiet.of_sync
  · rw [h]
    exact .of_entered_eq hentered

/-- `Store::compact` starts with what the handle has staged, whoever staged it. -/
theorem compact_entered :
    (s.Compacts a ∧ (s.compact cfg a).2.entered = s.entered ++ [s.staged]) ∨
      (¬s.Compacts a ∧ (s.compact cfg a).2.entered = s.entered) := by
  unfold compact Compacts
  cases hw : s.writable with
  | error e => exact .inr ⟨by simp [Except.isOk, Except.toBool], rfl⟩
  | ok u =>
    rcases @underLock_cases cfg s a _ fun s => s.compactLocked a.compacted with
      ⟨hl, hs, h⟩ | ⟨hnot, e, t, h, -, hentered⟩
    · refine .inl ⟨⟨rfl, hl, hs⟩, ?_⟩
      simp only [h, compactLocked_entered, sync_entered, sync_staged]
    · refine .inr ⟨fun hc => hnot hc.2, ?_⟩
      simp only [h, hentered]

/-- What one operation adds to the starts. -/
theorem next_entered (c : HandleCall) :
    Quiet s (s.next xxh3 cfg c) ∨
      ∃ a, c = .compact a ∧ s.Compacts a ∧
        (s.next xxh3 cfg c).entered = s.entered ++ [s.staged] := by
  cases c with
  | stage p =>
    left
    simp only [next]
    split_ifs
    · exact .of_entered_eq (stage_entered p)
    · exact .of_entered_eq rfl
  | discard =>
    left
    simp only [next]
    split_ifs
    · exact .of_entered_eq rfl
    · exact .of_entered_eq rfl
  | commit a => exact .inl commit_quiet
  | transact a body ends => exact .inl transact_quiet
  | compact a =>
    rcases @compact_entered cfg s a with ⟨hc, h⟩ | ⟨-, h⟩
    · exact .inr ⟨a, rfl, hc, h⟩
    · exact .inl (.of_entered_eq h)
  | reload found =>
    left
    cases found with
    | none => exact .of_entered_eq rfl
    | some found => exact .of_entered_eq (sync_entered found)
  | setCompactInline inline => exact .inl (.of_entered_eq rfl)
  | panics => exact .inl (.of_entered_eq rfl)

@[simp] theorem after_snoc (calls : List HandleCall) (c : HandleCall) :
    s.after xxh3 cfg (calls ++ [c]) = (s.after xxh3 cfg calls).next xxh3 cfg c := by
  simp [after]

@[simp] theorem compact_staged : (s.compact cfg a).2.staged = s.staged := by
  unfold compact
  cases s.writable with
  | error e => rfl
  | ok u =>
    rcases @underLock_cases cfg s a _ fun s => s.compactLocked a.compacted with
      ⟨-, -, h⟩ | ⟨-, e, t, h, hstaged, -⟩
    · simp only [h, compactLocked_staged, sync_staged]
    · simp only [h, hstaged]

/-! ## What is left staged

    The ledger of a handle: the ops of accepted calls that were neither
    committed nor discarded since. A failed transaction leaves none of its own,
    one that panics leaves all of them. While the count fits, the staged buffer
    is the ledger. -/

/-- An accepted push is one more op. -/
def accept (l : List Push) (p : Push) : List Push :=
  if (p.apply RecordBuf.new).isOk then l ++ [p] else l

/-- What a closure that was not committed leaves of its own. -/
def closureLeft (ends : ClosureEnd) (body l : List Push) : List Push :=
  match ends with
  | .panics => body.foldl accept l
  | _ => l

/-- What an operation makes of the ledger. -/
def leftNext (xxh3 : Bytes → UInt64) (cfg : Config) (s : WriteState) (l : List Push) :
    HandleCall → List Push
  | .stage p => if s.writable.isOk then accept l p else l
  | .discard => if s.writable.isOk then [] else l
  | .commit a => if (s.commit xxh3 cfg a).1.isOk then [] else l
  | .transact a body ends =>
    if (s.transact xxh3 cfg a body ends).1.isOk then []
    else if s.writable.isOk && a.locked.isOk && a.synced.isOk then closureLeft ends body l
    else l
  | _ => l

/-- The ledger after a sequence of operations. -/
def left (xxh3 : Bytes → UInt64) (cfg : Config) (s : WriteState) (calls : List HandleCall) :
    List Push :=
  (calls.foldl (fun st c => (st.1.next xxh3 cfg c, leftNext xxh3 cfg st.1 st.2 c)) (s, [])).2

/-- How many ops an operation may stage. -/
def pushes : HandleCall → Nat
  | .stage _ => 1
  | .transact _ body _ => body.length
  | _ => 0

/-- The staged buffer is the ledger. -/
def Tracks (s : WriteState) (l : List Push) : Prop :=
  Wal.Staged ⟨s.staged, []⟩ ⟨l, []⟩

namespace Tracks

variable {l : List Push}

theorem isEmpty_iff (h : Tracks s l) : s.staged.isEmpty = true ↔ l = [] := by
  have hcount : s.staged.ops = l.length := h.count
  rw [RecordBuf.isEmpty, beq_iff_eq, hcount, List.length_eq_zero_iff]

theorem of_staged_eq (h : Tracks s l) (ht : t.staged = s.staged) : Tracks t l := by
  rw [Tracks, ht]
  exact h

theorem nothing (ht : t.staged = RecordBuf.new) : Tracks t [] := by
  rw [Tracks, ht]
  exact Wal.Staged.new

theorem stage (h : Tracks s l) {p : Push} (hcount : l.length + 1 < 2 ^ 32) :
    Tracks (s.stage p) (accept l p) := by
  have hsame := (apply_isOk p s.staged).trans (apply_isOk p RecordBuf.new).symm
  cases hp : p.apply s.staged with
  | error e =>
    rw [hp] at hsame
    have hno : ¬(p.apply RecordBuf.new).isOk = true :=
      fun h' => by simpa [Except.isOk, Except.toBool] using hsame.mpr h'
    rw [accept, if_neg hno, WriteState.stage, hp]
    exact h
  | ok b =>
    rw [hp] at hsame
    have hyes := hsame.mp rfl
    rw [accept, if_pos hyes, WriteState.stage, hp]
    exact Wal.Staged.push h hp ((apply_isOk p RecordBuf.new).mp hyes) hcount

theorem accept_length_le (p : Push) : (accept l p).length ≤ l.length + 1 := by
  unfold accept
  split_ifs
  · simp
  · omega

theorem stageAll (h : Tracks s l) {body : List Push} (hcount : l.length + body.length < 2 ^ 32) :
    Tracks (body.foldl WriteState.stage s) (body.foldl accept l) := by
  induction body generalizing s l with
  | nil => exact h
  | cons p ps ih =>
    have hle := @accept_length_le l p
    rw [List.length_cons] at hcount
    exact ih (h.stage (by omega)) (by omega)

theorem le_accepted (body : List Push) : l <+: body.foldl accept l := by
  induction body generalizing l with
  | nil => exact List.prefix_refl l
  | cons p ps ih =>
    have hone : l <+: accept l p := by
      unfold accept
      split_ifs
      · exact List.prefix_append _ _
      · exact List.prefix_refl l
    exact hone.trans ih

/-- Back to a mark taken when the ledger was `l`. -/
theorem truncate (h : Tracks s l) {ps : List Push} (ht : Tracks t ps) (hl : l <+: ps) :
    Tracks { t with staged := t.staged.truncate s.staged.mark } l := by
  have hmark : s.staged.mark = markOf l := Wal.Staged.mark_eq h
  have hcut := Wal.Staged.truncate ht hl
  rw [← hmark] at hcut
  exact hcut

/-- A commit that lands leaves nothing, one that does not leaves everything. -/
theorem appendHeld (h : Tracks s l) :
    Tracks (s.appendHeld xxh3 cfg a).2
      (if (s.appendHeld xxh3 cfg a).1.isOk then [] else l) := by
  rcases @appendHeld_cases xxh3 cfg s a with ⟨e, t, heq, -, hkept⟩ | ⟨n, hempty, heq⟩ |
    ⟨n, t, heq, hnew, -⟩
  · rw [heq]
    rcases hkept with hkept | hsealed
    · exact h.of_staged_eq hkept
    · exact Wal.Staged.sealAt xxh3 h hsealed
  · rw [heq]
    have hnil := h.isEmpty_iff.mp hempty
    subst hnil
    exact h
  · rw [heq]
    exact nothing hnew

theorem sync (h : Tracks s l) (found : Except SyncFault Found) :
    Tracks (s.sync cfg found).2 l :=
  h.of_staged_eq (sync_staged found)

theorem runClosure (h : Tracks s l) {body : List Push} {ends : ClosureEnd}
    (hcount : l.length + body.length < 2 ^ 32) :
    Tracks (s.runClosure xxh3 cfg a body ends).2
      (if (s.runClosure xxh3 cfg a body ends).1.isOk then []
        else closureLeft ends body l) := by
  have hbody := h.stageAll hcount
  cases ends with
  | panics => exact hbody
  | err e => exact h.truncate hbody (le_accepted body)
  | ok =>
    have happ := @appendHeld xxh3 cfg _ a _ hbody
    rcases hr : (body.foldl WriteState.stage s).appendHeld xxh3 cfg a with ⟨r, t⟩
    rw [hr] at happ
    cases r with
    | ok n =>
      have heq : s.runClosure xxh3 cfg a body .ok = (.ok (), t) := by
        simp only [WriteState.runClosure, hr]
      rw [heq]
      exact happ
    | error e =>
      have heq : s.runClosure xxh3 cfg a body .ok
          = (.error e, { t with staged := t.staged.truncate s.staged.mark }) := by
        simp only [WriteState.runClosure, hr]
      rw [heq]
      exact h.truncate happ (le_accepted body)

/-- What one operation keeps. -/
theorem next (h : Tracks s l) {c : HandleCall} (hcount : l.length + pushes c < 2 ^ 32) :
    Tracks (s.next xxh3 cfg c) (leftNext xxh3 cfg s l c) := by
  cases c with
  | stage p =>
    simp only [WriteState.next, leftNext]
    split_ifs
    · exact h.stage hcount
    · exact h
  | discard =>
    simp only [WriteState.next, leftNext]
    split_ifs
    · exact nothing rfl
    · exact h
  | commit a =>
    simp only [WriteState.next, leftNext]
    rcases @commit_cases xxh3 cfg s a with ⟨e, t, heq, hkept, -⟩ | ⟨n, hempty, heq⟩ | heq
    · rw [heq]
      exact h.of_staged_eq hkept
    · rw [heq]
      have hnil := h.isEmpty_iff.mp hempty
      subst hnil
      exact h
    · rw [heq]
      exact (h.sync a.synced).appendHeld
  | transact a body ends =>
    simp only [WriteState.next, leftNext]
    rcases @transact_cases xxh3 cfg s a body ends with
      ⟨hruns, heq⟩ | ⟨hruns, e, t, heq, hkept, -⟩
    · have hrun := @runClosure xxh3 cfg _ a _ (@sync cfg _ _ h a.synced) body ends hcount
      rw [heq, hruns]
      exact hrun
    · -- the closure never ran
      rw [heq, hruns]
      exact h.of_staged_eq hkept
  | compact a =>
    exact h.of_staged_eq compact_staged
  | reload found =>
    cases found with
    | none => exact h
    | some found => exact h.sync found
  | setCompactInline inline => exact h
  | panics => exact h

end Tracks

theorem left_snoc (s : WriteState) (calls : List HandleCall) (c : HandleCall) :
    s.left xxh3 cfg (calls ++ [c])
      = leftNext xxh3 cfg (s.after xxh3 cfg calls) (s.left xxh3 cfg calls) c := by
  have hfirst : (calls.foldl (fun st c => (st.1.next xxh3 cfg c, leftNext xxh3 cfg st.1 st.2 c))
      (s, ([] : List Push))).1 = s.after xxh3 cfg calls := by
    induction calls using List.reverseRecOn with
    | nil => rfl
    | append_singleton calls c ih =>
      rw [List.foldl_append, List.foldl_cons, List.foldl_nil, ih, after_snoc]
  rw [left, List.foldl_append, List.foldl_cons, List.foldl_nil, hfirst]
  rfl

/-- Fewer than `2 ^ 32` ops staged at once, over a sequence of operations. -/
def FewStaged (xxh3 : Bytes → UInt64) (cfg : Config) (s : WriteState) (calls : List HandleCall) :
    Prop :=
  ∀ pre c, pre ++ [c] <+: calls → (s.left xxh3 cfg pre).length + pushes c < 2 ^ 32

/-- While the count fits, the staged buffer of every handle is its ledger. -/
theorem Tracks.after {nextSeq : UInt64} {replayed goodLen : Nat} {readOnly : Bool}
    {calls : List HandleCall}
    (hfew : FewStaged xxh3 cfg (assemble nextSeq replayed goodLen readOnly) calls) :
    Tracks ((assemble nextSeq replayed goodLen readOnly).after xxh3 cfg calls)
      ((assemble nextSeq replayed goodLen readOnly).left xxh3 cfg calls) := by
  induction calls using List.reverseRecOn with
  | nil => exact nothing rfl
  | append_singleton calls c ih =>
    rw [after_snoc, left_snoc]
    exact (ih fun pre c' hpre => hfew pre c' (hpre.trans (List.prefix_append _ _))).next
      (hfew calls c (List.prefix_refl _))

/-! ## Every run -/

/-- Every start had nothing staged if and only if those from `Store::compact`
    did. -/
theorem entered_empty_iff {s : WriteState} (hs : s.entered = []) (calls : List HandleCall) :
    (∀ b ∈ (s.after xxh3 cfg calls).entered, b.isEmpty = true) ↔
      ∀ pre a, pre ++ [.compact a] <+: calls → (s.after xxh3 cfg pre).Compacts a →
        (s.after xxh3 cfg pre).staged.isEmpty = true := by
  induction calls using List.reverseRecOn with
  | nil =>
    constructor
    · intro _ pre a hpre
      simp at hpre
    · intro _ b hb
      simp [after, hs] at hb
  | append_singleton calls c ih =>
    rw [after_snoc]
    have hstep := @next_entered xxh3 cfg (s.after xxh3 cfg calls) c
    constructor
    · intro hall pre a hpre hc
      rcases List.prefix_concat_iff.mp hpre with heq | hpre
      · -- the last call is this compaction
        obtain ⟨rfl, hlast⟩ := List.append_inj' heq rfl
        cases hlast
        rcases @compact_entered cfg (s.after xxh3 cfg pre) a with ⟨-, h⟩ | ⟨hnot, -⟩
        · refine hall _ ?_
          simp only [next]
          rw [h]
          simp
        · exact absurd hc hnot
      · refine ih.mp ?_ pre a hpre hc
        intro b hb
        refine hall b ?_
        rcases hstep with ⟨starts, h, -⟩ | ⟨a', -, -, h⟩
        · rw [h]
          exact List.mem_append_left _ hb
        · rw [h]
          exact List.mem_append_left _ hb
    · intro hcond b hb
      have hbefore := ih.mpr fun pre a hpre hc =>
        hcond pre a (hpre.trans (List.prefix_append _ _)) hc
      rcases hstep with ⟨starts, h, hnew⟩ | ⟨a, rfl, hc, h⟩
      · rw [h] at hb
        rcases List.mem_append.mp hb with hb | hb
        · exact hbefore b hb
        · rw [hnew b hb]
          rfl
      · rw [h] at hb
        rcases List.mem_append.mp hb with hb | hb
        · exact hbefore b hb
        · rw [List.mem_singleton.mp hb]
          exact hcond calls a (List.prefix_refl _) hc

/-- Over every sequence of operations on a new handle: every compaction starts
    with nothing staged if and only if nothing is staged whenever
    `Store::compact` gets the commit lock and catches up; and as long as fewer
    than `2 ^ 32` ops are staged at once, nothing is staged exactly when the
    ledger is empty. -/
theorem compact_unstaged_iff (xxh3 : Bytes → UInt64) (cfg : Config) (nextSeq : UInt64)
    (replayed goodLen : Nat) (readOnly : Bool) (calls : List HandleCall) :
    let s := assemble nextSeq replayed goodLen readOnly
    ((∀ b ∈ (s.after xxh3 cfg calls).entered, b.isEmpty = true) ↔
      ∀ pre a, pre ++ [.compact a] <+: calls → (s.after xxh3 cfg pre).Compacts a →
        (s.after xxh3 cfg pre).staged.isEmpty = true) ∧
    (s.FewStaged xxh3 cfg calls → ∀ pre, pre <+: calls →
      ((s.after xxh3 cfg pre).staged.isEmpty = true ↔ s.left xxh3 cfg pre = [])) := by
  refine ⟨entered_empty_iff rfl calls, ?_⟩
  intro hfew pre hpre
  exact (Tracks.after fun pre' c h => hfew pre' c (h.trans hpre)).isEmpty_iff

/-- Answers of a machine on which everything works. -/
def Answers.fine : Answers :=
  ⟨.ok (), .ok ⟨1, 0, headerLen, false⟩, .ok true, .ok (), .ok (), .done 0⟩

/-- A writer stages a remove and is dropped; the compaction that comes next
    starts with it staged. -/
theorem compact_starts_staged : ¬∀ calls : List HandleCall,
    ∀ b ∈ ((assemble 1 0 headerLen false).after (fun _ => 0)
      ⟨.always, 4096, 4194304⟩ calls).entered, b.isEmpty = true := by
  intro h
  have hbad := h [.stage (.remove 9), .compact Answers.fine]
  revert hbad
  decide +kernel

end WriteState

end GraphR
