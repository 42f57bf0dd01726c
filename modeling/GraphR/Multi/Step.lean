import GraphR.Library.Run
import GraphR.Multi.Files

/-! # Many handles on one store

    Every party runs the source's own code; a step is one file-system effect, or
    one look at a file by a party that holds no lock. What a party does under
    the commit lock between two of its writes is one step: nobody else writes
    then, and it changes nothing another party can see.

    - `open` and `reload_if_stale` take no lock: a `stat` of each file, then a
      read of the log (tail) or of the base and the log (full) are separate
      steps, and the code re-reads when it caught a compaction between its
      renames.
    - A locked operation is `acquire`, `sync` (catch up and repair), then the
      append in as many writes as the system makes of it, or a compaction's two
      renames, then `release`. A `CommitLock` that is kept is `park`, used again
      `resume`.
    - `crash` may hit a party anywhere; `fail` is an append that failed after
      some or all of its bytes, and is cut back. -/

namespace GraphR.Multi

open Wal ByteLib

/-! ## Parties -/

/-- A transaction closure: what it stages, as a function of the snapshot it
    sees; `none` is `Err`. -/
abbrev Closure := View → Option (List OpBytes)

/-- How a record came about: `commit` of the staged ops, or `transact` of a
    closure with the ops an earlier writer left staged. -/
inductive Origin where
  | commit (staged : List OpBytes)
  | transact (left : List OpBytes) (f : Closure)

/-- Where a handle stands inside an operation. -/
inductive Phase where
  | idle
  /-- The base is examined, the log is next. -/
  | based (b : Option Nat)
  /-- Only the log grew: its tail is to be read. -/
  | tail (now : Stamp)
  /-- Both files are to be read, the base first. -/
  | full (now : Option Stamp)
  /-- The base is mapped, the log is to be read. -/
  | mapped (now : Option Stamp) (b : DiskBase)
  /-- The commit lock is taken. -/
  | locked
  /-- Caught up under the lock. -/
  | synced
  /-- `k` bytes of `r` are written; on a failure `undo` is staged again. -/
  | appending (r : SealedRecord) (k : Nat) (origin : Origin) (undo : List OpBytes)
  /-- The new base is in place, the log not reset yet. -/
  | compacting (applied : Nat)
  /-- Done under the lock. -/
  | done

/-- A handle: the ring it serves from and its write state. `source` is history, read by no
    step. -/
structure Handle where
  ring : Ring
  seen : Seen
  /-- The log its offset was read from. -/
  source : Option Nat
  nextSeq : Nat
  diskGeneration : Nat
  staged : List OpBytes
  /-- The file its append descriptor is open on. -/
  wal : Option Nat
  phase : Phase

inductive Party where
  | out
  /-- Laying down a fresh store, under the lock. -/
  | creating
  | opening (phase : Phase)
  | live (h : Handle)

/-- The commit lock: free, or held; by a party inside an operation, or kept as
    a `CommitLock` that no operation uses right now. -/
inductive Lock where
  | free
  | held (user : Option Nat)
  deriving DecidableEq

/-- The directory and every party. The last four fields are history, read by no
    step: the records whose last byte reached the log, how each came about,
    those whose commit returned, and the bases renamed into place. -/
structure Sys where
  base : Option DiskBase
  log : Option DiskLog
  /-- The next file identity. -/
  fresh : Nat
  lock : Lock
  parties : Nat → Party
  hist : List SealedRecord
  origins : List Origin
  acked : List SealedRecord
  written : List DiskBase

def Sys.init : Sys := ⟨none, none, 0, .free, fun _ => .out, [], [], [], []⟩

/-- Two `stat` calls at one moment. -/
def Sys.stamp (s : Sys) : Option Stamp :=
  s.base.map fun b => ⟨b.ident, s.log.map DiskLog.stamp⟩

def Sys.setParty (s : Sys) (p : Nat) (x : Party) : Sys :=
  { s with parties := Function.update s.parties p x }

/-! ## Catching up -/

/-- How a catch-up brings a handle up to the files. -/
inductive Caught where
  | nothing
  | tail
  | full
  deriving DecidableEq

/-- What `catch_up` does for a handle that finds the files as `now`. -/
def Seen.caught (seen : Seen) (now : Option Stamp) : Caught :=
  match now, seen.stamp with
  | some n, some l =>
    if n = l then .nothing
    else
      match n.wal, l.wal with
      | some (ni, nlen), some (li, _) =>
        if n.base = l.base ∧ ni = li ∧ seen.walPos ≤ nlen ∧ headerLen ≤ seen.walPos then .tail
        else .full
      | _, _ => .full
  | _, _ => .full

namespace Handle

def served (h : Handle) : Gen := h.ring.served

/-- Advance to what a catch-up found. -/
def adopt (h : Handle) : Handle :=
  { h with
    nextSeq := max h.nextSeq (h.served.servedSeq + 1)
    diskGeneration := max h.diskGeneration h.seen.baseGen }

variable (xxh3 : Bytes → UInt64)

/-- Read the log's tail and publish it. -/
def readTail (h : Handle) (now : Stamp) (log : Option DiskLog) : Except Error Handle := do
  let (r, pos) ← reloadWalTail xxh3 h.ring log h.seen.walPos
  .ok { h with
    ring := r
    seen := { h.seen with stamp := some now, walPos := pos }
    source := log.map DiskLog.ident }

/-- Install or apply a base and a log that were read; `none`: read again. -/
def readFull (h : Handle) (now : Option Stamp) (b : DiskBase) (log : Option DiskLog) :
    Except Error (Option Handle) := do
  match ← installOrApply xxh3 h.ring b log with
  | none => .ok none
  | some a =>
    .ok (some { h with
      ring := a.ring
      seen := ⟨now, a.pos, a.current, b.generation⟩
      source := log.map DiskLog.ident
      wal := none })

/-- `catch_up` under the commit lock, where a newer log is damage. -/
def catchUp (s : Sys) (h : Handle) : Except Error Handle :=
  match h.seen.caught s.stamp, s.base, s.stamp with
  | .nothing, _, _ => .ok h
  | .tail, _, some now => h.readTail xxh3 now s.log
  | _, some b, now => do
    match ← h.readFull xxh3 now b s.log with
    | some h' => .ok h'
    | none => .error (.corrupt "wal is newer than base")
  | _, none, _ => .error .io

end Handle

/-- `repair`: give a missing or older log a header, or cut a torn tail off. -/
def Sys.repair (s : Sys) (h : Handle) : Sys × Handle :=
  if ¬h.seen.logCurrent then
    let l : DiskLog := ⟨s.fresh, h.seen.baseGen, []⟩
    let s' := { s with log := some l, fresh := s.fresh + 1 }
    (s', { h with
      seen := ⟨s'.stamp, headerLen, true, h.seen.baseGen⟩
      source := some l.ident
      wal := none })
  else
    match h.seen.stamp with
    | some ⟨b, some (ident, len)⟩ =>
      if h.seen.walPos < len then
        ({ s with log := s.log.map fun l => l.cut h.seen.walPos },
          { h with seen := { h.seen with stamp := some ⟨b, some (ident, h.seen.walPos)⟩ } })
      else (s, h)
    | _ => (s, h)

/-! ## Appending -/

/-- Seal staged ops into one record numbered from `firstSeq`. -/
def sealOps (staged : List OpBytes) (firstSeq : Nat) : Option SealedRecord :=
  if h : staged.map Subtype.val ≠ [] ∧
      recordHeaderLen + (staged.map Subtype.val).flatten.length ≤ maxRecord ∧
      firstSeq ≠ 0 ∧ firstSeq + ((staged.map Subtype.val).length - 1) < 2 ^ 64 then
    some
      { firstSeq := UInt64.ofNat firstSeq
        ops := staged.map Subtype.val
        ops_ne := h.1
        ops_valid := by
          intro c hc
          obtain ⟨o, -, rfl⟩ := List.mem_map.mp hc
          exact o.2
        size_le := h.2.1
        first_ne := by
          intro hz
          have hn := congrArg UInt64.toNat hz
          rw [UInt64.toNat_ofNat_of_lt' (by simp only [UInt64.size]; omega)] at hn
          exact h.2.2.1 hn
        no_overflow := by
          rw [UInt64.toNat_ofNat_of_lt' (by simp only [UInt64.size]; omega)]
          exact h.2.2.2 }
  else none

/-- `append_held` up to its first write: `staged` sealed, room made in the
    overlay, the log open. `none` when it refuses. -/
def Sys.startAppend (s : Sys) (h : Handle) (staged : List OpBytes) (origin : Origin) :
    Option Handle := do
  let r ← sealOps staged h.nextSeq
  if h.served.reserve r.ops.length r.len then
    let l ← s.log
    some { h with
      staged := staged
      wal := some (h.wal.getD l.ident)
      phase := .appending r 0 origin h.staged }
  else none

/-! ## Steps -/

/-- What can happen next. -/
inductive Act where
  | create (p : Nat)
  | layLog (p : Nat)
  | layBase (p : Nat)
  | openBase (p : Nat)
  | openLog (p : Nat)
  | openMap (p : Nat)
  | openRead (p : Nat)
  | reload (p : Nat)
  | reloadStat (p : Nat)
  | reloadTail (p : Nat)
  | reloadMap (p : Nat)
  | reloadRead (p : Nat)
  | giveUp (p : Nat)
  | pin (p : Nat)
  | unpin (p : Nat) (i : Fin 4)
  | stage (p : Nat) (ops : List OpBytes)
  | discard (p : Nat)
  | acquire (p : Nat)
  | resume (p : Nat)
  | sync (p : Nat)
  | commit (p : Nat)
  | transact (p : Nat) (f : Closure)
  | write (p : Nat) (n : Nat)
  | complete (p : Nat)
  | fail (p : Nat)
  | compactBase (p : Nat)
  | compactLog (p : Nat)
  | release (p : Nat)
  | park (p : Nat)
  | dropLock
  | crash (p : Nat)

/-- The stamp a party has after its second `stat`. -/
def Sys.stampOn (s : Sys) (b : Option Nat) : Option Stamp :=
  b.map fun b => ⟨b, s.log.map DiskLog.stamp⟩

namespace Sys

variable (xxh3 : Bytes → UInt64)

/-- `open_with`, `load_generation` and `assemble`. -/
def stepOpen (s : Sys) : Phase → Option Party
  | .based b => some (.opening (.full (s.stampOn b)))
  | .full now =>
    match s.base with
    | some b => some (.opening (.mapped now b))
    | none => some .out
  | .mapped now b =>
    match buildGeneration xxh3 b s.log with
    | .error _ => some .out
    | .ok built =>
      if built.log = .newer then some (.opening (.full now))
      else some (.live
        { ring := .of built.gen
          seen := ⟨now, built.goodLen, isCurrent built.log, b.generation⟩
          source := s.log.map DiskLog.ident
          nextSeq := built.nextSeq
          diskGeneration := b.generation
          staged := []
          wal := none
          phase := .idle })
  | _ => none

/-- `sync(repair = false)`, from one file access to the next. -/
def stepReload (s : Sys) (h : Handle) : Phase → Option Handle
  | .based b =>
    let now := s.stampOn b
    match h.seen.caught now, now with
    | .nothing, _ => some { h with phase := .idle }
    | .tail, some now => some { h with phase := .tail now }
    | _, now => some { h with phase := .full now }
  | .tail now =>
    match h.readTail xxh3 now s.log with
    | .error _ => some { h with phase := .idle }
    | .ok h' => some { h'.adopt with phase := .idle }
  | .full now =>
    match s.base with
    | some b => some { h with phase := .mapped now b }
    | none => some { h with phase := .idle }
  | .mapped now b =>
    match h.readFull xxh3 now b s.log with
    | .error _ => some { h with phase := .idle }
    | .ok none => some { h with phase := .full now }
    | .ok (some h') => some { h'.adopt with phase := .idle }
  | _ => none

/-- `sync(repair = true)`. -/
def stepSync (s : Sys) (h : Handle) : Sys × Handle :=
  match h.catchUp xxh3 s with
  | .error _ => (s, { h with phase := .done })
  | .ok h' =>
    let (s', h'') := s.repair h'
    (s', { h''.adopt with phase := .synced })

/-- `n` more bytes of `r` reach the log, through the handle's descriptor. -/
def stepWrite (s : Sys) (p : Nat) (h : Handle) (r : SealedRecord) (k : Nat) (origin : Origin)
    (undo : List OpBytes) (n : Nat) : Sys :=
  let log := s.log.map fun l : DiskLog =>
    if h.wal = some l.ident then { l with frames := l.frames ++ range (r.bytes xxh3) k n } else l
  let s' := { s with log := log }
  let s'' := if k + n = r.len then
      { s' with hist := s.hist ++ [r], origins := s.origins ++ [origin] } else s'
  s''.setParty p (.live { h with phase := .appending r (k + n) origin undo })

/-- The append is durable: account for it and publish. -/
def stepComplete (s : Sys) (p : Nat) (h : Handle) (r : SealedRecord) : Sys :=
  { s with acked := s.acked ++ [r] }.setParty p (.live
    { h with
      ring := h.ring.serve (h.served.publishRecords (r.bytes xxh3) (r.firstSeq.toNat - 1))
      seen := h.seen.appended r.len
      nextSeq := h.nextSeq + r.ops.length
      staged := []
      phase := .synced })

/-- The append failed after `k` bytes: cut the log back and forget the file. -/
def stepFail (s : Sys) (p : Nat) (h : Handle) (r : SealedRecord) (k : Nat) (undo : List OpBytes) :
    Sys :=
  let s' := { s with log := s.log.map fun l : DiskLog => l.cut h.seen.walPos }
  let s'' := if k = r.len then
      { s' with hist := s.hist.dropLast, origins := s.origins.dropLast } else s'
  s''.setParty p (.live
    { h with staged := undo, wal := none, seen := { h.seen with stamp := none }, phase := .done })

/-- `compact_locked` up to the rename of the new base. -/
def stepCompactBase (s : Sys) (p : Nat) (h : Handle) : Sys :=
  let b : DiskBase :=
    { ident := s.fresh
      generation := max h.served.base.generation h.diskGeneration + 1
      applied := h.nextSeq - 1
      folded := h.served.base.folded ++ [h.served.log] }
  { s with base := some b, fresh := s.fresh + 1, written := s.written ++ [b] }.setParty p
    (.live { h with diskGeneration := b.generation, phase := .compacting b.applied })

/-- The log reset, and the new base installed into a free ring slot. -/
def stepCompactLog (s : Sys) (p : Nat) (h : Handle) (b : DiskBase) (applied : Nat) : Sys :=
  let s' := { s with log := some ⟨s.fresh, h.diskGeneration, []⟩, fresh := s.fresh + 1 }
  let h' :=
    { h with nextSeq := applied + 1, wal := none, seen := .unseen, source := none, phase := .done }
  match h.ring.install ⟨b, [], 0⟩ with
  | none => s'.setParty p (.live h')
  | some r =>
    s'.setParty p (.live
      { h' with
        ring := r
        seen := ⟨s'.stamp, headerLen, true, h.diskGeneration⟩
        source := some s.fresh })

/-- A handle takes a step of its own. -/
def act (s : Sys) (p : Nat) (h : Handle) : Act → Option Sys
  | .reload _ =>
    match h.phase with
    | .idle => some (s.setParty p (.live { h with phase := .based (s.base.map DiskBase.ident) }))
    | _ => none
  | .reloadStat _ =>
    match h.phase with
    | .based _ => (s.stepReload xxh3 h h.phase).map fun h' => s.setParty p (.live h')
    | _ => none
  | .reloadTail _ =>
    match h.phase with
    | .tail _ => (s.stepReload xxh3 h h.phase).map fun h' => s.setParty p (.live h')
    | _ => none
  | .reloadMap _ =>
    match h.phase with
    | .full _ => (s.stepReload xxh3 h h.phase).map fun h' => s.setParty p (.live h')
    | _ => none
  | .reloadRead _ =>
    match h.phase with
    | .mapped _ _ => (s.stepReload xxh3 h h.phase).map fun h' => s.setParty p (.live h')
    | _ => none
  | .giveUp _ =>
    match h.phase with
    | .full _ => some (s.setParty p (.live { h with phase := .idle }))
    | _ => none
  | .pin _ => some (s.setParty p (.live { h with ring := h.ring.pin }))
  | .unpin _ i => some (s.setParty p (.live { h with ring := h.ring.unpin i }))
  | .stage _ ops =>
    match h.phase with
    | .idle => some (s.setParty p (.live { h with staged := h.staged ++ ops }))
    | _ => none
  | .discard _ =>
    match h.phase with
    | .idle => some (s.setParty p (.live { h with staged := [] }))
    | _ => none
  | .acquire _ =>
    match h.phase, s.lock with
    | .idle, .free =>
      some ({ s with lock := .held (some p) }.setParty p (.live { h with phase := .locked }))
    | _, _ => none
  | .resume _ =>
    match h.phase, s.lock with
    | .idle, .held none =>
      some ({ s with lock := .held (some p) }.setParty p (.live { h with phase := .locked }))
    | _, _ => none
  | .sync _ =>
    match h.phase with
    | .locked =>
      let (s', h') := s.stepSync xxh3 h
      some (s'.setParty p (.live h'))
    | _ => none
  | .commit _ =>
    match h.phase with
    | .synced =>
      match s.startAppend h h.staged (.commit h.staged) with
      | some h' => some (s.setParty p (.live h'))
      | none => some (s.setParty p (.live { h with phase := .done }))
    | _ => none
  | .transact _ f =>
    match h.phase with
    | .synced =>
      match (f h.served.view).bind fun ops =>
        s.startAppend h (h.staged ++ ops) (.transact h.staged f) with
      | some h' => some (s.setParty p (.live h'))
      | none => some (s.setParty p (.live { h with phase := .done }))
    | _ => none
  | .write _ n =>
    match h.phase with
    | .appending r k origin undo =>
      if 0 < n ∧ k + n ≤ r.len then some (s.stepWrite xxh3 p h r k origin undo n) else none
    | _ => none
  | .complete _ =>
    match h.phase with
    | .appending r k _ _ => if k = r.len then some (s.stepComplete xxh3 p h r) else none
    | _ => none
  | .fail _ =>
    match h.phase with
    | .appending r k _ undo => some (s.stepFail p h r k undo)
    | _ => none
  | .compactBase _ =>
    match h.phase with
    | .synced => some (s.stepCompactBase p h)
    | _ => none
  | .compactLog _ =>
    match h.phase, s.base with
    | .compacting applied, some b => some (s.stepCompactLog p h b applied)
    | _, _ => none
  | .release _ =>
    match h.phase with
    | .locked | .synced | .done =>
      some ({ s with lock := .free }.setParty p (.live { h with phase := .idle }))
    | _ => none
  | .park _ =>
    match h.phase with
    | .synced | .done =>
      some ({ s with lock := .held none }.setParty p (.live { h with phase := .idle }))
    | _ => none
  | _ => none

/-- The party that takes an action. -/
def party : Act → Option Nat
  | .create p | .layLog p | .layBase p | .openBase p | .openLog p | .openMap p | .openRead p
  | .reload p | .reloadStat p | .reloadTail p | .reloadMap p | .reloadRead p | .giveUp p
  | .pin p | .unpin p _ | .stage p _ | .discard p | .acquire p | .resume p | .sync p
  | .commit p | .transact p _ | .write p _ | .complete p | .fail p | .compactBase p
  | .compactLog p | .release p | .park p | .crash p => some p
  | .dropLock => none

/-- One step. -/
def step (s : Sys) (a : Act) : Option Sys :=
  match a with
  | .create p =>
    match s.parties p, s.lock, s.base with
    | .out, .free, none => some ({ s with lock := .held (some p) }.setParty p .creating)
    | _, _, _ => none
  | .layLog p =>
    match s.parties p, s.log with
    | .creating, none => some { s with log := some ⟨s.fresh, 1, []⟩, fresh := s.fresh + 1 }
    | _, _ => none
  | .layBase p =>
    match s.parties p, s.log with
    | .creating, some _ =>
      let b : DiskBase := ⟨s.fresh, 1, 0, []⟩
      some ({ s with base := some b, fresh := s.fresh + 1, lock := .free
                     written := s.written ++ [b] }.setParty p .out)
    | _, _ => none
  | .openBase p =>
    match s.parties p with
    | .out => some (s.setParty p (.opening (.based (s.base.map DiskBase.ident))))
    | _ => none
  | .openLog p =>
    match s.parties p with
    | .opening (.based b) => (s.stepOpen xxh3 (.based b)).map (s.setParty p)
    | _ => none
  | .openMap p =>
    match s.parties p with
    | .opening (.full now) => (s.stepOpen xxh3 (.full now)).map (s.setParty p)
    | _ => none
  | .openRead p =>
    match s.parties p with
    | .opening (.mapped now b) => (s.stepOpen xxh3 (.mapped now b)).map (s.setParty p)
    | _ => none
  | .dropLock => if s.lock = .held none then some { s with lock := .free } else none
  | .crash p =>
    let lock := if s.lock = .held (some p) then .free else s.lock
    some ({ s with lock }.setParty p .out)
  | a =>
    match party a with
    | none => none
    | some p =>
      match s.parties p with
      | .live h => s.act xxh3 p h a
      | _ => none

end Sys

end GraphR.Multi
