import GraphR.Store.Open
import GraphR.Store.RenderedFile
import GraphR.Library.Simulation

/-! # A store on disk

    One handle over the bytes of its two files: what a transaction appends to the
    log, what a compaction renders and puts in the place of base and log, what an open
    finds there and repairs. A process can die at any byte of an append, and between
    the two renames of a compaction; the next one opens what is left.

    Numbers that leave `u64` are a fault, as a read out of bounds is: `none`. -/

namespace GraphR.OnDisk

open Wal ByteLib BaseFile Multi Opening

/-- A store directory and the handle open on it. -/
structure State where
  files : Files
  handle : Opening.Handle
  nextSeq : Nat

/-- The files with bytes appended to the log. -/
def appendLog (files : Files) (bytes : Bytes) : Files :=
  { files with wal := files.wal.map fun w => { w with bytes := w.bytes ++ bytes } }

/-- `lay_down`. -/
def layDown (xxh3 : Bytes → UInt64) (env : Env) : Files :=
  ⟨⟨env.fresh, renderEmptyBase xxh3 1⟩, some ⟨env.fresh + 1, encodeHeader xxh3 1 env.nowMs⟩⟩

/-- What happens to a store. Where a process dies, the next one opens the files; the
    second clock is its own. -/
inductive Event where
  | transact (env : Env) (edits : List Edit)
  | compact (env : Env)
  | reopen (env : Env)
  /-- It dies with `kept` bytes of the record in the log, or all of them. -/
  | dieInAppend (env env' : Env) (edits : List Edit) (kept : Nat)
  /-- It dies with the new base in place and the log still the old one. -/
  | dieInCompact (env env' : Env)

section steps
variable (xxh3 : Bytes → UInt64) (u : Unicode)
  (rank : SortedMap UrlKey NodeModel → List UInt16) (ttl : TtlConfig)

/-- `Store::open`, with the commit lock free. -/
def opened (env : Env) (files : Files) : Option State :=
  match openWith xxh3 env files false true with
  | (.ok handle, writes) =>
    if 2 ^ 64 ≤ handle.servedSeq + 1 then none
    else some ⟨files.after writes, handle, handle.servedSeq + 1⟩
  | (.error _, _) => none

namespace State

variable (s : State)

/-- The read view of the handle. -/
def snapshot : Option Snapshot := do
  let ops ← s.handle.ops.mapM fun e => e.2.read
  some ⟨reader (s.handle.dir.sec s.handle.base) s.handle.dir.header, ops, ttl⟩

/-- `sync` under the commit lock: catch up, repair, adopt. -/
def sync (env : Env) : Except Error State :=
  match s.handle.catchUp xxh3 s.files with
  | .error e => .error e
  | .ok h =>
    .ok ⟨s.files.after (h.repair xxh3 env).2, (h.repair xxh3 env).1,
      max s.nextSeq ((h.repair xxh3 env).1.servedSeq + 1)⟩

/-! ### Transactions -/

/-- What a batch stages. -/
def staged (edits : List Edit) : Option RecordBuf := do
  let view ← s.snapshot ttl
  edits.foldlM (fun b e => e.stage view b) RecordBuf.new

/-- The record an append writes, and the handle that has published it; `none` where
    the append is refused or there is nothing to append. -/
def record (staged : RecordBuf) : Option (Bytes × Opening.Handle) :=
  if staged.isEmpty ∨ s.files.wal = none then none
  else
    match staged.seal xxh3 (UInt64.ofNat s.nextSeq) with
    | .error _ => none
    | .ok sealed =>
      -- room is made before the write, so that publishing cannot fail after it
      if arenaCapacity < s.handle.ops.length + sealed.ops ∨ offMask < sealed.len then none
      else
        some (sealed.buf, { s.handle with
          ops := s.handle.ops ++
            opsAbove (s.nextSeq - 1) (records sealed.buf 0 sealed.buf.length) })

/-- `append_held`. -/
def append (staged : RecordBuf) : Option State :=
  match s.record xxh3 staged with
  | none => some s
  | some (bytes, h) =>
    if 2 ^ 64 ≤ s.nextSeq + staged.ops then none
    else some ⟨appendLog s.files bytes, { h with seen := h.seen.appended bytes.length },
      s.nextSeq + staged.ops⟩

/-- The files if the process dies in that append. -/
def torn (staged : RecordBuf) (kept : Nat) : Files :=
  match s.record xxh3 staged with
  | none => s.files
  | some (bytes, _) => appendLog s.files (bytes.take kept)

/-! ### Compaction -/

def newGeneration : Nat :=
  max s.handle.dir.header.generation.toNat s.handle.seen.baseGen + 1

/-- The base a compaction writes. -/
def render : Option Bytes := do
  let view ← s.snapshot ttl
  let nodes ← view.compactNodes xxh3
  if 2 ^ 64 ≤ s.newGeneration then none
  else
    Base.render xxh3 u ⟨nodes, rank nodes⟩ (UInt64.ofNat s.newGeneration)
      (UInt64.ofNat (s.nextSeq - 1))

/-- `compact_locked`: base, then log, then the new base mapped and parsed. -/
def compactLocked (env : Env) : Option State := do
  let base ← s.render xxh3 u rank ttl
  let generation := UInt64.ofNat s.newGeneration
  let files : Files :=
    ⟨⟨env.fresh, base⟩, some ⟨env.fresh + 1, encodeHeader xxh3 generation env.nowMs⟩⟩
  let dir ← (BaseDir.parse xxh3 base).toOption
  some ⟨files, ⟨dir, base, [], ⟨files.stamp, Wal.headerLen, true, s.newGeneration⟩⟩,
    s.nextSeq - 1 + 1⟩

end State

/-- One event. A call that is refused leaves the store as it is. -/
def exec (s : State) : Event → Option State
  | .transact env edits =>
    match s.sync xxh3 env with
    | .error _ => some s
    | .ok s => do
      let staged ← s.staged ttl edits
      s.append xxh3 staged
  | .compact env =>
    match s.sync xxh3 env with
    | .error _ => some s
    | .ok s => s.compactLocked xxh3 u rank ttl env
  | .reopen env => opened xxh3 env s.files
  | .dieInAppend env env' edits kept =>
    match s.sync xxh3 env with
    | .error _ => opened xxh3 env' s.files
    | .ok s => do
      let staged ← s.staged ttl edits
      opened xxh3 env' (s.torn xxh3 staged kept)
  | .dieInCompact env env' =>
    match s.sync xxh3 env with
    | .error _ => opened xxh3 env' s.files
    | .ok s => do
      let base ← s.render xxh3 u rank ttl
      opened xxh3 env' ⟨⟨env.fresh, base⟩, s.files.wal⟩

/-- A new store. -/
def create (env : Env) : Option State := opened xxh3 env (layDown xxh3 env)

/-! ### Room

    What an event asks of the sizes: a base within the integer fields of the format,
    a generation within 64 bits, a log image an overlay can address. -/

def State.roomFor (s : State) : Event → Bool
  | .transact _ _ => true
  | .reopen _ => s.files.walBytes.length ≤ offMask
  | .dieInAppend _ _ _ _ => s.files.walBytes.length + maxRecord ≤ offMask
  | .compact _ | .dieInCompact _ _ =>
    decide (s.newGeneration < 2 ^ 64) && (s.snapshot ttl).all fun view =>
      (view.compactNodes xxh3).all fun nodes => decide (Base.Room xxh3 u ⟨nodes, rank nodes⟩)

end steps

/-! ## The decoded store

    The same events over decoded files. A transaction takes effect whole or not at
    all; a compaction whose base is in place has happened. -/

section decoded
variable (xxh3 : Bytes → UInt64) (rank : SortedMap UrlKey NodeModel → List UInt16)
  (ttl : TtlConfig)

/-- Sealing refuses what is staged, or the overlay has no room for it. -/
def refuses (h : GraphR.Handle) (staged : RecordBuf) : Bool :=
  staged.isEmpty || !(staged.seal xxh3 (UInt64.ofNat h.nextSeq)).isOk ||
    decide (arenaCapacity < h.overlay.length + staged.ops)

/-- Commit what is staged, or refuse it. -/
def settle (h : GraphR.Handle) (staged : RecordBuf) : Option GraphR.Handle :=
  if refuses xxh3 h staged then some h
  else if 2 ^ 64 ≤ h.nextSeq + staged.ops then none
  else h.commit xxh3 staged

/-- Whether `kept` bytes are all of the record. -/
def whole (h : GraphR.Handle) (staged : RecordBuf) (kept : Nat) : Bool :=
  ((staged.seal xxh3 (UInt64.ofNat h.nextSeq)).toOption.map fun b => b.buf.length).all (· ≤ kept)

/-- What a batch stages. -/
def stagedBy (h : GraphR.Handle) (edits : List Edit) : Option RecordBuf :=
  edits.foldlM (fun b e => e.stage (h.snapshot ttl) b) RecordBuf.new

def execDecoded (h : GraphR.Handle) : Event → Option GraphR.Handle
  | .transact _ edits => do
    let staged ← stagedBy ttl h edits
    settle xxh3 h staged
  | .dieInAppend _ _ edits kept => do
    let staged ← stagedBy ttl h edits
    if whole xxh3 h staged kept then settle xxh3 h staged else some h
  | .compact _ => h.compact xxh3 rank ttl
  | .dieInCompact _ _ => h.compact xxh3 rank ttl
  | .reopen _ => some h

end decoded

end GraphR.OnDisk
