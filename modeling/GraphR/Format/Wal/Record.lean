import GraphR.Format.Wal.Views

/-! # `graph.wal`: records, the scan and replay

    `nextRecord` validates the record at a position whole. A record that is
    short, mis-tagged or fails its checksum is torn (a crash mid-append, never
    committed); one whose checksum holds but whose contents break a rule is
    corrupt, and reported. `scan` runs it from a position to the first tear;
    `records` is the second reader, which trusts validated bytes and reads the
    length fields only.

    Sequence numbers come out as naturals: `first_seq + i` is below `2 ^ 64`
    for every accepted record, by the range check of `nextRecord`. -/

namespace GraphR.Wal

open ByteLib

/-! ## Walking ops -/

/-- `OpWalk`: op headers through bytes already validated, as
    `(offset, op bytes)`. Every step moves by at least an op header, so the
    fuel `bytes.length` never runs out. -/
def opWalk (bytes : Bytes) : Nat → Nat → List (Nat × Bytes)
  | 0, _ => []
  | fuel + 1, pos =>
    if bytes.length < pos then []
    else if bytes.length - pos < opHeaderLen then []
    else
      let len := (u32At bytes pos).toNat
      if len ≤ bytes.length - pos ∧ opHeaderLen ≤ len then
        (pos, range bytes pos len) :: opWalk bytes fuel (pos + len)
      else []

/-- The staged ops, in order. -/
def RecordBuf.opViews (b : RecordBuf) : List OpView :=
  (opWalk b.buf b.buf.length (min recordHeaderLen b.buf.length)).filterMap
    fun p => OpView.trusted p.2

/-! ## Records -/

/-- A validated record (one transaction): its bytes and its offset in the
    image it was read from. -/
@[ext]
structure Record where
  bytes : Bytes
  offset : Nat
  minLen : minRecord ≤ bytes.length

namespace Record

/-- Sequence number of its first op. -/
def firstSeq (r : Record) : Nat := (u64At r.bytes 8).toNat

/-- Ops it carries. -/
def opCount (r : Record) : Nat := (u32At r.bytes 16).toNat

/-- Sequence number of its last op. -/
def lastSeq (r : Record) : Nat := r.firstSeq + r.opCount - 1

/-- Its length in bytes, header included. -/
def len (r : Record) : Nat := r.bytes.length

/-- Its ops with their numbers, as `(seq, offset, op bytes)`. -/
def rawOps (r : Record) : List (Nat × Nat × Bytes) :=
  ((opWalk r.bytes r.bytes.length recordHeaderLen).zip (List.range r.opCount)).map
    fun p => (r.firstSeq + p.2, r.offset + p.1.1, p.1.2)

/-- Its ops in order, each with its sequence number and its offset in the
    image the record was read from. -/
def ops (r : Record) : List (Nat × Nat × OpView) :=
  r.rawOps.filterMap fun p => (OpView.trusted p.2.2).map fun v => (p.1, p.2.1, v)

end Record

/-- What lies at a position in a log image. -/
inductive Next where
  | record (r : Record)
  | torn

/-- `Error::corrupt` for the record at `pos`. -/
def bad (pos : Nat) (what : String) : Error :=
  .corrupt ("wal record at byte " ++ toString pos ++ ": " ++ what)

/-- Ops `i ..`, `k` of the record's `count`, from `at_` on; where they end. -/
def checkOps (rec : Bytes) (pos count : Nat) : Nat → Nat → Nat → Except Error Nat
  | 0, _, at_ => .ok at_
  | k + 1, i, at_ =>
    if rec.length - at_ < opHeaderLen then
      .error (bad pos ("op " ++ toString i ++ " of " ++ toString count ++ " missing"))
    else
      let opLen := (u32At rec at_).toNat
      if opLen < opHeaderLen ∨ maxOp < opLen ∨ rec.length - at_ < opLen then
        .error (bad pos ("op " ++ toString i ++ " length " ++ toString opLen ++ " out of range"))
      else
        match validateOp (range rec at_ opLen) with
        | .error e =>
          .error (bad pos ("op " ++ toString i ++ " at byte " ++ toString (pos + at_) ++ ": "
            ++ e.display))
        | .ok _ => checkOps rec pos count k (i + 1) (at_ + opLen)

section checksum
variable (xxh3 : Bytes → UInt64)

/-- The record's own rules, once its checksum holds. -/
def checkRecord (rec : Bytes) (pos : Nat) : Except Error Unit :=
  if byteAt rec 7 ≠ 0 ∨ u32At rec 20 ≠ 0 then
    .error (bad pos "non-zero reserved header bytes")
  else if u64At rec 8 = 0 ∨ u32At rec 16 = 0
      ∨ seqOverflows (u64At rec 8) (u32At rec 16).toNat then
    .error (bad pos "sequence numbers out of range")
  else do
    let stop ← checkOps rec pos (u32At rec 16).toNat (u32At rec 16).toNat 0 recordHeaderLen
    if stop ≠ rec.length then .error (bad pos "bytes after the last op") else .ok ()

/-- `rest` starts with a record header whose length is in range and inside
    `rest`, tagged and committed. -/
def headed (rest : Bytes) : Prop :=
  minRecord ≤ (u32At rest 0).toNat ∧ (u32At rest 0).toNat ≤ maxRecord
    ∧ (u32At rest 0).toNat ≤ rest.length ∧ u16At rest 4 = tag ∧ byteAt rest 6 = commit

instance (rest : Bytes) : Decidable (headed rest) := inferInstanceAs (Decidable (_ ∧ _))

theorem headed.minLen {rest : Bytes} (h : headed rest) :
    minRecord ≤ (rest.take (u32At rest 0).toNat).length := by
  rw [List.length_take]
  exact Nat.le_min.mpr ⟨h.1, le_trans h.1 h.2.2.1⟩

/-- The record at the start of `rest`, which lies at `pos` of its image. -/
def readRecord (rest : Bytes) (pos : Nat) : Except Error Next :=
  if rest.length < recordHeaderLen then .ok .torn
  else if h : headed rest then
    if recordSum xxh3 (rest.take (u32At rest 0).toNat)
        ≠ u64At (rest.take (u32At rest 0).toNat) 24 then
      .ok .torn
    else do
      checkRecord (rest.take (u32At rest 0).toNat) pos
      .ok (.record ⟨rest.take (u32At rest 0).toNat, pos, h.minLen⟩)
  else .ok .torn

/-- The record at `pos` of `bytes`, validated whole: its header, checksum and
    every op. -/
def nextRecord (bytes : Bytes) (pos : Nat) : Except Error Next :=
  if bytes.length < pos then .ok .torn else readRecord xxh3 (bytes.drop pos) pos

/-! ## The trusted walk -/

/-- One step of `Records`: the record whose header stands at `pos`, if it
    ends by `stop`. -/
def nextTrusted (image : Bytes) (pos stop : Nat) : Option Record :=
  if stop - min pos stop < minRecord then none
  else
    let len := (u32At image pos).toNat
    if h : pos + len ≤ image.length ∧ minRecord ≤ len ∧ pos + len ≤ stop then
      some ⟨range image pos len, pos, by
        rw [length_range_of_inBounds h.1]; exact h.2.1⟩
    else none

def recordsGo (image : Bytes) (stop : Nat) : Nat → Nat → List Record
  | 0, _ => []
  | fuel + 1, pos =>
    match nextTrusted image pos stop with
    | none => []
    | some r => r :: recordsGo image stop fuel (pos + r.len)

/-- `Records::trusted(image, pos, end)`, all of it: headers are trusted,
    nothing is re-checked. -/
def records (image : Bytes) (pos stop : Nat) : List Record :=
  recordsGo image (min stop image.length) image.length pos

/-! ## Scan and replay -/

/-- How far a run of records goes: the end of the last whole record before a
    tear, the last sequence number seen, the ops counted, and the corruption
    that stopped it, if one did. -/
structure Scan where
  stop : Nat
  lastSeq : Option Nat
  ops : Nat
  corrupt : Option Error
  deriving DecidableEq

def scanGo (bytes : Bytes) : Nat → Scan → Scan
  | 0, out => out
  | fuel + 1, out =>
    match nextRecord xxh3 bytes out.stop with
    | .ok (.record r) =>
      if out.lastSeq.any (fun l => r.firstSeq ≤ l) then
        { out with corrupt := some (.corrupt ("wal record at byte " ++ toString out.stop
            ++ ": sequence regression")) }
      else
        scanGo bytes fuel
          { out with stop := out.stop + r.len, lastSeq := some r.lastSeq, ops := out.ops + r.opCount }
    | .ok .torn => out
    | .error e => { out with corrupt := some e }

/-- Scan the records of `bytes` from `pos`; their numbers must rise, starting
    above `after`. A record is at least 48 bytes long, so the fuel
    `bytes.length + 1` never runs out. -/
def scan (bytes : Bytes) (pos : Nat) (after : Option Nat) : Scan :=
  scanGo xxh3 bytes (bytes.length + 1) ⟨pos, after, 0, none⟩

/-- A replayed log image: its header's generation and the length of its
    committed prefix. -/
structure Replay where
  baseGeneration : UInt64
  goodLen : Nat
  image : Bytes

/-- The committed records, in order. -/
def Replay.records (r : Replay) : List Record := Wal.records r.image headerLen r.goodLen

/-- Replay a log image: validate its header and every record up to the first
    torn one. -/
def replay (image : Bytes) : Except Error Replay := do
  let baseGeneration ← parseHeader xxh3 image
  let scanned := scan xxh3 image headerLen none
  match scanned.corrupt with
  | some e => .error e
  | none => .ok ⟨baseGeneration, scanned.stop, image⟩

/-- The length of the whole, valid records with rising sequence numbers of a
    run of records with no header. -/
def committedFramesLen (frames : Bytes) : Nat := (scan xxh3 frames 0 none).stop

/-- Byte length of the committed prefix of a log image, or 0 when the header
    itself is invalid. -/
def committedLen (image : Bytes) : Nat :=
  match parseHeader xxh3 image with
  | .error _ => 0
  | .ok _ => headerLen + committedFramesLen xxh3 (image.drop headerLen)

end checksum

end GraphR.Wal
