import GraphR.Format.Basic
import GraphR.Library.Faults
import Mathlib.Data.List.Sort

/-! # The checksummed container

    The framing behind a base file:

    - `[header 128 B] [directory: 32 B × sections] [sections, each 64-aligned]`,
    - header: `0 magic u32 | 4 version u16 | 6 flags u16 | 8 header_len u32 |
      12 section_count u32 | 16 total_len u64 | 24 directory xxh3 u64 |
      32..120 owner area | 120 header xxh3 u64`,
    - entry: `kind u16 | flags u16 | 0 u32 | offset u64 | length u64 | xxh3 u64`.

    Every byte is covered by exactly one checksum; padding is zero. -/

namespace GraphR.Container

open ByteLib FaultLib

/-! ## Constants -/

/-- Header width. -/
def headerLen : Nat := 128
/-- Bytes of the header that belong to the format using the container. -/
def ownerLen : Nat := 88
/-- Directory entry width. -/
def dirEntryLen : Nat := 32
/-- Section alignment. -/
def align : Nat := 64
/-- Kinds below this resolve in O(1); larger kinds by scanning. -/
def fastKinds : Nat := 32
def ownerAt : Nat := 32
def sumAt : Nat := headerLen - 8

/-- `align_up(n, ALIGN)`. -/
def alignUp (n : Nat) : Nat := (n + align - 1) / align * align

/-- Identity of a format: its magic and the one version it reads. -/
structure Format where
  magic : UInt32
  version : UInt16
  deriving DecidableEq

/-! ## Writing -/

/-- A section to write: its kind, its flags, its bytes. -/
structure Section where
  kind : UInt16
  flags : UInt16
  bytes : Bytes
  deriving DecidableEq

/-- Builds a container: the owner area, then sections in order. -/
structure Writer where
  format : Format
  flags : UInt16
  owner : Bytes
  sections : List Section
  deriving DecidableEq

namespace Writer

def new (format : Format) : Writer := ⟨format, 0, List.replicate ownerLen 0, []⟩

/-- The format's own header fields: up to 88 bytes, the rest zero. -/
def withOwner (w : Writer) (bytes : Bytes) : Writer :=
  { w with owner := bytes.take ownerLen ++ w.owner.drop (min bytes.length ownerLen) }

/-- Header flags, the format's own. -/
def withFlags (w : Writer) (flags : UInt16) : Writer := { w with flags }

/-- `section_flagged`: append one section with flags of its own; an empty one is
    omitted. -/
def addFlagged (w : Writer) (kind flags : UInt16) (bytes : Bytes) : Writer :=
  if bytes.isEmpty then w else { w with sections := w.sections ++ [⟨kind, flags, bytes⟩] }

/-- Append one section; an empty one is omitted. -/
def add (w : Writer) (kind : UInt16) (bytes : Bytes) : Writer :=
  if bytes.isEmpty then w else { w with sections := w.sections ++ [⟨kind, 0, bytes⟩] }

/-- Where each section goes, from `offset` on. -/
def layout : Nat → List Section → List (Nat × Section)
  | _, [] => []
  | offset, s :: rest => (offset, s) :: layout (alignUp (offset + s.bytes.length)) rest

/-- Where the last section's padding ends. -/
def layoutEnd : Nat → List Section → Nat
  | offset, [] => offset
  | offset, s :: rest => layoutEnd (alignUp (offset + s.bytes.length)) rest

variable (xxh3 : Bytes → UInt64)

/-- One directory entry. -/
def entryBytes (p : Nat × Section) : Bytes :=
  putU16 p.2.kind ++ (putU16 p.2.flags ++ (putU32 0 ++ (putU64 (UInt64.ofNat p.1) ++
    (putU64 (UInt64.ofNat p.2.bytes.length) ++ putU64 (xxh3 p.2.bytes)))))

/-- `out.resize(align_up(out.len(), ALIGN), 0)`. -/
def padded (out : Bytes) : Bytes := out ++ List.replicate (alignUp out.length - out.length) 0

variable (w : Writer)

def dirEnd : Nat := headerLen + w.sections.length * dirEntryLen

/-- The directory. -/
def dir : Bytes := (layout (alignUp w.dirEnd) w.sections).flatMap (entryBytes xxh3)

def total : Nat := max (layoutEnd (alignUp w.dirEnd) w.sections) w.dirEnd

/-- The header's first 120 bytes: everything its checksum covers. -/
def headerBody : Bytes :=
  putU32 w.format.magic ++ (putU16 w.format.version ++ (putU16 w.flags ++
    (putU32 (UInt32.ofNat headerLen) ++ (putU32 (UInt32.ofNat w.sections.length) ++
      (putU64 (UInt64.ofNat w.total) ++ (putU64 (xxh3 (w.dir xxh3)) ++ w.owner))))))

/-- The finished file. -/
def finish : Bytes :=
  let head := w.headerBody xxh3 ++ (putU64 (xxh3 (w.headerBody xxh3)) ++ w.dir xxh3)
  let out := w.sections.foldl (fun out s => padded out ++ s.bytes) head
  out ++ List.replicate (w.total - out.length) 0

end Writer

/-! ## Reading -/

section reading
variable (xxh3 : Bytes → UInt64)

def checkHeader (bytes : Bytes) (format : Format) : Except Error Unit := do
  check (headerLen ≤ bytes.length) (.format "file shorter than header")
  check (u32At bytes 0 = format.magic) (.format "bad magic")
  check (u16At bytes 4 = format.version) (.version (u16At bytes 4) format.version)
  check (xxh3 (range bytes 0 sumAt) = u64At bytes sumAt) (.format "header checksum mismatch")
  check ((u32At bytes 8).toNat = headerLen) (.format "unexpected header length")

/-- A validated container: header fields and section ranges. `fast` holds the
    kinds below 32, a length of zero standing for absent; `other` the rest. -/
structure Dir where
  flags : UInt16
  owner : Bytes
  fast : Nat → Nat × Nat × UInt16
  other : List (UInt16 × Nat × Nat × UInt16)

namespace Dir

/-- Offset, length and flags of section `kind`. -/
def entry (d : Dir) (kind : UInt16) : Option (Nat × Nat × UInt16) :=
  if kind.toNat < fastKinds then
    if 0 < (d.fast kind.toNat).2.1 then some (d.fast kind.toNat) else none
  else (d.other.find? fun e => e.1 = kind).map fun e => e.2

/-- Section `kind` of `bytes`; empty when absent. -/
def sec (d : Dir) (bytes : Bytes) (kind : UInt16) : Bytes :=
  match d.entry kind with
  | some (o, l, _) => if o + l ≤ bytes.length then range bytes o l else []
  | none => []

/-- The flags of section `kind`, 0 when absent. -/
def sectionFlags (d : Dir) (kind : UInt16) : UInt16 := (d.entry kind).elim 0 fun e => e.2.2

/-- Record an entry. -/
def put (d : Dir) (kind : UInt16) (e : Nat × Nat × UInt16) : Dir :=
  if kind.toNat < fastKinds then { d with fast := Function.update d.fast kind.toNat e }
  else { d with other := d.other ++ [(kind, e)] }

/-- Entry `i` of the directory, checked and recorded; with its span. -/
def parseEntry (bytes : Bytes) (dirEnd i : Nat) (d : Dir) : Except Error (Dir × (Nat × Nat)) := do
  let e := headerLen + i * dirEntryLen
  let kind := u16At bytes e
  let offset := (u64At bytes (e + 8)).toNat
  let length := (u64At bytes (e + 16)).toNat
  check (offset + length < 2 ^ 64) (.format "section overflow")
  check (dirEnd ≤ offset ∧ offset + length ≤ bytes.length) (.format "section out of bounds")
  check (offset % align = 0) (.format "section misaligned")
  check (xxh3 (range bytes offset length) = u64At bytes (e + 24))
    (.format "section checksum mismatch")
  check ((d.entry kind).isNone) (.format "duplicate section")
  .ok (d.put kind (offset, length, u16At bytes (e + 2)), (offset, offset + length))

/-- Entries `i ..`, `k` of them. -/
def parseEntries (bytes : Bytes) (dirEnd : Nat) :
    Nat → Nat → Dir → List (Nat × Nat) → Except Error (Dir × List (Nat × Nat))
  | 0, _, d, spans => .ok (d, spans)
  | k + 1, i, d, spans => do
    let (d, span) ← parseEntry xxh3 bytes dirEnd i d
    parseEntries bytes dirEnd k (i + 1) d (spans ++ [span])

/-- Between the spans, in order from `at_`, every byte is zero. -/
def checkPadding (bytes : Bytes) : Nat → List (Nat × Nat) → Except Error Unit
  | _, [] => .ok ()
  | at_, (start, stop) :: rest => do
    check (at_ ≤ start ∧ (range bytes at_ (start - at_)).all (· == 0))
      (.format "sections overlap or padding is not zero")
    checkPadding bytes stop rest

/-- `spans.sort_unstable()`. -/
def sortSpans (spans : List (Nat × Nat)) : List (Nat × Nat) :=
  spans.insertionSort fun a b => a.1 < b.1 ∨ (a.1 = b.1 ∧ a.2 ≤ b.2)

/-- Validate `bytes` as a container of `format`: header, directory and every
    section checksummed once, bounds and alignment checked. -/
def parse (bytes : Bytes) (format : Format) : Except Error Dir := do
  checkHeader xxh3 bytes format
  check ((u64At bytes 16).toNat = bytes.length) (.format "total length does not match file size")
  let count := (u32At bytes 12).toNat
  let dirEnd := count * dirEntryLen + headerLen
  check (dirEnd ≤ bytes.length) (.format "directory exceeds file")
  check (xxh3 (range bytes headerLen (dirEnd - headerLen)) = u64At bytes 24)
    (.format "directory checksum mismatch")
  let d : Dir := ⟨u16At bytes 6, range bytes ownerAt ownerLen, fun _ => (0, 0, 0), []⟩
  let (d, spans) ← parseEntries xxh3 bytes dirEnd count 0 d []
  checkPadding bytes dirEnd (sortSpans spans ++ [(bytes.length, bytes.length)])
  .ok d

end Dir

end reading

end GraphR.Container
