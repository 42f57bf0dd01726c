import GraphR.Format.Basic

/-! # `graph.wal`: the encoder

    `[WalHeader 64 B] [record]*`, one record per transaction:

    - record: `0 len u32 | 4 tag u16 | 6 rflags u8 | 7 0 | 8 first_seq u64 |
      16 op_count u32 | 20 0 u32 | 24 checksum u64 | 32.. ops`,
    - op: `0 op_len u32 | 4 kind u8 | 5 oflags u8 | 6 0 u16 | 8 key u64 | 16.. body`.

    The checksum is xxh3 and comes from a crate of its own, so it is a
    parameter throughout: nothing here depends on which function it is. -/

namespace GraphR.Wal

open ByteLib

/-! ## Constants -/

def magic : UInt32 := 0x57505247
def version : UInt16 := 3
/-- Width of the log header. -/
def headerLen : Nat := 64
/-- Most outbound edges per node. -/
def maxEdges : Nat := 4096
/-- Most attributes per node. -/
def maxAttrs : Nat := 64
/-- Longest attribute value. -/
def maxAttrLen : Nat := 262144
/-- Width of a record's header. -/
def recordHeaderLen : Nat := 32
/-- Width of an op's header. -/
def opHeaderLen : Nat := 16
/-- Largest record, which is one whole transaction. -/
def maxRecord : Nat := 268435456
/-- Longest label, URL, title, snippet or etag. -/
def maxLabel : Nat := 2048
/-- Most segments per document. -/
def maxSegs : Nat := 128
def upsertFixed : Nat := opHeaderLen + 32
def segsFixed : Nat := opHeaderLen + 8
def segEntry : Nat := 16
def edgesFixed : Nat := opHeaderLen + 8
def edgeEntry : Nat := 12
def touchFixed : Nat := opHeaderLen + 40
def attrsFixed : Nat := opHeaderLen + 8
def attrEntry : Nat := 8
/-- Largest op: a maximal attribute set. -/
def maxOp : Nat := 1048246 + attrsFixed + maxAttrs * attrEntry
def minRecord : Nat := recordHeaderLen + opHeaderLen

def tag : UInt16 := 0x5854
def commit : UInt8 := 0x01

def opUpsert : UInt8 := 1
def opSegs : UInt8 := 2
def opEdges : UInt8 := 3
def opTouch : UInt8 := 4
def opRemove : UInt8 := 5
def opPin : UInt8 := 6
-- 7 was segment importance, retired
def opAttrs : UInt8 := 8

/-- Upsert `present` bits. -/
def hasTitle : UInt8 := 1
def hasSnippet : UInt8 := 2
def hasEtag : UInt8 := 4
/-- Touch `bits`. -/
def tHash : UInt8 := 1
def tEtag : UInt8 := 2
def tTombstone : UInt8 := 4

/-! ## The log header -/

section header
variable (xxh3 : Bytes → UInt64)

/-- The header's first 56 bytes: everything its checksum covers. -/
def headerBody (baseGeneration createdAtMs : UInt64) : Bytes :=
  putU32 magic ++ (putU16 version ++ (putU16 0 ++ (putU32 (UInt32.ofNat headerLen) ++
    (putU32 0 ++ (putU64 baseGeneration ++ (putU64 createdAtMs ++ List.replicate 24 0))))))

/-- Serialize a log header for `baseGeneration`. -/
def encodeHeader (baseGeneration createdAtMs : UInt64) : Bytes :=
  headerBody baseGeneration createdAtMs ++ putU64 (xxh3 (headerBody baseGeneration createdAtMs))

/-- Parse a log header, returning its base generation. -/
def parseHeader (bytes : Bytes) : Except Error UInt64 :=
  if bytes.length < headerLen then .error (.format "wal shorter than header")
  else if u32At bytes 0 ≠ magic then .error (.format "bad wal magic")
  else if u16At bytes 4 ≠ version then .error (.version (u16At bytes 4) version)
  else if xxh3 (range bytes 0 (headerLen - 8)) ≠ u64At bytes (headerLen - 8) then
    .error (.format "wal header checksum mismatch")
  else .ok (u64At bytes 16)

end header

/-! ## What is staged -/

/-- A document to upsert. -/
structure DocRecord where
  url : String
  urlKey : UrlKey
  contentHash : UInt64
  fetchedAtMs : UInt64
  title : Option String
  snippet : Option String
  etag : Option String
  pinned : Bool
  deriving DecidableEq

/-- A sub-document segment to record. -/
structure SegmentRecord where
  label : String
  byteRange : Option (UInt32 × UInt32)
  depth : UInt8
  importance : UInt16
  deriving DecidableEq

/-- One outbound edge: destination key, type tag, edge flags, weight. -/
structure Edge where
  dst : UrlKey
  etype : UInt8
  eflags : UInt8
  weight : UInt16
  deriving DecidableEq

/-- A revalidation outcome with the freshness state it leaves behind. -/
structure TouchRecord where
  checkedAtMs : UInt64
  outcome : UInt8
  contentHash : Option UInt64
  etag : Option String
  intervalS : UInt32
  checks : UInt16
  changes : UInt16
  lastChangeMs : UInt64
  tombstone : Bool
  deriving DecidableEq

/-! ## `RecordBuf` -/

/-- The encoder: a transaction's ops, encoded in place as they are staged. -/
structure RecordBuf where
  buf : Bytes
  ops : Nat
  deriving DecidableEq

/-- A position in a `RecordBuf` to truncate back to. -/
structure Mark where
  len : Nat
  ops : Nat
  deriving DecidableEq

namespace RecordBuf

def new : RecordBuf := ⟨[], 0⟩

def isEmpty (b : RecordBuf) : Bool := b.ops == 0

def len (b : RecordBuf) : Nat := b.buf.length

def mark (b : RecordBuf) : Mark := ⟨b.buf.length, b.ops⟩

/-- Drop every op staged after `m`. -/
def truncate (b : RecordBuf) (m : Mark) : RecordBuf :=
  if m.ops = 0 then ⟨[], 0⟩
  else if m.len ≤ b.buf.length ∧ m.ops ≤ b.ops then ⟨b.buf.take m.len, m.ops⟩
  else b

/-- The buffer an op is appended to: the record header on first use. -/
def opened (b : RecordBuf) : Bytes :=
  if b.buf.isEmpty then List.replicate recordHeaderLen 0 else b.buf

/-- Start an op: its header, with the length left to `finish`. Returns the
    buffer and where the op starts. -/
def begin (b : RecordBuf) (kind oflags : UInt8) (key : UrlKey) : Bytes × Nat :=
  (b.opened ++ (putU32 0 ++ ([kind, oflags, 0, 0] ++ putU64 key)), b.opened.length)

/-- Patch the length of the op that starts at `pos` and count it. -/
def finish (b : RecordBuf) (buf : Bytes) (pos : Nat) : RecordBuf :=
  ⟨splice buf pos (putU32 (UInt32.ofNat (buf.length - pos))), b.ops + 1⟩

/-- `begin`, the body, `finish`: what every `push_*` does once it accepts. -/
def stage (b : RecordBuf) (kind oflags : UInt8) (key : UrlKey) (body : Bytes) : RecordBuf :=
  let (buf, pos) := b.begin kind oflags key
  b.finish (buf ++ body) pos

end RecordBuf

/-! ## Op bodies -/

/-- The optional strings of an upsert that are present, in layout order. -/
def optStrings (doc : DocRecord) : List String :=
  [doc.title, doc.snippet, doc.etag].filterMap id

/-- `present`: which optional strings follow the URL. -/
def presentBits (doc : DocRecord) : UInt8 :=
  (if doc.title.isSome then hasTitle else 0) |||
    ((if doc.snippet.isSome then hasSnippet else 0) |||
      (if doc.etag.isSome then hasEtag else 0))

/-- `s.len() as u16`. -/
def len16 (s : String) : UInt16 := UInt16.ofNat (strLen s)

/-- `s.map_or(0, |s| s.len() as u16)`. -/
def optLen16 (s : Option String) : UInt16 := s.elim 0 len16

def upsertBody (doc : DocRecord) (flags : UInt16) : Bytes :=
  putU64 doc.contentHash ++ (putU64 doc.fetchedAtMs ++ (putU16 flags ++ ([presentBits doc, 0] ++
    (putU16 (len16 doc.url) ++ (putU16 (optLen16 doc.title) ++ (putU16 (optLen16 doc.snippet) ++
      (putU16 (optLen16 doc.etag) ++ (putU32 0 ++
        (strBytes doc.url ++ (optStrings doc).flatMap strBytes)))))))))

/-- `(start, len, flags)` of a segment entry; no byte range is flagged. -/
def segRange (s : SegmentRecord) : UInt32 × UInt32 × UInt8 :=
  match s.byteRange with
  | some (start, len) => (start, len, 0)
  | none => (0, 0, sflags.noRange)

def segEntryBytes (s : SegmentRecord) : Bytes :=
  putU32 (segRange s).1 ++ (putU32 (segRange s).2.1 ++ (putU16 s.importance ++
    (putU16 (len16 s.label) ++ [max s.depth 1, (segRange s).2.2, 0, 0])))

def segsBody (segs : List SegmentRecord) : Bytes :=
  [UInt8.ofNat segs.length, 0, 0, 0, 0, 0, 0, 0] ++
    (segs.flatMap segEntryBytes ++ segs.flatMap (fun s => strBytes s.label))

def edgeEntryBytes (e : Edge) : Bytes :=
  putU64 e.dst ++ ([e.etype, e.eflags] ++ putU16 e.weight)

def edgesBody (edges : List Edge) : Bytes :=
  putU16 (UInt16.ofNat edges.length) ++ ([0, 0, 0, 0, 0, 0] ++ edges.flatMap edgeEntryBytes)

def touchBits (t : TouchRecord) : UInt8 :=
  (if t.contentHash.isSome then tHash else 0) |||
    ((if t.etag.isSome then tEtag else 0) ||| (if t.tombstone then tTombstone else 0))

def touchBody (t : TouchRecord) : Bytes :=
  putU64 t.checkedAtMs ++ (putU64 (t.contentHash.getD 0) ++ (putU64 t.lastChangeMs ++
    (putU32 t.intervalS ++ (putU16 t.checks ++ (putU16 t.changes ++
      ([t.outcome, touchBits t] ++ (putU16 (len16 (t.etag.getD "")) ++
        (putU32 0 ++ strBytes (t.etag.getD "")))))))))

/-- One attribute: its key and the parts its value is the concatenation of. -/
abbrev AttrParts : Type := UInt8 × List String

/-- The value bytes of an attribute, written part after part. -/
def attrBytes (a : AttrParts) : Bytes := a.2.flatMap strBytes

def attrEntryBytes (a : AttrParts) : Bytes :=
  [a.1, 0, 0, 0] ++ putU32 (UInt32.ofNat (attrBytes a).length)

def attrsBody (attrs : List AttrParts) : Bytes :=
  [UInt8.ofNat attrs.length, 0, 0, 0, 0, 0, 0, 0] ++
    (attrs.flatMap attrEntryBytes ++ attrs.flatMap attrBytes)

/-! ## The pushes

    Each validates first and leaves the buffer alone when it refuses. -/

namespace RecordBuf

/-- Stage a node create/replace with node flags `flags`. -/
def pushUpsert (b : RecordBuf) (doc : DocRecord) (flags : UInt16) : Except Error RecordBuf :=
  if strLen doc.url = 0 ∨ maxLabel < strLen doc.url then
    .error (.format "url must be 1..=2048 bytes")
  else if (optStrings doc).any (fun s => maxLabel < strLen s) then
    .error (.format "a label exceeds 2048 bytes")
  else .ok (b.stage opUpsert 0 doc.urlKey (upsertBody doc flags))

/-- Stage a whole-set segment replacement. -/
def pushSegments (b : RecordBuf) (key : UrlKey) (segs : List SegmentRecord) :
    Except Error RecordBuf :=
  if maxSegs < segs.length then .error (.format "more than 128 segments")
  else if segs.any (fun s => maxLabel < strLen s.label) then
    .error (.format "segment label exceeds 2048 bytes")
  else .ok (b.stage opSegs 0 key (segsBody segs))

/-- `edges.windows(2).any(|w| w[0].0 >= w[1].0)`. -/
def notAscending : List UInt64 → Bool
  | a :: b :: rest => b ≤ a || notAscending (b :: rest)
  | _ => false

/-- Stage a whole-set outbound-edge replacement. -/
def pushEdges (b : RecordBuf) (key : UrlKey) (edges : List Edge) : Except Error RecordBuf :=
  if maxEdges < edges.length then .error (.format "more than 4096 edges")
  else if notAscending (edges.map Edge.dst) then
    .error (.format "edge destinations must be strictly ascending")
  else .ok (b.stage opEdges 0 key (edgesBody edges))

/-- Stage a revalidation outcome. -/
def pushTouch (b : RecordBuf) (key : UrlKey) (t : TouchRecord) : Except Error RecordBuf :=
  if maxLabel < strLen (t.etag.getD "") then .error (.format "etag exceeds 2048 bytes")
  else .ok (b.stage opTouch 0 key (touchBody t))

/-- Stage a hard delete. -/
def pushRemove (b : RecordBuf) (key : UrlKey) : RecordBuf := b.stage opRemove 0 key []

/-- Stage a pin or unpin. -/
def pushPin (b : RecordBuf) (key : UrlKey) (pinned : Bool) : RecordBuf :=
  b.stage opPin (if pinned then 1 else 0) key []

/-- The pass of `push_attr_parts` over its entries: keys strictly ascending
    above `prev`, each value within its cap; the total value length. -/
def attrPartsTotal : Option UInt8 → List AttrParts → Except Error Nat
  | _, [] => .ok 0
  | prev, a :: rest =>
    if prev.any (fun p => a.1 ≤ p) then
      .error (.format "attribute keys must be strictly ascending")
    else if maxAttrLen < (attrBytes a).length then .error (.format "attribute too long")
    else do
      let total ← attrPartsTotal (some a.1) rest
      .ok ((attrBytes a).length + total)

/-- Stage a whole-set attribute replacement, each value in parts. -/
def pushAttrParts (b : RecordBuf) (key : UrlKey) (attrs : List AttrParts) :
    Except Error RecordBuf :=
  if maxAttrs < attrs.length then .error (.format "more than 64 attributes")
  else
    match attrPartsTotal none attrs with
    | .error e => .error e
    | .ok total =>
      if maxOp < attrsFixed + attrs.length * attrEntry + total then
        .error (.format "attributes exceed 1048782 bytes in one op")
      else .ok (b.stage opAttrs 0 key (attrsBody attrs))

/-- Stage a whole-set attribute replacement. -/
def pushAttrs (b : RecordBuf) (key : UrlKey) (attrs : List (UInt8 × String)) :
    Except Error RecordBuf :=
  b.pushAttrParts key (attrs.map fun (k, v) => (k, [v, "", ""]))

end RecordBuf

/-! ## Sealing -/

section sealing
variable (xxh3 : Bytes → UInt64)

/-- The record checksum: xxh3 over the header's first 24 bytes and the ops
    (streamed in the source, which equals the hash of the concatenation). -/
def recordSum (rec : Bytes) : UInt64 := xxh3 (range rec 0 24 ++ rec.drop recordHeaderLen)

/-- The first 24 bytes of a sealed record's header. -/
def recordHead (len : Nat) (firstSeq : UInt64) (ops : Nat) : Bytes :=
  putU32 (UInt32.ofNat len) ++ (putU16 tag ++ ([commit, 0] ++ (putU64 firstSeq ++
    (putU32 (UInt32.ofNat ops) ++ [0, 0, 0, 0]))))

/-- `first_seq.checked_add(u64::from(ops) - 1).is_none()`. -/
def seqOverflows (firstSeq : UInt64) (ops : Nat) : Bool := 2 ^ 64 ≤ firstSeq.toNat + (ops - 1)

/-- Seal the staged ops into one record whose ops take sequence numbers
    `firstSeq ..`. -/
def RecordBuf.seal (b : RecordBuf) (firstSeq : UInt64) : Except Error RecordBuf :=
  if b.ops = 0 then .error (.format "a record needs at least one op")
  else if maxRecord < b.buf.length then
    .error (.format ("a transaction of " ++ toString b.buf.length ++
      " bytes exceeds the 268435456-byte record limit; commit it in parts"))
  else if firstSeq = 0 ∨ seqOverflows firstSeq b.ops then
    .error (.format "record sequence numbers out of range")
  else
    let headed := splice b.buf 0 (recordHead b.buf.length firstSeq b.ops)
    .ok ⟨splice headed 24 (putU64 (recordSum xxh3 headed)), b.ops⟩

end sealing

end GraphR.Wal
