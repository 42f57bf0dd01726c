import GraphR.Format.Wal.Encode

/-! # `graph.wal`: reading ops in place

    `OpView` is one op as the overlay holds it: its kind and its bytes. The
    accessors index those bytes without checks, so they live in `Option`:
    `none` is a fault, an index out of bounds or the UTF-8 fallback of `text`
    taken. `validate_op` is what makes them total; it is modelled here with
    every rule and message of its own. -/

namespace GraphR.Wal

open ByteLib

/-! ## Faulting reads -/

def getByte (bs : Bytes) (i : Nat) : Option UInt8 := bs[i]?

def getU16 (bs : Bytes) (off : Nat) : Option UInt16 :=
  if inBounds bs off 2 then some (u16At bs off) else none

def getU32 (bs : Bytes) (off : Nat) : Option UInt32 :=
  if inBounds bs off 4 then some (u32At bs off) else none

def getU64 (bs : Bytes) (off : Nat) : Option UInt64 :=
  if inBounds bs off 8 then some (u64At bs off) else none

/-- UTF-8 at `op[pos .. pos + len]`. The source falls back to `""` on bytes
    that are not UTF-8; taking the fallback is a fault here. -/
def text (op : Bytes) (pos len : Nat) : Option String :=
  if inBounds op pos len then fromUtf8 (range op pos len) else none

theorem getByte_of_lt {bs : Bytes} {i : Nat} (h : i < bs.length) :
    getByte bs i = some (byteAt bs i) := by
  simp [getByte, byteAt, h]

theorem getU16_of_inBounds {bs : Bytes} {off : Nat} (h : off + 2 ≤ bs.length) :
    getU16 bs off = some (u16At bs off) := if_pos h

theorem getU32_of_inBounds {bs : Bytes} {off : Nat} (h : off + 4 ≤ bs.length) :
    getU32 bs off = some (u32At bs off) := if_pos h

theorem getU64_of_inBounds {bs : Bytes} {off : Nat} (h : off + 8 ≤ bs.length) :
    getU64 bs off = some (u64At bs off) := if_pos h

theorem text_of_inBounds {op : Bytes} {pos len : Nat} (h : pos + len ≤ op.length) :
    text op pos len = fromUtf8 (range op pos len) := if_pos h

/-! ## The views -/

/-- One op, read in place. -/
inductive OpView where
  | upsert (op : Bytes)
  | segs (op : Bytes)
  | edges (op : Bytes)
  | touch (op : Bytes)
  | remove (key : UrlKey)
  | pin (key : UrlKey) (pinned : Bool)
  | attrs (op : Bytes)
  deriving DecidableEq

/-- The view of one op validated earlier (or encoded here): no checks beyond
    the kind. -/
def OpView.trusted (op : Bytes) : Option OpView :=
  if op.length < opHeaderLen then none
  else
    let kind := byteAt op 4
    if kind = opUpsert then some (.upsert op)
    else if kind = opSegs then some (.segs op)
    else if kind = opEdges then some (.edges op)
    else if kind = opTouch then some (.touch op)
    else if kind = opRemove then some (.remove (u64At op 8))
    else if kind = opPin then some (.pin (u64At op 8) (byteAt op 5 &&& 1 != 0))
    else if kind = opAttrs then some (.attrs op)
    else none

/-! ### Upsert -/

namespace UpsertView

def key (op : Bytes) : Option UrlKey := getU64 op 8
def contentHash (op : Bytes) : Option UInt64 := getU64 op 16
def fetchedAtMs (op : Bytes) : Option UInt64 := getU64 op 24
def flags (op : Bytes) : Option UInt16 := getU16 op 32

def lenAt (op : Bytes) (i : Nat) : Option Nat := (getU16 op (36 + 2 * i)).map UInt16.toNat

/-- The lengths of the strings before string `i`. -/
def lensBefore (op : Bytes) : Nat → Option Nat
  | 0 => some 0
  | i + 1 => do
    let before ← lensBefore op i
    let len ← lenAt op i
    some (before + len)

/-- String `i`, absent when its bit is clear (the URL has none). -/
def field (op : Bytes) (i : Nat) (bit : UInt8) : Option (Option String) := do
  let present ← getByte op 34
  if 0 < i ∧ present &&& bit = 0 then some none
  else do
    let before ← lensBefore op i
    let len ← lenAt op i
    let s ← text op (upsertFixed + before) len
    some (some s)

def url (op : Bytes) : Option String := (field op 0 0).map fun s => s.getD ""
def title (op : Bytes) : Option (Option String) := field op 1 hasTitle
def snippet (op : Bytes) : Option (Option String) := field op 2 hasSnippet
def etag (op : Bytes) : Option (Option String) := field op 3 hasEtag

end UpsertView

/-! ### Segments -/

/-- One segment of a segment set. -/
structure SegView where
  label : String
  byteStart : UInt32
  byteLen : UInt32
  importance : UInt16
  depth : UInt8
  flags : UInt8
  deriving DecidableEq

/-- The byte range of a segment, none when it is flagged so. -/
def SegView.byteRange (s : SegView) : Option (UInt32 × UInt32) :=
  if s.flags &&& sflags.noRange = 0 then some (s.byteStart, s.byteLen) else none

namespace SegsView

def key (op : Bytes) : Option UrlKey := getU64 op 8
def len (op : Bytes) : Option Nat := (getByte op 16).map UInt8.toNat

/-- Segments `i ..`, `k` of them, the label of segment `i` at `label`. -/
def walk (op : Bytes) : Nat → Nat → Nat → Option (List SegView)
  | 0, _, _ => some []
  | k + 1, i, label => do
    let e := segsFixed + i * segEntry
    let len ← getU16 op (e + 10)
    let s ← text op label len.toNat
    let byteStart ← getU32 op e
    let byteLen ← getU32 op (e + 4)
    let importance ← getU16 op (e + 8)
    let depth ← getByte op (e + 12)
    let flags ← getByte op (e + 13)
    let rest ← walk op k (i + 1) (label + len.toNat)
    some (⟨s, byteStart, byteLen, importance, depth, flags⟩ :: rest)

/-- The segments, in document order. -/
def iter (op : Bytes) : Option (List SegView) := do
  let n ← len op
  walk op n 0 (segsFixed + n * segEntry)

end SegsView

/-! ### Edges -/

namespace EdgesView

def key (op : Bytes) : Option UrlKey := getU64 op 8
def len (op : Bytes) : Option Nat := (getU16 op 16).map UInt16.toNat

/-- The raw entries. -/
def entries (op : Bytes) : Option Bytes :=
  if edgesFixed ≤ op.length then some (op.drop edgesFixed) else none

end EdgesView

/-- Edge `i` of an edge set's entries. -/
def edgeAt (entries : Bytes) (i : Nat) : Option Edge := do
  let e := i * edgeEntry
  let dst ← getU64 entries e
  let etype ← getByte entries (e + 8)
  let flags ← getByte entries (e + 9)
  let weight ← getU16 entries (e + 10)
  some ⟨dst, etype, flags, weight⟩

/-- Edges in an edge set's entries. -/
def edgeCount (entries : Bytes) : Nat := entries.length / edgeEntry

/-- The edges, destinations ascending. -/
def EdgesView.iter (op : Bytes) : Option (List Edge) := do
  let e ← EdgesView.entries op
  (List.range (edgeCount e)).mapM (edgeAt e)

/-! ### Touch -/

namespace TouchView

def key (op : Bytes) : Option UrlKey := getU64 op 8
def checkedAtMs (op : Bytes) : Option UInt64 := getU64 op 16

def contentHash (op : Bytes) : Option (Option UInt64) := do
  let bits ← getByte op 49
  if bits &&& tHash = 0 then some none else (getU64 op 24).map some

def lastChangeMs (op : Bytes) : Option UInt64 := getU64 op 32
def intervalS (op : Bytes) : Option UInt32 := getU32 op 40
def checks (op : Bytes) : Option UInt16 := getU16 op 44
def changes (op : Bytes) : Option UInt16 := getU16 op 46
def outcome (op : Bytes) : Option UInt8 := getByte op 48

def etag (op : Bytes) : Option (Option String) := do
  let bits ← getByte op 49
  if bits &&& tEtag = 0 then some none
  else do
    let len ← getU16 op 50
    (text op touchFixed len.toNat).map some

def tombstone (op : Bytes) : Option Bool := (getByte op 49).map fun bits => bits &&& tTombstone != 0

/-- Every field at once. -/
def read (op : Bytes) : Option TouchRecord := do
  let checkedAtMs ← checkedAtMs op
  let outcome ← outcome op
  let contentHash ← contentHash op
  let etag ← etag op
  let intervalS ← intervalS op
  let checks ← checks op
  let changes ← changes op
  let lastChangeMs ← lastChangeMs op
  let tombstone ← tombstone op
  some { checkedAtMs, outcome, contentHash, etag, intervalS, checks, changes, lastChangeMs,
         tombstone }

end TouchView

/-! ### Attributes -/

namespace AttrsView

def key (op : Bytes) : Option UrlKey := getU64 op 8
def len (op : Bytes) : Option Nat := (getByte op 16).map UInt8.toNat

/-- Attributes `i ..`, `k` of them, the value of attribute `i` at `value`. -/
def walk (op : Bytes) : Nat → Nat → Nat → Option (List (UInt8 × String))
  | 0, _, _ => some []
  | k + 1, i, value => do
    let e := attrsFixed + i * attrEntry
    let len ← getU32 op (e + 4)
    let key ← getByte op e
    let v ← text op value len.toNat
    let rest ← walk op k (i + 1) (value + len.toNat)
    some ((key, v) :: rest)

/-- The attributes, keys ascending. -/
def iter (op : Bytes) : Option (List (UInt8 × String)) := do
  let n ← len op
  walk op n 0 (attrsFixed + n * attrEntry)

end AttrsView

/-! ## Decoded ops -/

/-- What the accessors of an upsert give. -/
structure Upsert where
  key : UrlKey
  contentHash : UInt64
  fetchedAtMs : UInt64
  flags : UInt16
  url : String
  title : Option String
  snippet : Option String
  etag : Option String
  deriving DecidableEq

def UpsertView.read (op : Bytes) : Option Upsert := do
  let key ← UpsertView.key op
  let contentHash ← UpsertView.contentHash op
  let fetchedAtMs ← UpsertView.fetchedAtMs op
  let flags ← UpsertView.flags op
  let url ← UpsertView.url op
  let title ← UpsertView.title op
  let snippet ← UpsertView.snippet op
  let etag ← UpsertView.etag op
  some { key, contentHash, fetchedAtMs, flags, url, title, snippet, etag }

/-- One op with every accessor taken. -/
inductive Op where
  | upsert (u : Upsert)
  | segs (key : UrlKey) (segs : List SegView)
  | edges (key : UrlKey) (edges : List Edge)
  | touch (key : UrlKey) (t : TouchRecord)
  | remove (key : UrlKey)
  | pin (key : UrlKey) (pinned : Bool)
  | attrs (key : UrlKey) (attrs : List (UInt8 × String))
  deriving DecidableEq

namespace Op

/-- The key an op targets. -/
def key : Op → UrlKey
  | .upsert u => u.key
  | .segs k _ => k
  | .edges k _ => k
  | .touch k _ => k
  | .remove k => k
  | .pin k _ => k
  | .attrs k _ => k

end Op

namespace OpView

/-- Every accessor of a view, taken at once; `none` when any of them faults. -/
def read : OpView → Option Op
  | .upsert op => (UpsertView.read op).map .upsert
  | .segs op => do
    let key ← SegsView.key op
    let segs ← SegsView.iter op
    some (.segs key segs)
  | .edges op => do
    let key ← EdgesView.key op
    let edges ← EdgesView.iter op
    some (.edges key edges)
  | .touch op => do
    let key ← TouchView.key op
    let t ← TouchView.read op
    some (.touch key t)
  | .remove key => some (.remove key)
  | .pin key pinned => some (.pin key pinned)
  | .attrs op => do
    let key ← AttrsView.key op
    let attrs ← AttrsView.iter op
    some (.attrs key attrs)

end OpView

/-! ## `validate_op` -/

def zeros (bs : Bytes) : Bool := bs.all (· == 0)

def isUtf8 (bs : Bytes) : Bool := (fromUtf8 bs).isSome

def utf8 (bs : Bytes) (what : String) : Except Error Unit :=
  if isUtf8 bs then .ok () else .error (.format (what ++ ": invalid utf-8"))

/-- The strings of an upsert from `pos` on, one after another, each UTF-8. -/
def checkStrings (op : Bytes) : Nat → List Nat → Except Error Unit
  | _, [] => .ok ()
  | pos, len :: rest => do
    utf8 (range op pos len) "upsert"
    checkStrings op (pos + len) rest

def checkUpsert (op : Bytes) : Except Error Unit :=
  if op.length < upsertFixed then .error (.format "upsert too short")
  else
    let present := byteAt op 34
    if present &&& ~~~(hasTitle ||| hasSnippet ||| hasEtag) ≠ 0 ∨ byteAt op 35 ≠ 0
        ∨ ¬zeros (range op 44 4) then
      .error (.format "upsert: unknown bits")
    else
      let lens := [36, 38, 40, 42].map fun pos => (u16At op pos).toNat
      if (u16At op 36).toNat = 0 ∨ lens.any (maxLabel < ·) then
        .error (.format "upsert: string length out of range")
      else if (present &&& hasTitle = 0 ∧ (u16At op 38).toNat ≠ 0)
          ∨ (present &&& hasSnippet = 0 ∧ (u16At op 40).toNat ≠ 0)
          ∨ (present &&& hasEtag = 0 ∧ (u16At op 42).toNat ≠ 0) then
        .error (.format "upsert: an absent string has a length")
      else if lens.sum ≠ op.length - upsertFixed then
        .error (.format "upsert: string lengths disagree with the op")
      else checkStrings op upsertFixed lens

/-- Segment entries `i ..`, `k` of them, with the labels from `pos` on; where
    the labels end. -/
def checkSegEntries (op : Bytes) : Nat → Nat → Nat → Except Error Nat
  | 0, _, pos => .ok pos
  | k + 1, i, pos =>
    let e := segsFixed + i * segEntry
    let len := (u16At op (e + 10)).toNat
    if maxLabel < len ∨ u16At op (e + 14) ≠ 0 ∨ op.length - pos < len then
      .error (.format "segments: bad entry")
    else do
      utf8 (range op pos len) "segment label"
      checkSegEntries op k (i + 1) (pos + len)

def checkSegs (op : Bytes) : Except Error Unit :=
  if op.length < segsFixed ∨ ¬zeros (range op 17 7) ∨ maxSegs < (byteAt op 16).toNat then
    .error (.format "segments: bad header")
  else
    let count := (byteAt op 16).toNat
    let pos := segsFixed + count * segEntry
    if op.length < pos then .error (.format "segments: entries overrun the op")
    else do
      let stop ← checkSegEntries op count 0 pos
      if stop ≠ op.length then .error (.format "segments: label lengths disagree with the op")
      else .ok ()

/-- Edge entries `i ..`, `k` of them: destinations strictly above `prev`. -/
def checkEdgeEntries (op : Bytes) : Nat → Nat → Option UInt64 → Except Error Unit
  | 0, _, _ => .ok ()
  | k + 1, i, prev =>
    let dst := u64At op (edgesFixed + i * edgeEntry)
    if prev.any (fun p => dst ≤ p) then
      .error (.format "edges: destinations not strictly ascending")
    else checkEdgeEntries op k (i + 1) (some dst)

def checkEdges (op : Bytes) : Except Error Unit :=
  if op.length < edgesFixed ∨ ¬zeros (range op 18 6) then .error (.format "edges: bad header")
  else
    let count := (u16At op 16).toNat
    if maxEdges < count ∨ op.length ≠ edgesFixed + count * edgeEntry then
      .error (.format "edges: count disagrees with the op")
    else checkEdgeEntries op count 0 none

def checkTouch (op : Bytes) : Except Error Unit :=
  if op.length < touchFixed then .error (.format "touch too short")
  else
    let bits := byteAt op 49
    let len := (u16At op 50).toNat
    if bits &&& ~~~(tHash ||| tEtag ||| tTombstone) ≠ 0
        ∨ ¬zeros (range op 52 4)
        ∨ (bits &&& tHash = 0 ∧ u64At op 24 ≠ 0)
        ∨ (bits &&& tEtag = 0 ∧ len ≠ 0)
        ∨ maxLabel < len
        ∨ op.length ≠ touchFixed + len then
      .error (.format "touch: bad fields")
    else utf8 (op.drop touchFixed) "touch etag"

/-- Attribute entries `i ..`, `k` of them, keys strictly above `prev`, with
    the values from `pos` on; where the values end. -/
def checkAttrEntries (op : Bytes) : Nat → Nat → Option UInt8 → Nat → Except Error Nat
  | 0, _, _, pos => .ok pos
  | k + 1, i, prev, pos =>
    let e := attrsFixed + i * attrEntry
    let key := byteAt op e
    let len := (u32At op (e + 4)).toNat
    if prev.any (fun p => key ≤ p) ∨ ¬zeros (range op (e + 1) 3) ∨ maxAttrLen < len
        ∨ op.length - pos < len then
      .error (.format "attributes: bad entry")
    else do
      utf8 (range op pos len) "attribute"
      checkAttrEntries op k (i + 1) (some key) (pos + len)

def checkAttrs (op : Bytes) : Except Error Unit :=
  if op.length < attrsFixed ∨ ¬zeros (range op 17 7) ∨ maxAttrs < (byteAt op 16).toNat then
    .error (.format "attributes: bad header")
  else
    let count := (byteAt op 16).toNat
    let pos := attrsFixed + count * attrEntry
    if op.length < pos then .error (.format "attributes: entries overrun the op")
    else do
      let stop ← checkAttrEntries op count 0 none pos
      if stop ≠ op.length then .error (.format "attributes: value lengths disagree with the op")
      else .ok ()

/-- The rules of an op's own kind. -/
def checkKind (bytes : Bytes) : Except Error Unit :=
  let kind := byteAt bytes 4
  if kind = opUpsert then checkUpsert bytes
  else if kind = opSegs then checkSegs bytes
  else if kind = opEdges then checkEdges bytes
  else if kind = opTouch then checkTouch bytes
  else if kind = opRemove ∨ kind = opPin then
    if bytes.length = opHeaderLen then .ok () else .error (.format "remove/pin carries a body")
  else if kind = opAttrs then checkAttrs bytes
  else .error (.format ("unknown op kind " ++ toString kind))

/-- Validate one op (exactly `bytes`): its header, every length, count, sort
    order, reserved byte and string against the rules of its kind. -/
def validateOp (bytes : Bytes) : Except Error OpView :=
  if bytes.length < opHeaderLen ∨ maxOp < bytes.length
      ∨ (u32At bytes 0).toNat ≠ bytes.length then
    .error (.format "op length disagrees with its header")
  else if u16At bytes 6 ≠ 0 then .error (.format "non-zero reserved op bytes")
  else if byteAt bytes 5 &&& ~~~(if byteAt bytes 4 = opPin then 1 else 0) ≠ 0 then
    .error (.format "unknown op flags")
  else do
    checkKind bytes
    match OpView.trusted bytes with
    | some v => .ok v
    | none => .error (.format "unknown op kind")

end GraphR.Wal
