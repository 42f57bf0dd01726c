import GraphR.Format.Container

/-! # `graph.base`: the immutable snapshot

    Fixed-width, sorted record tables over a label heap, one container section
    each. `BaseDir.parse` validates a file end to end: the container checksums,
    then every record invariant the accessors rely on. -/

namespace GraphR.BaseFile

open ByteLib FaultLib

/-! ## Constants -/

def magic : UInt32 := 0x52505247
def version : UInt16 := 3
/-- Node record width. -/
def nodeLen : Nat := 72
/-- Segment record width. -/
def segLen : Nat := 24
/-- Edge record width. -/
def edgeLen : Nat := 8
/-- Lexicon record width. -/
def lexLen : Nat := 24
/-- Rank record width. -/
def rankLen : Nat := 2
/-- Attribute record width: key u8, 3 zero bytes, blob offset u32, length u32. -/
def attrLen : Nat := 12
/-- Trigram record width. -/
def triLen : Nat := 12
/-- Sentinel for "no label" in a label-offset field. -/
def noLabel : UInt32 := 0xFFFFFFFF

inductive SectionKind where
  | nodes
  | segs
  | edgeIndex
  | edges
  | labels
  | lexicon
  | postings
  | ranks
  | inEdgeIndex
  | inEdges
  | attrIndex
  | attrs
  | blobs
  | lexOrder
  | trigrams
  | triPostings
  deriving DecidableEq

def SectionKind.tag : SectionKind → UInt16
  | .nodes => 1
  | .segs => 2
  | .edgeIndex => 3
  | .edges => 4
  | .labels => 5
  | .lexicon => 6
  | .postings => 7
  | .ranks => 8
  | .inEdgeIndex => 9
  | .inEdges => 10
  | .attrIndex => 11
  | .attrs => 12
  | .blobs => 13
  | .lexOrder => 14
  | .trigrams => 15
  | .triPostings => 16

def format : Container.Format := ⟨magic, version⟩

/-! ## The header -/

/-- Parsed header of a base file: the container's owner area. -/
structure Header where
  flags : UInt16
  nodeCount : UInt32
  segCount : UInt32
  edgeCount : UInt32
  tokenCount : UInt32
  generation : UInt64
  walAppliedSeq : UInt64
  createdAtMs : UInt64
  deriving DecidableEq

namespace Header

def owner (h : Header) : Bytes :=
  putU32 h.nodeCount ++ (putU32 h.segCount ++ (putU32 h.edgeCount ++ (putU32 h.tokenCount ++
    (putU64 h.generation ++ (putU64 h.walAppliedSeq ++ putU64 h.createdAtMs)))))

def fromOwner (flags : UInt16) (o : Bytes) : Header :=
  { flags, nodeCount := u32At o 0, segCount := u32At o 4, edgeCount := u32At o 8
    tokenCount := u32At o 12, generation := u64At o 16, walAppliedSeq := u64At o 24
    createdAtMs := u64At o 32 }

end Header

/-- A validated base file: the header and each section's byte range. -/
structure BaseDir where
  header : Header
  dir : Container.Dir

/-- The bytes of section `kind`, empty when absent. -/
def BaseDir.sec (d : BaseDir) (bytes : Bytes) (kind : SectionKind) : Bytes :=
  d.dir.sec bytes kind.tag

/-! ## Records -/

/-- Record `i` of a table of `width`-byte records. -/
def recordAt (table : Bytes) (width i : Nat) : Bytes := range table (i * width) width

namespace NodeRec
variable (r : Bytes)
def urlKey : UrlKey := u64At r 0
def contentHash : UInt64 := u64At r 8
def fetchedAtMs : UInt64 := u64At r 16
def lastChangeMs : UInt64 := u64At r 24
def urlOff : UInt32 := u32At r 32
def titleOff : UInt32 := u32At r 36
def snippetOff : UInt32 := u32At r 40
def etagOff : UInt32 := u32At r 44
def segStart : UInt32 := u32At r 48
def segCount : UInt16 := u16At r 52
def flags : UInt16 := u16At r 54
def intervalS : UInt32 := u32At r 56
def checks : UInt16 := u16At r 60
def changes : UInt16 := u16At r 62
def inDegree : UInt32 := u32At r 64
end NodeRec

namespace SegRec
variable (r : Bytes)
def segKey : UInt64 := u64At r 0
def byteStart : UInt32 := u32At r 8
def byteLen : UInt32 := u32At r 12
def labelOff : UInt32 := u32At r 16
def importance : UInt16 := u16At r 20
def depth : UInt8 := byteAt r 22
def flags : UInt8 := byteAt r 23
end SegRec

namespace LexRec
variable (r : Bytes)
def tokenHash : UInt64 := u64At r 0
def df : UInt32 := u32At r 8
def postingsOff : UInt32 := u32At r 12
def postingsLen : UInt32 := u32At r 16
def labelOff : UInt32 := u32At r 20
end LexRec

/-! ## `check_counts` -/

/-- A section has the length its count declares. -/
def expect (s : Bytes) (want : Nat) (name : String) : Except Error Unit :=
  check (s.length = want) (.format (name ++ " section length mismatch"))

/-- A label offset resolves inside the heap, to UTF-8. -/
def checkLabel (labels : Bytes) (off : UInt32) : Except Error Unit :=
  if off = noLabel then .ok ()
  else do
    check (off.toNat + 2 ≤ labels.length) (.format "label offset out of bounds")
    let len := (u16At labels off.toNat).toNat
    check (off.toNat + 2 + len ≤ labels.length) (.format "label extends past heap")
    check ((fromUtf8 (range labels (off.toNat + 2) len)).isSome) (.format "label not utf-8")

/-- A node record's labels and segment run. -/
def checkNode (labels : Bytes) (segCount : Nat) (r : Bytes) : Except Error Unit := do
  each (checkLabel labels)
    [NodeRec.urlOff r, NodeRec.titleOff r, NodeRec.snippetOff r, NodeRec.etagOff r]
  check ((NodeRec.segStart r).toNat + (NodeRec.segCount r).toNat ≤ segCount)
    (.format "segment run out of bounds")

/-- Index entries `i ..`, `k` of them, never below `prev` nor above `total`;
    the last of them. -/
def checkMonotone (idx : Bytes) (total : Nat) (e : Error) :
    Nat → Nat → UInt32 → Except Error UInt32
  | 0, _, prev => .ok prev
  | k + 1, i, prev => do
    check (prev ≤ u32At idx (i * 4) ∧ (u32At idx (i * 4)).toNat ≤ total) e
    checkMonotone idx total e k (i + 1) (u32At idx (i * 4))

/-- The `n + 1` index entries rise from 0 to `total`. -/
def checkCover (idx : Bytes) (n total : Nat) (monotone cover : Error) : Except Error Unit := do
  let last ← checkMonotone idx total monotone (n + 1) 0 0
  check (last.toNat = total) cover

/-- Every record's node id is below `n`. -/
def checkEnds (recs : Bytes) (count : Nat) (n : UInt32) (e : Error) : Except Error Unit :=
  each (fun i => check (u32At recs (i * edgeLen) < n) e) (List.range count)

/-- An index that may be absent when it covers nothing. -/
def checkCsr (idx : Bytes) (n total : Nat) (name : String) : Except Error Unit :=
  if idx.isEmpty ∧ total = 0 then .ok ()
  else do
    check (idx.length = (n + 1) * 4) (.format (name ++ " index length mismatch"))
    checkCover idx n total (.format (name ++ " index not monotone"))
      (.format (name ++ " index does not cover its records"))

/-- An attribute's value lies in the blob heap and is UTF-8. -/
def checkAttr (blobs r : Bytes) : Except Error Unit :=
  check ((u32At r 4).toNat + (u32At r 8).toNat ≤ blobs.length ∧
      (fromUtf8 (range blobs (u32At r 4).toNat (u32At r 8).toNat)).isSome ∧
      (range r 1 3).all (· == 0))
    (.format "attribute value out of bounds or not utf-8")

/-- The `u32`s of a run. -/
def words (bs : Bytes) : List UInt32 := (List.range (bs.length / 4)).map fun i => u32At bs (i * 4)

/-- A trigram's postings lie in their section and name lexicon records. -/
def checkTrigram (triPost : Bytes) (vocab : UInt32) (r : Bytes) : Except Error Unit :=
  check (((u32At r 4).toNat + (u32At r 8).toNat) * 4 ≤ triPost.length ∧
      (words (range triPost ((u32At r 4).toNat * 4) ((u32At r 8).toNat * 4))).all (· < vocab))
    (.format "trigram postings out of range")

/-- Lexicon records `i ..`, `k` of them, hashes rising above `prev`. -/
def checkLexicon (lex postings labels : Bytes) : Nat → Nat → Option UInt64 → Except Error Unit
  | 0, _, _ => .ok ()
  | k + 1, i, prev => do
    let r := recordAt lex lexLen i
    check (¬prev.any fun p => LexRec.tokenHash r ≤ p) (.format "lexicon not sorted")
    check ((LexRec.postingsOff r).toNat + (LexRec.postingsLen r).toNat ≤ postings.length)
      (.format "postings range out of bounds")
    checkLabel labels (LexRec.labelOff r)
    checkLexicon lex postings labels k (i + 1) (some (LexRec.tokenHash r))

/-- Node records `i ..`, `k` of them, keys rising above `prev`. -/
def checkSorted (nodes : Bytes) : Nat → Nat → Option UrlKey → Except Error Unit
  | 0, _, _ => .ok ()
  | k + 1, i, prev => do
    let key := NodeRec.urlKey (recordAt nodes nodeLen i)
    check (¬prev.any fun p => key ≤ p) (.format "nodes not sorted by url_key")
    checkSorted nodes k (i + 1) (some key)

/-- The forward edge index and its destinations. -/
def checkEdges (s : SectionKind → Bytes) (h : Header) : Except Error Unit := do
  checkCover (s .edgeIndex) h.nodeCount.toNat h.edgeCount.toNat
    (.format "edge index not monotone") (.format "edge index does not cover edges")
  checkEnds (s .edges) h.edgeCount.toNat h.nodeCount (.format "edge destination out of range")

/-- Inbound edges and attributes. -/
def checkReverse (s : SectionKind → Bytes) (h : Header) : Except Error Unit := do
  let n := h.nodeCount.toNat
  check ((s .inEdges).length = h.edgeCount.toNat * edgeLen)
    (.format "inbound edges length mismatch")
  checkCsr (s .inEdgeIndex) n h.edgeCount.toNat "inbound edge"
  checkEnds (s .inEdges) h.edgeCount.toNat h.nodeCount (.format "inbound edge source out of range")
  check ((s .attrs).length % attrLen = 0) (.format "attribute section length mismatch")
  checkCsr (s .attrIndex) n ((s .attrs).length / attrLen) "attribute"
  each (fun i => checkAttr (s .blobs) (recordAt (s .attrs) attrLen i))
    (List.range ((s .attrs).length / attrLen))

/-- The lexicon with its search indices. -/
def checkTokens (s : SectionKind → Bytes) (h : Header) : Except Error Unit := do
  check ((s .lexOrder).length = h.tokenCount.toNat * 4 ∧
    (words (s .lexOrder)).all (· < h.tokenCount)) (.format "lexicon order out of range")
  check ((s .trigrams).length % triLen = 0 ∧ (s .triPostings).length % 4 = 0)
    (.format "trigram section length mismatch")
  each (fun i => checkTrigram (s .triPostings) h.tokenCount (recordAt (s .trigrams) triLen i))
    (List.range ((s .trigrams).length / triLen))
  checkLexicon (s .lexicon) (s .postings) (s .labels) h.tokenCount.toNat 0 none

/-- Cross-check declared counts against the sections, and every record
    invariant the accessors rely on. -/
def checkCounts (s : SectionKind → Bytes) (h : Header) : Except Error Unit := do
  let n := h.nodeCount.toNat
  expect (s .nodes) (n * nodeLen) "nodes"
  expect (s .segs) (h.segCount.toNat * segLen) "segs"
  expect (s .edges) (h.edgeCount.toNat * edgeLen) "edges"
  expect (s .lexicon) (h.tokenCount.toNat * lexLen) "lexicon"
  onlyIf (0 < n) do
    expect (s .edgeIndex) ((n + 1) * 4) "edge index"
    expect (s .ranks) (n * rankLen) "ranks"
  each (fun i => checkNode (s .labels) h.segCount.toNat (recordAt (s .nodes) nodeLen i))
    (List.range n)
  each (fun i => checkLabel (s .labels) (SegRec.labelOff (recordAt (s .segs) segLen i)))
    (List.range h.segCount.toNat)
  onlyIf (0 < n) (checkEdges s h)
  onlyIf (0 < n) (checkReverse s h)
  checkTokens s h
  checkSorted (s .nodes) n 0 none

/-- Validate `bytes` end to end. -/
def BaseDir.parse (xxh3 : Bytes → UInt64) (bytes : Bytes) : Except Error BaseDir := do
  let dir ← Container.Dir.parse xxh3 bytes format
  let d : BaseDir := ⟨Header.fromOwner dir.flags dir.owner, dir⟩
  checkCounts (d.sec bytes) d.header
  .ok d

end GraphR.BaseFile
