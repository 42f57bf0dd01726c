import GraphR.Format.BaseFile
import GraphR.Format.Wal.Safe
import GraphR.Store.Live

/-! # Snapshots over file images

    The reads of a base file, without checks: each faults when it indexes out of
    bounds or would take the UTF-8 fallback of `label_at`. Offsets are computed in
    `Nat`; one that stays inside its section is far below `usize::MAX`, so no
    arithmetic on the way to it overflowed.

    `openImage` is what `Store::open_image` does with a base image and a log
    image. -/

namespace GraphR

open Wal ByteLib BaseFile

/-! ## Reads of a base file -/

namespace BaseFile

/-- `&table[i * width .. (i + 1) * width]`. Its field reads are in bounds, as a
    record that was sliced has its full width. -/
def slice (table : Bytes) (width i : Nat) : Option Bytes :=
  if (i + 1) * width ≤ table.length then some (recordAt table width i) else none

/-- Read a length-prefixed label from the heap. -/
def labelAt (labels : Bytes) (off : UInt32) : Option (Option String) :=
  if off = noLabel then some none
  else do
    let len ← getU16 labels off.toNat
    let s ← text labels (off.toNat + 2) len.toNat
    some (some s)

section reads
variable (s : SectionKind → Bytes)

/-- A node record with its labels. -/
def nodeRec (id : Nat) : Option BaseRec := do
  let r ← slice (s .nodes) nodeLen id
  let url ← labelAt (s .labels) (NodeRec.urlOff r)
  let title ← labelAt (s .labels) (NodeRec.titleOff r)
  let snippet ← labelAt (s .labels) (NodeRec.snippetOff r)
  let etag ← labelAt (s .labels) (NodeRec.etagOff r)
  some { key := NodeRec.urlKey r, url, title, snippet, etag, contentHash := NodeRec.contentHash r
         fetchedAtMs := NodeRec.fetchedAtMs r, lastChangeMs := NodeRec.lastChangeMs r
         intervalS := NodeRec.intervalS r, checks := NodeRec.checks r
         changes := NodeRec.changes r, flags := NodeRec.flags r }

/-- The binary search of `find_node` between `lo` and `hi`; the fuel is more
    than `hi - lo`. -/
def findGo (nodes : Bytes) (key : UrlKey) : Nat → Nat → Nat → Option (Option Nat)
  | 0, _, _ => some none
  | fuel + 1, lo, hi =>
    if lo < hi then do
      let mid := (lo + hi) / 2
      let k ← getU64 nodes (mid * nodeLen)
      if k < key then findGo nodes key fuel (mid + 1) hi
      else if key < k then findGo nodes key fuel lo mid
      else some (some mid)
    else some none

/-- Binary-search the sorted node table for `key`. -/
def findNode (nodes : Bytes) (key : UrlKey) : Option (Option Nat) :=
  findGo nodes key (nodes.length / nodeLen + 1) 0 (nodes.length / nodeLen)

/-- A node's rank percentile, 0 past the table. -/
def rankPermille (id : Nat) : Option UInt16 :=
  if id * rankLen + rankLen ≤ (s .ranks).length then getU16 (s .ranks) (id * rankLen) else some 0

/-- The records of a node's run: `idx[id] .. idx[id + 1]` of `table`. -/
def runOf {α : Type} (idx table : Bytes) (width : Nat) (read : Bytes → Option α) (id : Nat) :
    Option (List α) :=
  if idx.isEmpty then some []
  else do
    let start ← getU32 idx (id * 4)
    let stop ← getU32 idx ((id + 1) * 4)
    (List.range' start.toNat (stop.toNat - start.toNat)).mapM fun i => do
      let r ← slice table width i
      read r

def edgeRec (r : Bytes) : Option BaseEdge :=
  some ⟨(u32At r 0).toNat, byteAt r 4, byteAt r 5, u16At r 6⟩

def attrRec (blobs r : Bytes) : Option (UInt8 × String) := do
  let v ← text blobs (u32At r 4).toNat (u32At r 8).toNat
  some (byteAt r 0, v)

/-- Segment `i`. -/
def segRec (i : Nat) : Option SegRef := do
  let r ← slice (s .segs) segLen i
  let label ← labelAt (s .labels) (SegRec.labelOff r)
  some { key := SegRec.segKey r, label := label.getD ""
         byteRange := if SegRec.flags r &&& sflags.noRange = 0
           then some (SegRec.byteStart r, SegRec.byteLen r) else none
         depth := SegRec.depth r, importance := SegRec.importance r, flags := SegRec.flags r }

def segRun (id : Nat) : Option (List SegRef) := do
  let r ← slice (s .nodes) nodeLen id
  (List.range' (NodeRec.segStart r).toNat (NodeRec.segCount r).toNat).mapM (segRec s)

/-- The reads of a base file with header `h`. -/
def reader (h : Header) : BaseReader where
  nodeCount := h.nodeCount.toNat
  findNode := findNode (s .nodes)
  nodeRec := nodeRec s
  rankPermille := rankPermille s
  edges := runOf (s .edgeIndex) (s .edges) edgeLen edgeRec
  inEdges := runOf (s .inEdgeIndex) (s .inEdges) edgeLen edgeRec
  segs := segRun s
  attrs := runOf (s .attrIndex) (s .attrs) attrLen (attrRec (s .blobs))

end reads

end BaseFile

/-! ## Opening images -/

/-- What the log image turned out to be. -/
inductive LogState where
  | empty
  | stale
  | current (torn : Bool)
  | newer
  deriving DecidableEq

/-- A generation built from a base image and a log image: the base, and the ops
    of the log above what the base has folded, with their numbers. -/
structure Built where
  dir : BaseDir
  ops : List (Nat × OpView)
  log : LogState
  goodLen : Nat

section opening
variable (xxh3 : Bytes → UInt64)

/-- The ops of `records` numbered above `above`, as the overlay publishes
    them. -/
def opsAbove (above : Nat) (records : List Record) : List (Nat × OpView) :=
  (records.flatMap fun r => r.ops.map fun p => (p.1, p.2.2)).filter fun p => above < p.1

/-- Most entries (and segments) an overlay arena holds. -/
def arenaCapacity : Nat := 64 * (2 ^ 20 - 1)

/-- Longest segment an arena entry can address. -/
def offMask : Nat := 2 ^ 38 - 1

/-- Validate a base image and replay a log image against it. -/
def buildGeneration (base wal : Bytes) : Except Error Built := do
  let dir ← BaseDir.parse xxh3 base
  if wal.isEmpty then .ok ⟨dir, [], .empty, 0⟩
  else do
    let generation ← parseHeader xxh3 wal
    if dir.header.generation < generation then .ok ⟨dir, [], .newer, 0⟩
    else if generation < dir.header.generation then .ok ⟨dir, [], .stale, Wal.headerLen⟩
    else
      let scanned := scan xxh3 wal Wal.headerLen none
      match scanned.corrupt with
      | some e => .error e
      | none =>
        let image := wal.take scanned.stop
        let ops := opsAbove dir.header.walAppliedSeq.toNat
          (records image Wal.headerLen image.length)
        if ops ≠ [] ∧ (arenaCapacity < ops.length ∨ offMask < image.length) then
          .error (.busy "overlay arena full during replay")
        else .ok ⟨dir, ops, .current (scanned.stop < wal.length), scanned.stop⟩

/-- Open a store from in-memory images; a log newer than its base is
    refused. -/
def openImage (base wal : Bytes) : Except Error Built := do
  let built ← buildGeneration xxh3 base wal
  FaultLib.check (built.log ≠ .newer) 
    (.busy "log image is newer than its base; fetch the base again")
  .ok built

/-- The snapshot of an opened image whose overlay ops read as `ops`. -/
def Built.snapshot (b : Built) (base : Bytes) (ops : List Op) : Snapshot :=
  ⟨reader (b.dir.sec base) b.dir.header, ops, TtlConfig.default⟩

end opening

end GraphR
