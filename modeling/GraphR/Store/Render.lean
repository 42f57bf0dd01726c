import GraphR.Library.Tables
import GraphR.Format.Postings
import GraphR.Store.Image
import GraphR.Store.Lexicon

/-! # Rendering a base

    What compaction writes from the collected nodes: one pass over them for the
    records, labels, segments and outbound edges, one each for the inbound edges,
    the attributes, the lexicon and its trigrams, and the container around the
    sections. Every offset and count is cast to `u32`. The ranks are floating-point
    sums in the source; here they are a field of the base. -/

namespace GraphR

open ByteLib TableLib

namespace BaseFile

/-! ## Records -/

/-- A `u16`-length-prefixed string. -/
def putStr (s : String) : Bytes := putU16 (UInt16.ofNat (strLen s)) ++ strBytes s

/-- Append a label to the heap; with its offset. -/
def pushLabel (labels : Bytes) (s : String) : UInt32 × Bytes :=
  (UInt32.ofNat labels.length, labels ++ putStr s)

/-- No label is the sentinel. -/
def pushOption (labels : Bytes) (s : Option String) : UInt32 × Bytes :=
  s.elim (noLabel, labels) (pushLabel labels)

/-- The label offsets of a node record. -/
structure LabelOffs where
  url : UInt32
  title : UInt32
  snippet : UInt32
  etag : UInt32

def writeNodeRec (key : UrlKey) (m : NodeModel) (offs : LabelOffs) (segStart inDegree : UInt32) :
    Bytes :=
  putU64 key ++ (putU64 m.contentHash ++ (putU64 m.fetchedAtMs ++ (putU64 m.lastChangeMs ++
    (putU32 offs.url ++ (putU32 offs.title ++ (putU32 offs.snippet ++ (putU32 offs.etag ++
      (putU32 segStart ++ (putU16 (UInt16.ofNat m.segs.length) ++ (putU16 m.flags ++
        (putU32 m.intervalS ++ (putU16 m.checks ++ (putU16 m.changes ++
          (putU32 inDegree ++ putU32 0))))))))))))))

def writeSegRec (s : SegModel) (labelOff : UInt32) : Bytes :=
  putU64 s.key ++ (putU32 s.byteStart ++ (putU32 s.byteLen ++ (putU32 labelOff ++
    (putU16 s.importance ++ [s.depth, s.flags]))))

def writeEdge (e : BaseEdge) : Bytes :=
  putU32 (UInt32.ofNat e.node) ++ ([e.etype, e.eflags] ++ putU16 e.weight)

def writeAttr (k : UInt8) (off len : UInt32) : Bytes := [k, 0, 0, 0] ++ (putU32 off ++ putU32 len)

def writeLexRec (hash : UInt64) (df postingsOff postingsLen labelOff : UInt32) : Bytes :=
  putU64 hash ++ (putU32 df ++ (putU32 postingsOff ++ (putU32 postingsLen ++ putU32 labelOff)))

def writeTri (g : Nat) (off len : UInt32) : Bytes :=
  putU32 (UInt32.ofNat g) ++ (putU32 off ++ putU32 len)

/-! ## The passes -/

/-- What the pass over the nodes has written. -/
structure NodePass where
  labels : Bytes
  nodes : Bytes
  segs : Bytes
  segTotal : UInt32
  edges : Csr
  maxFetched : UInt64

namespace NodePass

def empty : NodePass := ⟨[], [], [], 0, Csr.empty, 0⟩

def pushSeg (p : NodePass) (s : SegModel) : NodePass :=
  let label := pushLabel p.labels s.label
  { p with labels := label.2, segs := p.segs ++ writeSegRec s label.1, segTotal := p.segTotal + 1 }

/-- The node's own labels: the url, unless empty, then title, snippet and etag. -/
def pushLabels (labels : Bytes) (m : NodeModel) : LabelOffs × Bytes :=
  let url := pushOption labels (if m.url = "" then none else some m.url)
  let title := pushOption url.2 m.title
  let snippet := pushOption title.2 m.snippet
  let etag := pushOption snippet.2 m.etag
  (⟨url.1, title.1, snippet.1, etag.1⟩, etag.2)

/-- One node with its resolved edges and its in-degree. -/
def pushNode (p : NodePass) (e : UrlKey × NodeModel) (row : List BaseEdge) (inDegree : UInt32) :
    NodePass :=
  let own := pushLabels p.labels e.2
  let q := e.2.segs.foldl pushSeg { p with labels := own.2 }
  { q with
    edges := p.edges.addRow (row.map writeEdge)
    maxFetched := max p.maxFetched e.2.fetchedAtMs
    nodes := p.nodes ++ writeNodeRec e.1 e.2 own.1 p.segTotal inDegree }

end NodePass

/-- What the pass over the attributes has written. -/
structure AttrPass where
  recs : Csr
  blobs : Bytes

namespace AttrPass

def pushAttr (p : AttrPass) (a : UInt8 × String) : AttrPass :=
  ⟨p.recs.addRec (writeAttr a.1 (UInt32.ofNat p.blobs.length) (UInt32.ofNat (strLen a.2))),
    p.blobs ++ strBytes a.2⟩

def pushRow (p : AttrPass) (as : List (UInt8 × String)) : AttrPass :=
  as.foldl pushAttr { p with recs := p.recs.openRow }

end AttrPass

/-- What the pass over the lexicon has written, behind the labels of the nodes. -/
structure LexPass where
  labels : Bytes
  lexicon : Bytes
  postings : Bytes

/-- One token; `none` where the postings do not encode. -/
def LexPass.push (p : LexPass) (e : UInt64 × String × List Nat) : Option LexPass := do
  let run ← encodePostings (e.2.2.map UInt32.ofNat)
  let off := UInt32.ofNat p.postings.length
  let len := UInt32.ofNat (p.postings ++ run).length - off
  let label := pushLabel p.labels e.2.1
  some ⟨label.2, p.lexicon ++ writeLexRec e.1 (UInt32.ofNat e.2.2.length) off len label.1,
    p.postings ++ run⟩

/-- What the pass over the trigrams has written. -/
structure TriPass where
  trigrams : Bytes
  postings : Bytes

def TriPass.push (p : TriPass) (e : Nat × List Nat) : TriPass :=
  ⟨p.trigrams ++ writeTri e.1 (UInt32.ofNat (p.postings.length / 4)) (UInt32.ofNat e.2.length),
    p.postings ++ e.2.flatMap fun i => putU32 (UInt32.ofNat i)⟩

/-! ## The file -/

/-- Everything rendered. -/
structure Tables where
  pass : NodePass
  inbound : Csr
  attrs : AttrPass
  lex : LexPass
  order : Bytes
  tri : TriPass
  ranks : Bytes

namespace Tables

variable (t : Tables)

/-- The sections of a file with nodes, in order: those of segments, edges, tokens
    and attributes only where there are any. -/
def filled : List (SectionKind × Bytes) :=
  [(SectionKind.nodes, t.pass.nodes)] ++
  (if 0 < t.pass.segTotal then [(SectionKind.segs, t.pass.segs)] else []) ++
  [(SectionKind.edgeIndex, t.pass.edges.close)] ++
  (if 0 < t.pass.edges.total then [(SectionKind.edges, t.pass.edges.recs)] else []) ++
  [(SectionKind.labels, t.lex.labels)] ++
  (if t.lex.lexicon = [] then [] else
    [(SectionKind.lexicon, t.lex.lexicon), (SectionKind.postings, t.lex.postings)]) ++
  [(SectionKind.inEdgeIndex, t.inbound.close), (SectionKind.inEdges, t.inbound.recs)] ++
  (if 0 < t.attrs.recs.total then
    [(SectionKind.attrIndex, t.attrs.recs.close), (SectionKind.attrs, t.attrs.recs.recs),
      (SectionKind.blobs, t.attrs.blobs)]
  else []) ++
  [(SectionKind.ranks, t.ranks), (SectionKind.lexOrder, t.order),
    (SectionKind.trigrams, t.tri.trigrams), (SectionKind.triPostings, t.tri.postings)]

end Tables

namespace BaseWriter

/-- Start a writer for the given header. -/
def new (h : Header) : Container.Writer :=
  ((Container.Writer.new format).withFlags h.flags).withOwner h.owner

/-- Append one section. -/
def addSection (w : Container.Writer) (s : SectionKind × Bytes) : Container.Writer :=
  w.add s.1.tag s.2

end BaseWriter

/-- In-degrees of `n` nodes. -/
def inDegrees (n : Nat) (rows : List (List BaseEdge)) : List UInt32 :=
  rows.flatten.foldl (fun d e => d.modify e.node (· + 1)) (List.replicate n 0)

/-- The rows turned around, sources ascending. -/
def inboundRows (n : Nat) (rows : List (List BaseEdge)) : List (List BaseEdge) :=
  scatter n (rows.zipIdx.flatMap fun r => r.1.map fun e => (e.node, { e with node := r.2 }))

end BaseFile

open BaseFile

namespace Base

variable (xxh3 : Bytes → UInt64) (u : Unicode) (b : Base)

/-- The resolved rows, each sorted by destination id. -/
def edgeRows : Option (List (List BaseEdge)) :=
  b.nodes.entries.mapM fun e => do
    let row ← e.2.edges.mapM b.resolve
    some (row.insertionSort fun x y => x.node ≤ y.node)

/-- The pass over the nodes. -/
def nodePass (rows : List (List BaseEdge)) : NodePass :=
  (b.nodes.entries.zip (rows.zip (inDegrees b.nodes.entries.length rows))).foldl
    (fun p e => p.pushNode e.1 e.2.1 e.2.2) .empty

/-- All the tables. -/
def tables : Option Tables := do
  let rows ← b.edgeRows
  let pass := b.nodePass rows
  let lexicon := b.lexicon xxh3 u
  let lex ← lexicon.records.entries.foldlM LexPass.push ⟨pass.labels, [], []⟩
  some
    { pass, lex
      inbound := .ofRows ((inboundRows b.nodes.entries.length rows).map fun r => r.map writeEdge)
      attrs := b.nodes.entries.foldl (fun p e => p.pushRow e.2.attrs) ⟨.empty, []⟩
      order := lexicon.order.flatMap fun i => putU32 (UInt32.ofNat i)
      tri := lexicon.trigrams.entries.foldl TriPass.push ⟨[], []⟩
      ranks := b.ranks.flatMap putU16 }

/-- The header of the rendered file. -/
def header (t : Tables) (generation walAppliedSeq : UInt64) : Header :=
  { flags := 0, nodeCount := UInt32.ofNat b.nodes.entries.length, segCount := t.pass.segTotal
    edgeCount := t.pass.edges.total
    tokenCount := UInt32.ofNat (b.lexicon xxh3 u).records.entries.length
    generation, walAppliedSeq, createdAtMs := t.pass.maxFetched }

/-- The bytes of the rendered file. -/
def render (generation walAppliedSeq : UInt64) : Option Bytes := do
  let t ← b.tables xxh3 u
  let secs := if 0 < b.nodes.entries.length then t.filled else []
  let w := secs.foldl BaseWriter.addSection
    (BaseWriter.new (b.header xxh3 u t generation walAppliedSeq))
  some (w.finish xxh3)

end Base

end GraphR
