import GraphR.Store.Staging

/-! # The reference model

    What a store is for, without files, logs or overlays: a map from keys to
    documents. An upsert replaces the core fields, ORs the pin and keeps counters
    and side sets; a touch adds one check, and a change with its stamp; a remove
    deletes everything; compaction and reopening are not there at all.

    The second half relates it to the merge of a base node and an overlay node,
    key by key (`KeySim`), and shows that every op keeps the relation. -/

namespace GraphR

open Wal ByteLib

/-! ## Documents -/

structure Doc where
  url : String
  title : Option String
  snippet : Option String
  etag : Option String
  contentHash : UInt64
  fetchedAtMs : UInt64
  pinned : Bool
  checks : UInt16
  changes : UInt16
  lastChangeMs : UInt64
  segs : List SegRef
  edges : List Edge
  attrs : List (UInt8 × String)
  deriving DecidableEq

/-- The reference state. -/
abbrev Docs : Type := UrlKey → Option Doc

/-- A segment as the store gives it back. -/
def SegmentRecord.toRef (xxh3 : Bytes → UInt64) (key : UrlKey) (s : SegmentRecord) : SegRef :=
  { key := xxh3 (segKeyBytes key (strBytes s.label)), label := s.label, byteRange := s.byteRange
    depth := max s.depth 1, importance := s.importance
    flags := if s.byteRange.isSome then 0 else sflags.noRange }

/-- One edge per destination, in destination order. -/
def edgesOf (key : UrlKey) (specs : List Writer.EdgeSpec) : List Edge :=
  ((keptSpecs key specs).map Writer.EdgeSpec.toEdge).insertionSort fun a b => a.dst ≤ b.dst

namespace Doc

/-- Core fields replaced, pin ORed, counters and side sets kept. -/
def upserted (old : Option Doc) (doc : DocRecord) : Doc :=
  { url := doc.url, title := doc.title, snippet := doc.snippet, etag := doc.etag
    contentHash := doc.contentHash, fetchedAtMs := doc.fetchedAtMs
    pinned := doc.pinned || old.any Doc.pinned
    checks := old.elim 0 Doc.checks, changes := old.elim 0 Doc.changes
    lastChangeMs := old.elim 0 Doc.lastChangeMs
    segs := old.elim [] Doc.segs, edges := old.elim [] Doc.edges, attrs := old.elim [] Doc.attrs }

/-- One more check; one more change when there was one. -/
def touched (d : Doc) (t : Writer.Touch) : Doc :=
  { d with
    etag := t.etag.or d.etag
    contentHash := t.contentHash.getD d.contentHash
    fetchedAtMs := t.checkedAtMs
    checks := Writer.satSucc d.checks
    changes := if t.outcome = .changed then Writer.satSucc d.changes else d.changes
    lastChangeMs := if t.outcome = .changed then t.checkedAtMs else d.lastChangeMs }

end Doc

/-! ## Commands -/

namespace Docs

variable (xxh3 : Bytes → UInt64) (m : Docs)

/-- One call of a transaction. -/
def write : Write → Docs
  | .upsert doc => Function.update m doc.urlKey (some (Doc.upserted (m doc.urlKey) doc))
  | .remove key => Function.update m key none
  | .setSegments key segs =>
    Function.update m key ((m key).map fun d =>
      { d with segs := segs.map (SegmentRecord.toRef xxh3 key) })
  | .setEdges key edges =>
    Function.update m key ((m key).map fun d =>
      { d with edges := edgesOf key (edges.map fun (d, t, w) => ⟨d, t, w, 0⟩) })
  | .setEdgesWithFlags key edges =>
    Function.update m key ((m key).map fun d =>
      { d with edges := edgesOf key (edges.map fun (d, t, w, f) => ⟨d, t, w, f &&& eflags.exact⟩) })
  | .setAttrs key attrs =>
    Function.update m key ((m key).map fun d => { d with attrs := attrSet attrs })

/-- The side sets are set on live keys only. -/
def allowsWrite : Write → Bool
  | .upsert _ => true
  | .remove _ => true
  | .setSegments key _ => (m key).isSome
  | .setEdges key _ => (m key).isSome
  | .setEdgesWithFlags key _ => (m key).isSome
  | .setAttrs key _ => (m key).isSome

/-- Each call is allowed at its point of the list. -/
def allowsWrites : Docs → List Write → Bool
  | _, [] => true
  | m, w :: ws => m.allowsWrite w && allowsWrites (m.write xxh3 w) ws

/-- One transaction. -/
def txn : Txn → Docs
  | .touch key t => Function.update m key ((m key).map fun d => d.touched t)
  | .pin key pinned => Function.update m key ((m key).map fun d => { d with pinned })
  | .writes ws => ws.foldl (fun m w => m.write xxh3 w) m

/-- Touches and pins are on live keys, and no touch reports the document
    gone. -/
def allowsTxn : Txn → Bool
  | .touch key t => (m key).isSome && t.outcome != .gone
  | .pin key _ => (m key).isSome
  | .writes ws => allowsWrites xxh3 m ws

/-- Compaction and reopening change nothing. -/
def exec : Cmd → Docs
  | .txn t => m.txn xxh3 t
  | .compact => m
  | .reopen => m

def run (cmds : List Cmd) : Docs := cmds.foldl (fun m c => m.exec xxh3 c) m

/-- Every transaction of a run is allowed where it stands. -/
def allows : Docs → List Cmd → Bool
  | _, [] => true
  | m, .txn t :: cmds => m.allowsTxn xxh3 t && allows (m.txn xxh3 t) cmds
  | m, .compact :: cmds => allows m cmds
  | m, .reopen :: cmds => allows m cmds

end Docs

/-! ## The model, op by op -/

/-- What an op does to the document of its key. -/
def Doc.step (xxh3 : Bytes → UInt64) (key : UrlKey) (d : Option Doc) : Op → Option Doc
  | .upsert u => some
      { url := u.url, title := u.title, snippet := u.snippet, etag := u.etag
        contentHash := u.contentHash, fetchedAtMs := u.fetchedAtMs
        pinned := hasFlag u.flags nflags.pinned || d.any Doc.pinned
        checks := d.elim 0 Doc.checks, changes := d.elim 0 Doc.changes
        lastChangeMs := d.elim 0 Doc.lastChangeMs
        segs := d.elim [] Doc.segs, edges := d.elim [] Doc.edges, attrs := d.elim [] Doc.attrs }
  | .segs _ vs => d.map fun d => { d with segs := vs.map (Snapshot.segRefOf xxh3 key) }
  | .edges _ es => d.map fun d => { d with edges := es }
  | .attrs _ as => d.map fun d => { d with attrs := as }
  | .touch _ t => d.map fun d =>
      { d with
        etag := t.etag.or d.etag
        contentHash := t.contentHash.getD d.contentHash
        fetchedAtMs := t.checkedAtMs
        checks := t.checks
        changes := t.changes
        lastChangeMs := t.lastChangeMs }
  | .remove _ => none
  | .pin _ pinned => d.map fun d => { d with pinned }

/-- What an op does to the model. -/
def Docs.apply (xxh3 : Bytes → UInt64) (m : Docs) (op : Op) : Docs :=
  Function.update m op.key (Doc.step xxh3 op.key (m op.key) op)

/-- Ops the relation is kept by: side sets on live documents, edges ascending,
    and a touch that carries the whole state it leaves behind. -/
def OpOk (d : Option Doc) : Op → Prop
  | .upsert u => hasFlag u.flags nflags.stub = false ∧ hasFlag u.flags nflags.tombstone = false
  | .segs _ _ => d.isSome
  | .edges _ es => d.isSome ∧ Ascending es
  | .attrs _ _ => d.isSome
  | .touch _ t => d.isSome ∧ t.tombstone = false ∧ t.contentHash.isSome ∧
      ∀ d', d = some d' → t.etag = none → d'.etag = none
  | .remove _ => True
  | .pin _ _ => d.isSome

theorem toRef_eq (xxh3 : Bytes → UInt64) (key : UrlKey) (s : SegmentRecord) :
    Snapshot.segRefOf xxh3 key s.toView = SegmentRecord.toRef xxh3 key s := by
  have hrange := byteRange_toView s
  unfold Snapshot.segRefOf SegmentRecord.toRef
  rw [hrange]
  cases h : s.byteRange <;> simp [SegmentRecord.toView, segRange, h]

theorem docFlags_spec (doc : DocRecord) :
    hasFlag (Writer.docFlags doc) nflags.pinned = doc.pinned ∧
    hasFlag (Writer.docFlags doc) nflags.stub = false ∧
    hasFlag (Writer.docFlags doc) nflags.tombstone = false := by
  unfold Writer.docFlags
  cases doc.pinned <;> decide

/-- A call of the model is its op. -/
theorem Docs.write_eq (xxh3 : Bytes → UInt64) (m : Docs) (w : Write) :
    m.write xxh3 w = m.apply xxh3 w.op := by
  cases w with
  | upsert doc =>
    simp only [Docs.write, Docs.apply, Write.op, Op.key, DocRecord.toUpsert, Doc.step,
      Doc.upserted, (docFlags_spec doc).1]
  | remove key => rfl
  | setSegments key segs =>
    have hsegs : (segs.map SegmentRecord.toView).map (Snapshot.segRefOf xxh3 key)
        = segs.map (SegmentRecord.toRef xxh3 key) := by
      rw [List.map_map]
      exact List.map_congr_left fun s _ => toRef_eq xxh3 key s
    simp only [Docs.write, Docs.apply, Write.op, Op.key, Doc.step, hsegs]
  | setEdges key edges =>
    simp only [Docs.write, Docs.apply, Write.op, Op.key, Doc.step, Writer.edgeSet_eq, edgesOf]
  | setEdgesWithFlags key edges =>
    simp only [Docs.write, Docs.apply, Write.op, Op.key, Doc.step, Writer.edgeSet_eq, edgesOf]
  | setAttrs key attrs => rfl

/-- An allowed call is an op that keeps the relation. -/
theorem Docs.opOk_write {m : Docs} {w : Write} (h : m.allowsWrite w = true) :
    OpOk (m w.op.key) w.op := by
  cases w with
  | upsert doc => exact ⟨(docFlags_spec doc).2.1, (docFlags_spec doc).2.2⟩
  | remove key => trivial
  | setSegments key segs => exact h
  | setEdges key edges => exact ⟨h, (edgeSet_ascending _ _).1⟩
  | setEdgesWithFlags key edges => exact ⟨h, (edgeSet_ascending _ _).1⟩
  | setAttrs key attrs => exact h

end GraphR
