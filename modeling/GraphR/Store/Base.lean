import GraphR.Library.Faults
import GraphR.Store.Snapshot

/-! # A decoded base

    What a base file holds, without its bytes: one `NodeModel` per key, in key
    order, and the rank of each. `Base.reader` is the reader a snapshot uses over
    it. The lemmas of the second half say what each snapshot read is, key by key:
    a pure merge of the base node and the overlay node of that key. -/

namespace GraphR

open Wal ByteLib

/-! ## Nodes as compaction collects them -/

/-- A segment as compaction collects it. -/
structure SegModel where
  key : UInt64
  byteStart : UInt32
  byteLen : UInt32
  label : String
  importance : UInt16
  depth : UInt8
  flags : UInt8
  deriving DecidableEq

/-- A node as compaction collects it (`Model` in the source). -/
structure NodeModel where
  url : String
  title : Option String
  snippet : Option String
  etag : Option String
  contentHash : UInt64
  fetchedAtMs : UInt64
  lastChangeMs : UInt64
  intervalS : UInt32
  checks : UInt16
  changes : UInt16
  flags : UInt16
  segs : List SegModel
  edges : List Edge
  attrs : List (UInt8 × String)
  deriving DecidableEq

/-- What is read back of a collected segment. -/
def SegModel.toRef (s : SegModel) : SegRef :=
  { key := s.key, label := s.label
    byteRange := if s.flags &&& sflags.noRange = 0 then some (s.byteStart, s.byteLen) else none
    depth := s.depth, importance := s.importance, flags := s.flags }

namespace NodeModel

/-- The record of a collected node: an empty URL is no label. -/
def toRec (m : NodeModel) (key : UrlKey) : BaseRec :=
  { key, url := if m.url = "" then none else some m.url, title := m.title, snippet := m.snippet
    etag := m.etag, contentHash := m.contentHash, fetchedAtMs := m.fetchedAtMs
    lastChangeMs := m.lastChangeMs, intervalS := m.intervalS, checks := m.checks
    changes := m.changes, flags := m.flags }

theorem url_getD_toRec (m : NodeModel) (key : UrlKey) : (m.toRec key).url.getD "" = m.url := by
  unfold toRec
  by_cases h : m.url = ""
  · simp [h]
  · simp [h]

end NodeModel

/-- A decoded base: its nodes in key order, and their ranks by position. -/
structure Base where
  nodes : SortedMap UrlKey NodeModel
  ranks : List UInt16

namespace Base

variable (b : Base)

/-- The dense id of a key: its position in key order. -/
def idOf (k : UrlKey) : Option Nat := b.nodes.keys.idxOf? k

/-- An edge with its destination as a dense id; it faults when the destination
    is no node of the base. -/
def resolve (e : Edge) : Option BaseEdge :=
  (b.idOf e.dst).map fun id => ⟨id, e.etype, e.eflags, e.weight⟩

/-- The inbound records of `key`, by source id. -/
def inbound (key : UrlKey) : List BaseEdge :=
  b.nodes.entries.zipIdx.flatMap fun (e, id) =>
    (e.2.edges.filter fun d => d.dst = key).map fun d => ⟨id, d.etype, d.eflags, d.weight⟩

/-- The reads of a decoded base. -/
def reader : BaseReader where
  nodeCount := b.nodes.entries.length
  findNode := fun k => some (b.idOf k)
  nodeRec := fun id => b.nodes.entries[id]?.map fun e => e.2.toRec e.1
  rankPermille := fun id => some (b.ranks.getD id 0)
  edges := fun id => do
    let e ← b.nodes.entries[id]?
    e.2.edges.mapM b.resolve
  inEdges := fun id => b.nodes.entries[id]?.map fun e => b.inbound e.1
  segs := fun id => b.nodes.entries[id]?.map fun e => e.2.segs.map SegModel.toRef
  attrs := fun id => b.nodes.entries[id]?.map fun e => e.2.attrs

/-! ## Ids and keys -/

variable {b}

theorem idOf_eq_none {k : UrlKey} : b.idOf k = none ↔ b.nodes.get k = none := by
  rw [idOf, List.idxOf?_eq_none_iff, SortedMap.get_eq_none_iff]

/-- The record at the id of a key is the record of that key. -/
theorem entry_of_idOf {k : UrlKey} {id : Nat} (h : b.idOf k = some id) :
    ∃ m, b.nodes.get k = some m ∧ b.nodes.entries[id]? = some (k, m) := by
  obtain ⟨hlt, heq, -⟩ := List.idxOf?_eq_some_iff.mp h
  have hlt' : id < b.nodes.entries.length := by simpa [SortedMap.keys] using hlt
  have hkey : (b.nodes.entries[id]).1 = k := by
    simpa [SortedMap.keys] using heq
  refine ⟨(b.nodes.entries[id]).2, ?_, ?_⟩
  · rw [← SortedMap.mem_entries, ← hkey]
    exact List.getElem_mem hlt'
  · rw [List.getElem?_eq_getElem hlt', ← hkey]

theorem idOf_of_get {k : UrlKey} {m : NodeModel} (h : b.nodes.get k = some m) :
    ∃ id, b.idOf k = some id ∧ b.nodes.entries[id]? = some (k, m) := by
  cases hid : b.idOf k with
  | none => rw [idOf_eq_none.mp hid] at h; cases h
  | some id =>
    obtain ⟨m', hm', hentry⟩ := entry_of_idOf hid
    rw [h] at hm'
    cases hm'
    exact ⟨id, rfl, hentry⟩

/-- Every edge destination is a node of the base. -/
def Closed (b : Base) : Prop :=
  ∀ k m, b.nodes.get k = some m → ∀ e ∈ m.edges, (b.nodes.get e.dst).isSome

end Base

/-! ## Reads, key by key -/

/-- The merge of a base node and an overlay node. -/
def mergedRef (ttl : TtlConfig) (key : UrlKey) (id : Option Nat) (rank : UInt16)
    (m : Option NodeModel) (patch : Option OverlayNode) : Option NodeRef :=
  if patch.any (·.removed) then none
  else
    match patch.bind fun p => p.core.map fun c => (p, c) with
    | some (p, core) =>
      some (.make key id core.url core.title core.snippet
        (coreFreshness ttl p core (m.map (·.toRec key))) rank)
    | none => m.map fun m =>
      .make key id m.url m.title m.snippet (baseFreshness (m.toRec key) patch) rank

/-- A merged node is that of the overlay core, or that of the base record. -/
theorem mergedRef_cases {ttl : TtlConfig} {k : UrlKey} {id : Option Nat} {rank : UInt16}
    {m : Option NodeModel} {p : Option OverlayNode} {n : NodeRef}
    (h : mergedRef ttl k id rank m p = some n) :
    (p.getD {}).removed = false ∧
      ((∃ q c, p = some q ∧ q.core = some c ∧ n = .make k id c.url c.title c.snippet
          (coreFreshness ttl q c (m.map (·.toRec k))) rank) ∨
        ((p.getD {}).core = none ∧ ∃ r, m = some r ∧ n = .make k id r.url r.title r.snippet
          (baseFreshness (r.toRec k) p) rank)) := by
  unfold mergedRef at h
  cases p with
  | none =>
    obtain ⟨r, hr, rfl⟩ := Option.map_eq_some_iff.mp h
    exact ⟨rfl, .inr ⟨rfl, r, hr, rfl⟩⟩
  | some q =>
    simp only [Option.any_some, Option.bind_some] at h
    split_ifs at h with hrem
    refine ⟨by simpa using hrem, ?_⟩
    cases hcore : q.core with
    | some c =>
      rw [hcore] at h
      cases h
      exact .inl ⟨q, c, rfl, hcore, rfl⟩
    | none =>
      rw [hcore] at h
      obtain ⟨r, hr, rfl⟩ := Option.map_eq_some_iff.mp h
      exact .inr ⟨hcore, r, hr, rfl⟩

/-- Outbound edges as the merge gives them. -/
def mergedEdges (m : Option NodeModel) (patch : Option OverlayNode) : List Edge :=
  match patch with
  | none => m.elim [] NodeModel.edges
  | some p =>
    if p.removed then []
    else
      match p.edges with
      | some es => es
      | none => if p.severed then [] else m.elim [] NodeModel.edges

/-- Segments as the merge gives them. -/
def mergedSegs (xxh3 : Bytes → UInt64) (key : UrlKey) (m : Option NodeModel)
    (patch : Option OverlayNode) : List SegRef :=
  match patch with
  | none => m.elim [] fun m => m.segs.map SegModel.toRef
  | some p =>
    if p.removed || (p.segs.isNone && p.severed) then []
    else
      match p.segs with
      | some vs => vs.map (Snapshot.segRefOf xxh3 key)
      | none => m.elim [] fun m => m.segs.map SegModel.toRef

/-- Attributes as the merge gives them. -/
def mergedAttrs (m : Option NodeModel) (patch : Option OverlayNode) : List (UInt8 × String) :=
  match patch with
  | none => m.elim [] NodeModel.attrs
  | some p =>
    if p.removed || (p.attrs.isNone && p.severed) then []
    else
      match p.attrs with
      | some as => as
      | none => m.elim [] NodeModel.attrs

/-- The edge a reference stands for. -/
def EdgeRef.raw (e : EdgeRef) : Edge := ⟨e.dstKey, e.etype.asTag, e.flags, e.weight⟩

namespace Base

variable (b : Base) (ops : List Op) (ttl : TtlConfig)

/-- A snapshot over a decoded base. -/
def snapshot : Snapshot := ⟨b.reader, ops, ttl⟩

/-- The rank of a key's node, 0 for one that is only in the overlay. -/
def rankOf (k : UrlKey) : UInt16 := (b.idOf k).elim 0 fun id => b.ranks.getD id 0

theorem overlay_snapshot (k : UrlKey) :
    (b.snapshot ops ttl).overlay.get k = foldKey k none ops := get_build ops k

theorem node_snapshot (k : UrlKey) :
    (b.snapshot ops ttl).node k
      = some (mergedRef ttl k (b.idOf k) (b.rankOf k) (b.nodes.get k) (foldKey k none ops)) := by
  unfold Snapshot.node mergedRef
  rw [overlay_snapshot]
  by_cases hrem : (foldKey k none ops).any (·.removed) = true
  · rw [if_pos hrem, if_pos hrem]
  · rw [if_neg hrem, if_neg hrem]
    have hfind : (b.snapshot ops ttl).base.findNode k = some (b.idOf k) := rfl
    rw [hfind]
    simp only [Option.bind_eq_bind, Option.bind_some]
    cases hid : b.idOf k with
    | none =>
      have hnone := idOf_eq_none.mp hid
      cases hcore : (foldKey k none ops).bind fun p => p.core.map fun c => (p, c) with
      | none => simp [hnone]
      | some pc =>
        simp [Snapshot.coreNodeRef, hnone, rankOf, hid]
        rfl
    | some id =>
      obtain ⟨m, hget, hentry⟩ := entry_of_idOf hid
      cases hcore : (foldKey k none ops).bind fun p => p.core.map fun c => (p, c) with
      | none =>
        simp [Snapshot.baseNodeRef, snapshot, reader, hentry, hget, rankOf, hid,
          NodeModel.url_getD_toRec]
        rfl
      | some pc =>
        simp [Snapshot.coreNodeRef, snapshot, reader, hentry, hget, rankOf, hid]

/-- The node of a key as a snapshot over `b` gives it. -/
def nodeAt (k : UrlKey) : Option NodeRef :=
  mergedRef ttl k (b.idOf k) (b.rankOf k) (b.nodes.get k) (foldKey k none ops)

variable {b ops ttl}

theorem key_of_nodeAt {k : UrlKey} {n : NodeRef} (h : b.nodeAt ops ttl k = some n) : n.key = k := by
  rcases (mergedRef_cases h).2 with ⟨q, c, -, -, rfl⟩ | ⟨-, r, -, rfl⟩ <;> rfl

/-! ### Edges -/

theorem nodeIdentity_snapshot (ops : List Op) (ttl : TtlConfig) {k : UrlKey} {id : Nat} (h : b.idOf k = some id) :
    ∃ url, (b.snapshot ops ttl).nodeIdentity id = some (k, url) := by
  obtain ⟨m, -, hentry⟩ := entry_of_idOf h
  exact ⟨(m.toRec k).url, by simp [Snapshot.nodeIdentity, snapshot, reader, hentry]; rfl⟩

theorem overlayEdgeRef_snapshot (e : Edge) :
    ∃ r, (b.snapshot ops ttl).overlayEdgeRef e = some r ∧ r.raw = e := by
  have hfind : (b.snapshot ops ttl).base.findNode e.dst = some (b.idOf e.dst) := rfl
  unfold Snapshot.overlayEdgeRef
  rw [hfind]
  cases hid : b.idOf e.dst with
  | none => exact ⟨_, rfl, by simp [EdgeRef.raw]⟩
  | some id =>
    obtain ⟨url, hurl⟩ := nodeIdentity_snapshot ops ttl hid
    simp only [Option.bind_eq_bind, Option.bind_some, Option.mapM_some, hurl, Option.map_eq_map,
      Option.map_some]
    exact ⟨_, rfl, by simp [EdgeRef.raw]⟩

/-- The base run of a key, its destinations resolved, is its edges. -/
theorem baseNeighbors_snapshot (hb : b.Closed) (k : UrlKey) :
    ∃ es, (b.snapshot ops ttl).baseNeighbors k = some es ∧
      es.map EdgeRef.raw = (b.nodes.get k).elim [] NodeModel.edges := by
  have hfind : (b.snapshot ops ttl).base.findNode k = some (b.idOf k) := rfl
  unfold Snapshot.baseNeighbors
  rw [hfind]
  simp only [Option.bind_eq_bind, Option.bind_some]
  cases hid : b.idOf k with
  | none => exact ⟨[], rfl, by rw [idOf_eq_none.mp hid]; rfl⟩
  | some id =>
    obtain ⟨m, hget, hentry⟩ := entry_of_idOf hid
    have hdst : ∀ e ∈ m.edges, ∃ i, b.idOf e.dst = some i := by
      intro e he
      obtain ⟨md, hmd⟩ := Option.isSome_iff_exists.mp (hb k m hget e he)
      obtain ⟨i, hi, -⟩ := idOf_of_get hmd
      exact ⟨i, hi⟩
    -- every destination resolves, and back again
    have hrun : ∃ es, (m.edges.mapM fun e => (b.resolve e).bind
        (b.snapshot ops ttl).baseEdgeRef) = some es ∧ es.map EdgeRef.raw = m.edges.map fun e => e := by
      apply FaultLib.mapM_proj
      intro e he
      obtain ⟨i, hi⟩ := hdst e he
      obtain ⟨url, hurl⟩ := nodeIdentity_snapshot ops ttl hi
      refine ⟨⟨some i, e.dst, url, EdgeType.fromTag e.etype, e.eflags, e.weight⟩, ?_, ?_⟩
      · simp [resolve, hi, Snapshot.baseEdgeRef, hurl]
      · simp [EdgeRef.raw]
    obtain ⟨es, hes, hraw⟩ := hrun
    refine ⟨es, ?_, by rw [hraw, hget]; simp⟩
    have hedges : (b.snapshot ops ttl).base.edges id = m.edges.mapM b.resolve := by
      simp [snapshot, reader, hentry]
    simp only [hedges]
    rw [← hes]
    exact FaultLib.mapM_bind_mapM m.edges b.resolve _

theorem neighbors_snapshot (hb : b.Closed) (k : UrlKey) :
    ∃ es, (b.snapshot ops ttl).neighbors k = some es ∧
      es.map EdgeRef.raw = mergedEdges (b.nodes.get k) (foldKey k none ops) := by
  unfold Snapshot.neighbors mergedEdges
  rw [overlay_snapshot]
  cases hp : foldKey k none ops with
  | none => exact baseNeighbors_snapshot hb k
  | some p =>
    simp only
    by_cases hrem : p.removed = true
    · rw [if_pos hrem, if_pos hrem]
      exact ⟨[], rfl, rfl⟩
    · rw [if_neg hrem, if_neg hrem]
      cases p.edges with
      | some es =>
        have hall : ∀ e ∈ es, ∃ r, (b.snapshot ops ttl).overlayEdgeRef e = some r ∧ r.raw = e :=
          fun e _ => overlayEdgeRef_snapshot e
        obtain ⟨rs, hrs, hraw⟩ := FaultLib.mapM_proj hall
        exact ⟨rs, hrs, by simpa using hraw⟩
      | none =>
        simp only
        by_cases hsev : p.severed = true
        · rw [if_pos hsev, if_pos hsev]
          exact ⟨[], rfl, rfl⟩
        · rw [if_neg hsev, if_neg hsev]
          exact baseNeighbors_snapshot hb k

/-! ### Segments and attributes -/

theorem segments_snapshot (xxh3 : Bytes → UInt64) (k : UrlKey) :
    (b.snapshot ops ttl).segments xxh3 k
      = some (mergedSegs xxh3 k (b.nodes.get k) (foldKey k none ops)) := by
  have hbase : (b.snapshot ops ttl).baseSegments k
      = some ((b.nodes.get k).elim [] fun m => m.segs.map SegModel.toRef) := by
    have hfind : (b.snapshot ops ttl).base.findNode k = some (b.idOf k) := rfl
    unfold Snapshot.baseSegments
    rw [hfind]
    simp only [Option.bind_eq_bind, Option.bind_some]
    cases hid : b.idOf k with
    | none => rw [idOf_eq_none.mp hid]; rfl
    | some id =>
      obtain ⟨m, hget, hentry⟩ := entry_of_idOf hid
      simp [snapshot, reader, hentry, hget]
  unfold Snapshot.segments mergedSegs
  rw [overlay_snapshot]
  cases hp : foldKey k none ops with
  | none => exact hbase
  | some p =>
    simp only
    by_cases hgone : (p.removed || (p.segs.isNone && p.severed)) = true
    · rw [if_pos hgone, if_pos hgone]
    · rw [if_neg hgone, if_neg hgone]
      cases p.segs with
      | some vs => rfl
      | none => exact hbase

theorem attrs_snapshot (k : UrlKey) :
    (b.snapshot ops ttl).attrs k = some (mergedAttrs (b.nodes.get k) (foldKey k none ops)) := by
  have hbase : (b.snapshot ops ttl).baseAttrs k
      = some ((b.nodes.get k).elim [] NodeModel.attrs) := by
    have hfind : (b.snapshot ops ttl).base.findNode k = some (b.idOf k) := rfl
    unfold Snapshot.baseAttrs
    rw [hfind]
    simp only [Option.bind_eq_bind, Option.bind_some]
    cases hid : b.idOf k with
    | none => rw [idOf_eq_none.mp hid]; rfl
    | some id =>
      obtain ⟨m, hget, hentry⟩ := entry_of_idOf hid
      simp [snapshot, reader, hentry, hget]
  unfold Snapshot.attrs mergedAttrs
  rw [overlay_snapshot]
  cases hp : foldKey k none ops with
  | none => exact hbase
  | some p =>
    simp only
    by_cases hgone : (p.removed || (p.attrs.isNone && p.severed)) = true
    · rw [if_pos hgone, if_pos hgone]
    · rw [if_neg hgone, if_neg hgone]
      cases p.attrs with
      | some as => rfl
      | none => exact hbase

end Base

end GraphR
