import GraphR.Store.Live
import Mathlib.Data.List.Sort
import Mathlib.Data.List.Destutter

/-! # Compaction: collecting the models

    The fold reads every node through the snapshot, so base and overlay
    semantics exist once; then targets that are no nodes become stubs, and stubs
    nothing references are dropped. Over a decoded base the fold never faults,
    and what it collects for a key is what the snapshot gives for that key
    (`get_collectModels`); the stubs change nothing a reader of documents sees
    (`get_manageStubs`). -/

namespace GraphR

open Wal ByteLib

/-! ## The fold -/

/-- A segment as collected; a missing byte range is stored as zeros. -/
def SegRef.toModel (s : SegRef) : SegModel :=
  { key := s.key, byteStart := s.byteRange.elim 0 Prod.fst, byteLen := s.byteRange.elim 0 Prod.snd
    label := s.label, importance := s.importance, depth := s.depth, flags := s.flags }

/-- Edges sorted by destination, the first of each kept. -/
def normEdges (es : List Edge) : List Edge :=
  (es.insertionSort fun a b => a.dst ≤ b.dst).destutter fun a b => a.dst ≠ b.dst

/-- A collected node from what the snapshot gives. -/
def NodeRef.toModel (n : NodeRef) (segs : List SegRef) (edges : List Edge)
    (attrs : List (UInt8 × String)) : NodeModel :=
  { url := n.url, title := n.title, snippet := n.snippet, etag := n.etag
    contentHash := n.contentHash, fetchedAtMs := n.fetchedAtMs, lastChangeMs := n.lastChangeMs
    intervalS := n.intervalS, checks := n.checks, changes := n.changes, flags := n.flags
    segs := segs.map SegRef.toModel, edges := normEdges edges, attrs }

namespace Snapshot

variable (xxh3 : Bytes → UInt64) (s : Snapshot)

/-- The model of one key, `none` for a removed one. -/
def collectModel (key : UrlKey) : Option (Option NodeModel) := do
  match ← s.node key with
  | none => some none
  | some n => do
    let es ← s.neighbors key
    let segs ← s.segments xxh3 key
    let attrs ← s.attrs key
    some (some (n.toModel segs (es.map EdgeRef.raw) attrs))

/-- The keys of the base and of the overlay. -/
def allKeys : Option (List UrlKey) := do
  let fromBase ← (List.range s.base.nodeCount).mapM fun id => (s.base.nodeRec id).map (·.key)
  some (fromBase ++ s.overlay.keys)

/-- Every model, by key. -/
def collectModels : Option (SortedMap UrlKey NodeModel) := do
  let keys ← s.allKeys
  let models ← keys.mapM fun k => do
    let m ← s.collectModel xxh3 k
    some (k, m)
  some (models.foldl (fun acc km => km.2.elim acc (acc.insert km.1)) SortedMap.empty)

end Snapshot

/-! ## Stubs -/

/-- An edge target never ingested itself. -/
def stubModel : NodeModel :=
  { url := "", title := none, snippet := none, etag := none, contentHash := 0, fetchedAtMs := 0
    lastChangeMs := 0, intervalS := 0, checks := 0, changes := 0, flags := nflags.stub, segs := []
    edges := [], attrs := [] }

/-- Every edge destination. -/
def referenced (models : SortedMap UrlKey NodeModel) : List UrlKey :=
  models.entries.flatMap fun e => e.2.edges.map Edge.dst

/-- Drop the stubs nothing references; add a stub for each missing target. -/
def manageStubs (models : SortedMap UrlKey NodeModel) : SortedMap UrlKey NodeModel :=
  let refs := referenced models
  let kept := models.filter fun k m => !hasFlag m.flags nflags.stub || refs.contains k
  let missing := refs.filter fun k => (kept.get k).isNone
  missing.foldl (fun m k => m.insert k stubModel) kept

theorem get_foldl_insert (ks : List UrlKey) (v : NodeModel) (m : SortedMap UrlKey NodeModel)
    (k : UrlKey) :
    (ks.foldl (fun m k => m.insert k v) m).get k = if k ∈ ks then some v else m.get k := by
  induction ks generalizing m with
  | nil => simp
  | cons a ks ih =>
    rw [List.foldl_cons, ih, SortedMap.get_insert]
    by_cases hk : k = a
    · simp [hk]
    · simp [hk]

theorem mem_referenced {models : SortedMap UrlKey NodeModel} {k : UrlKey} :
    k ∈ referenced models ↔ ∃ src m, models.get src = some m ∧ ∃ e ∈ m.edges, e.dst = k := by
  unfold referenced
  rw [List.mem_flatMap]
  constructor
  · rintro ⟨⟨src, m⟩, hmem, hk⟩
    obtain ⟨e, he, rfl⟩ := List.mem_map.mp hk
    exact ⟨src, m, SortedMap.mem_entries.mp hmem, e, he, rfl⟩
  · rintro ⟨src, m, hget, e, he, rfl⟩
    exact ⟨(src, m), SortedMap.mem_entries.mpr hget, List.mem_map.mpr ⟨e, he, rfl⟩⟩

/-- Stub management, key by key: a model stays unless it is a stub nothing
    references; a referenced key without one gets a stub. -/
theorem get_manageStubs (models : SortedMap UrlKey NodeModel) (k : UrlKey) :
    (manageStubs models).get k =
      match models.get k with
      | some m =>
        if hasFlag m.flags nflags.stub = true ∧ k ∉ referenced models then none else some m
      | none => if k ∈ referenced models then some stubModel else none := by
  unfold manageStubs
  simp only
  rw [get_foldl_insert]
  simp only [List.mem_filter, SortedMap.get_filter, Option.isNone_iff_eq_none]
  cases hm : models.get k with
  | none => simp
  | some m =>
    simp only
    by_cases hstub : hasFlag m.flags nflags.stub = true
    · by_cases href : k ∈ referenced models
      · simp [hstub, href]
      · simp [hstub, href]
    · simp [hstub]

/-! ## What is collected -/

namespace Base

variable (xxh3 : Bytes → UInt64) (b : Base) (ops : List Op) (ttl : TtlConfig)

/-- The model of a key as a snapshot over `b` gives it. -/
def modelAt (k : UrlKey) : Option NodeModel :=
  (b.nodeAt ops ttl k).map fun n =>
    n.toModel (mergedSegs xxh3 k (b.nodes.get k) (foldKey k none ops))
      (mergedEdges (b.nodes.get k) (foldKey k none ops))
      (mergedAttrs (b.nodes.get k) (foldKey k none ops))

variable {xxh3 b ops ttl}

theorem collectModel_snapshot (hb : b.Closed) (k : UrlKey) :
    (b.snapshot ops ttl).collectModel xxh3 k = some (b.modelAt xxh3 ops ttl k) := by
  obtain ⟨es, hes, hraw⟩ := @neighbors_snapshot b ops ttl hb k
  unfold Snapshot.collectModel modelAt
  rw [node_snapshot, ← nodeAt]
  cases b.nodeAt ops ttl k with
  | none => rfl
  | some n =>
    simp only [Option.bind_eq_bind, Option.bind_some, hes, segments_snapshot, attrs_snapshot, hraw,
      Option.map_some]

theorem allKeys_snapshot :
    (b.snapshot ops ttl).allKeys = some (b.nodes.keys ++ (OverlayView.build ops).keys) := by
  have hbase : (List.range b.nodes.entries.length).mapM
      (fun id => ((b.snapshot ops ttl).base.nodeRec id).map (·.key)) = some b.nodes.keys := by
    have h := FaultLib.mapM_range_eq_some b.nodes.keys
      (fun id => ((b.snapshot ops ttl).base.nodeRec id).map (·.key))
      (by
        intro id hid
        have hlt : id < b.nodes.entries.length := by simpa [SortedMap.keys] using hid
        simp [snapshot, reader, List.getElem?_eq_getElem hlt, SortedMap.keys, NodeModel.toRec])
    rwa [SortedMap.keys, List.length_map] at h
  have hcount : (b.snapshot ops ttl).base.nodeCount = b.nodes.entries.length := rfl
  unfold Snapshot.allKeys
  rw [hcount, hbase]
  rfl

/-- A key of neither the base nor the overlay has no node. -/
theorem nodeAt_eq_none {k : UrlKey} (hbase : k ∉ b.nodes.keys)
    (hover : k ∉ (OverlayView.build ops).keys) : b.nodeAt ops ttl k = none := by
  rw [← SortedMap.get_eq_none_iff] at hbase hover
  rw [get_build] at hover
  unfold nodeAt mergedRef
  rw [hbase, hover]
  rfl

/-- The fold never faults, and collects for each key what the snapshot gives. -/
theorem collectModels_snapshot (hb : b.Closed) :
    ∃ models, (b.snapshot ops ttl).collectModels xxh3 = some models ∧
      ∀ k, models.get k = b.modelAt xxh3 ops ttl k := by
  have hkeys := @allKeys_snapshot b ops ttl
  have hmap : (b.nodes.keys ++ (OverlayView.build ops).keys).mapM (fun k => do
        let m ← (b.snapshot ops ttl).collectModel xxh3 k
        some (k, m))
      = some ((b.nodes.keys ++ (OverlayView.build ops).keys).map fun k =>
          (k, b.modelAt xxh3 ops ttl k)) := by
    apply FaultLib.mapM_eq_some
    intro k _
    rw [collectModel_snapshot hb]
    rfl
  refine ⟨SortedMap.collect (b.nodes.keys ++ (OverlayView.build ops).keys)
    (b.modelAt xxh3 ops ttl), ?_, ?_⟩
  · unfold Snapshot.collectModels
    rw [hkeys]
    simp only [Option.bind_eq_bind, Option.bind_some] at hmap ⊢
    rw [hmap]
    simp only [Option.bind_some, List.foldl_map]
    rfl
  · intro k
    rw [SortedMap.get_collect]
    by_cases hk : k ∈ b.nodes.keys ++ (OverlayView.build ops).keys
    · rw [if_pos hk]
    · rw [if_neg hk]
      rw [List.mem_append, not_or] at hk
      rw [modelAt, nodeAt_eq_none hk.1 hk.2]
      rfl

end Base

/-- The nodes of the base compaction writes. -/
def Snapshot.compactNodes (xxh3 : Bytes → UInt64) (s : Snapshot) :
    Option (SortedMap UrlKey NodeModel) :=
  (s.collectModels xxh3).map manageStubs

end GraphR
