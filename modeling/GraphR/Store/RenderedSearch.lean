import GraphR.Store.RenderedReader
import GraphR.Store.Answers

/-! # Queries over a rendered base

    A query reads a base through the snapshot, the lexicon and the degrees. Over two
    bases that agree in these it gives the same hits and leaves the same buffers.
    The file of a base, rendered and validated, agrees with it in all of them. -/

namespace GraphR

open Wal ByteLib TableLib BaseFile FaultLib LookupLib

/-! ## Searches that agree -/

/-- The same lexicon reads, the same degrees. -/
structure SearchReader.Agrees (r r' : SearchReader) : Prop where
  lex : r.toLexReader = r'.toLexReader
  degree : ∀ id, r.degree id = r'.degree id

section agrees
variable {F : Type} (A : F32 F) (u : Unicode) (xxh3 : Bytes → UInt64) {r r' : BaseReader}
  {ix ix' : SearchReader} (h : r.Agrees r') (hix : ix.Agrees ix') (ops : List Op) (ttl : TtlConfig)

section reads
include h

theorem freshHits_same (nDocs : F) (terms : List String) :
    freshHits A u ⟨r, ops, ttl⟩ nDocs terms = freshHits A u ⟨r', ops, ttl⟩ nDocs terms := by
  have hhay : freshHay u ⟨r, ops, ttl⟩ = freshHay u ⟨r', ops, ttl⟩ := by
    funext k
    unfold freshHay
    simp only [h.findNode, h.node_same ops ttl]
  unfold freshHits
  rw [hhay]
  rfl

theorem fuse_same (seeds : List Nat) (maxArrival : F) :
    fuse A ⟨r, ops, ttl⟩ seeds maxArrival = fuse A ⟨r', ops, ttl⟩ seeds maxArrival := by
  funext e
  unfold fuse
  simp only [h.nodeRec, h.rankPermille]
  rfl

theorem render_same (terms : List String) (opts : QueryOpts) (ranked : List (Candidate F))
    (spent : UInt32) (out : List (Hit F)) :
    render u xxh3 ⟨r, ops, ttl⟩ terms opts ranked spent out
      = render u xxh3 ⟨r', ops, ttl⟩ terms opts ranked spent out := by
  have hanchor : bestAnchor u xxh3 ⟨r, ops, ttl⟩ terms = bestAnchor u xxh3 ⟨r', ops, ttl⟩ terms := by
    funext k
    unfold bestAnchor
    rw [h.segments_same ops ttl]
  induction ranked generalizing spent out with
  | nil => rfl
  | cons c ranked ih =>
    unfold render
    simp only [h.node_same ops ttl, hanchor, ih]

theorem related_same (key : UrlKey) (k : Nat) :
    related A ⟨r, ops, ttl⟩ key k = related A ⟨r', ops, ttl⟩ key k := by
  have hhits : ∀ ranked (out : List (Hit F)),
      relatedHits ⟨r, ops, ttl⟩ k ranked out = relatedHits ⟨r', ops, ttl⟩ k ranked out := by
    intro ranked
    induction ranked with
    | nil =>
      intro out
      rfl
    | cons e ranked ih =>
      intro out
      unfold relatedHits
      simp only [h.node_same ops ttl, ih]
  unfold related
  simp only [h.neighbors_same ops ttl, hhits]

end reads

include h hix

theorem spread_same (seeds : List Nat) (hub : UInt32) (hops : Nat) (arrival : SortedMap Nat F)
    (frontier : List (Nat × F)) :
    spread A ⟨r, ops, ttl⟩ ix seeds hub hops arrival frontier
      = spread A ⟨r', ops, ttl⟩ ix' seeds hub hops arrival frontier := by
  have hnode : Spread.node A ⟨r, ops, ttl⟩ ix seeds hub
      = Spread.node A ⟨r', ops, ttl⟩ ix' seeds hub := by
    funext st e
    unfold Spread.node
    simp only [h.nodeRec, hix.degree, h.neighbors_same ops ttl]
  induction hops generalizing arrival frontier with
  | zero => rfl
  | succ hops ih =>
    unfold spread
    simp only [hnode, ih]

theorem arrivals_same (seeds : List Nat) (start : List (Nat × F)) (depth : UInt8) :
    arrivals A ⟨r, ops, ttl⟩ ix seeds start depth
      = arrivals A ⟨r', ops, ttl⟩ ix' seeds start depth := by
  have hhub : hubThreshold ⟨r, ops, ttl⟩ ix = hubThreshold ⟨r', ops, ttl⟩ ix' := by
    unfold hubThreshold
    rw [h.nodeCount, show ix.degree = ix'.degree from funext hix.degree]
  unfold arrivals
  simp only [hhub, spread_same A h hix ops ttl, fuse_same A h ops ttl]

/-- A query answers the same, and hands back the same buffers. -/
theorem query_same (sc : Scratch F) (text : String) (opts : QueryOpts) :
    query A u xxh3 ⟨r, ops, ttl⟩ ix sc text opts
      = query A u xxh3 ⟨r', ops, ttl⟩ ix' sc text opts := by
  have hranked : ∀ nDocs terms opts st, rankScored A u ⟨r, ops, ttl⟩ ix nDocs terms opts st
      = rankScored A u ⟨r', ops, ttl⟩ ix' nDocs terms opts st := by
    intro nDocs terms opts st
    unfold rankScored
    simp only [freshHits_same A u h ops ttl, arrivals_same A h hix ops ttl]
  have hcandidates : ∀ terms, candidates A u xxh3 ⟨r, ops, ttl⟩ ix sc terms opts
      = candidates A u xxh3 ⟨r', ops, ttl⟩ ix' sc terms opts := by
    intro terms
    unfold candidates
    simp only [h.nodeCount, hix.lex, hranked]
  unfold query
  simp only [hcandidates, render_same u xxh3 h ops ttl]

end agrees

/-! ## The file -/

namespace Base

section written
variable {xxh3 : Bytes → UInt64} {u : Unicode} {b : Base} {rows : List (List BaseEdge)}
  {recs : List (List Bytes)} {t : Tables} {s : SectionKind → Bytes}
  (hfit : b.Fits xxh3 u) (h : Passes xxh3 u b rows recs t) (hw : Written xxh3 u b rows recs s)
include hfit h hw

omit hfit in
/-- Where the runs of the sections start and end, as counted over the nodes. -/
theorem outRunAt_written {id : Nat} (hid : id < b.nodes.entries.length) :
    outRunAt s id
      = some (some (UInt32.ofNat (b.edgesBefore id), UInt32.ofNat (b.edgesBefore (id + 1)))) := by
  have hidx := hw.edgeIndex (by omega)
  have hlen : (s .edgeIndex).length = (b.nodes.entries.length + 1) * 4 := by
    rw [hidx, Csr.length_close, List.length_map, h.length]
  have hempty : (s .edgeIndex).isEmpty = false := by
    rw [List.isEmpty_eq_false_iff]
    intro hnil
    rw [hnil, List.length_nil] at hlen
    omega
  have hword : ∀ i ≤ b.nodes.entries.length,
      getU32 (s .edgeIndex) (i * 4) = some (UInt32.ofNat (b.edgesBefore i)) := by
    intro i hi
    have hstart : startOf (rows.map fun r => r.map writeEdge) i = startOf rows i := by
      rw [startOf, ← List.map_take, ← List.map_flatten, List.length_map, startOf]
    rw [getU32_of_inBounds (by omega), hidx, Csr.u32At_close (by rw [List.length_map, h.length]; exact hi),
      hstart, startOf_rows h.length h.resolved]
  unfold outRunAt
  rw [hempty, hword (id + 1) hid, hword id (Nat.le_of_lt hid)]
  rfl

theorem searchAgrees_written : (BaseFile.searchReader s).Agrees (b.searchReader xxh3 u) := by
  refine ⟨lexReader_written hfit hw, fun id => ?_⟩
  rcases Nat.lt_or_ge id b.nodes.entries.length with hid | hid
  · obtain ⟨r, hr, hdeg, -⟩ := (nodeAt_written h hw hid).row
    have hrow := getElem_inboundRows h.length h.resolved hid
    have hcount := inDegree_eq b.nodes.entries.length rows hid
    rw [hrow, Option.map_some, List.getElem?_eq_getElem (by rwa [length_inDegrees])] at hcount
    have hin : (slice (s .nodes) nodeLen id).map NodeRec.inDegree
        = b.nodes.entries[id]?.map fun e => UInt32.ofNat (b.inbound e.1).length := by
      rw [hr, Option.map_some, hdeg, List.getElem?_eq_getElem hid, Option.map_some,
        Option.some.inj hcount]
    unfold SearchReader.degree
    show (do
      let run ← outRunAt s id
      let inbound ← (slice (s .nodes) nodeLen id).map NodeRec.inDegree
      some (run.elim 0 (fun e => e.2 - e.1) + inbound)) = _
    rw [outRunAt_written h hw hid, hin]
    rfl
  · -- no record past the nodes, on either side
    have hfile : (BaseFile.searchReader s).degree id = none := by
      unfold SearchReader.degree
      show ((outRunAt s id).bind fun run => ((slice (s .nodes) nodeLen id).map NodeRec.inDegree).bind
        fun inbound => some (run.elim 0 (fun e => e.2 - e.1) + inbound)) = none
      rw [slice_past hw.nodesLength (by decide) hid]
      cases outRunAt s id <;> rfl
    rw [hfile]
    unfold SearchReader.degree searchReader
    simp only [List.getElem?_eq_none hid]
    rfl

end written

end Base

end GraphR
