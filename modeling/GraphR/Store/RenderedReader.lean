import GraphR.Store.RenderedBase

/-! # Snapshots over a rendered base

    Two readers agree when they find the same ids and read the same at every id a
    lookup finds; snapshots over readers that agree read the same, whatever their
    overlay holds. The reader of a rendered file agrees with the decoded base, its
    lexicon reader is that of the decoded lexicon. -/

namespace GraphR

open Wal ByteLib TableLib BaseFile FaultLib LookupLib

/-! ## Readers that agree -/

/-- The same reads, runs at ids that no lookup finds apart. -/
structure BaseReader.Agrees (r r' : BaseReader) : Prop where
  nodeCount : r.nodeCount = r'.nodeCount
  findNode : r.findNode = r'.findNode
  nodeRec : r.nodeRec = r'.nodeRec
  rankPermille : r.rankPermille = r'.rankPermille
  segs : r.segs = r'.segs
  edges : ∀ k id, r'.findNode k = some (some id) → r.edges id = r'.edges id
  inEdges : ∀ k id, r'.findNode k = some (some id) → r.inEdges id = r'.inEdges id
  attrs : ∀ k id, r'.findNode k = some (some id) → r.attrs id = r'.attrs id

/-- Every read of one snapshot is that of the other. -/
structure Snapshot.Same (xxh3 : Bytes → UInt64) (s s' : Snapshot) : Prop where
  node : ∀ k, s.node k = s'.node k
  forEachLive : s.forEachLive = s'.forEachLive
  due : ∀ now max, s.due now max = s'.due now max
  neighbors : ∀ k, s.neighbors k = s'.neighbors k
  inEdges : ∀ k, s.inEdges k = s'.inEdges k
  segments : ∀ k, s.segments xxh3 k = s'.segments xxh3 k
  attrs : ∀ k, s.attrs k = s'.attrs k
  namedAttrs : ∀ k, s.namedAttrs k = s'.namedAttrs k
  walkAlong : ∀ out inbound follow visit src maxDepth,
    s.walkAlong out inbound follow visit src maxDepth
      = s'.walkAlong out inbound follow visit src maxDepth

namespace BaseReader.Agrees

variable {r r' : BaseReader} (h : r.Agrees r') (ops : List Op) (ttl : TtlConfig)
include h

theorem node_same (k : UrlKey) : (Snapshot.mk r ops ttl).node k = (Snapshot.mk r' ops ttl).node k := by
  unfold Snapshot.node Snapshot.coreNodeRef Snapshot.baseNodeRef
  rw [h.findNode, h.nodeRec, h.rankPermille]
  rfl

theorem forEachLive_same :
    (Snapshot.mk r ops ttl).forEachLive = (Snapshot.mk r' ops ttl).forEachLive := by
  have hbase : (Snapshot.mk r ops ttl).liveBase = (Snapshot.mk r' ops ttl).liveBase := by
    funext id
    unfold Snapshot.liveBase Snapshot.baseNodeRef
    simp only [h.nodeRec, h.rankPermille, h.node_same ops ttl]
    rfl
  have hfresh : (Snapshot.mk r ops ttl).liveFresh = (Snapshot.mk r' ops ttl).liveFresh := by
    funext key p
    unfold Snapshot.liveFresh
    simp only [h.findNode, h.node_same ops ttl]
  unfold Snapshot.forEachLive
  rw [hbase, hfresh, h.nodeCount]
  rfl

theorem nodeIdentity_same :
    (Snapshot.mk r ops ttl).nodeIdentity = (Snapshot.mk r' ops ttl).nodeIdentity := by
  funext id
  unfold Snapshot.nodeIdentity
  rw [h.nodeRec]

theorem neighbors_same (k : UrlKey) :
    (Snapshot.mk r ops ttl).neighbors k = (Snapshot.mk r' ops ttl).neighbors k := by
  have hbase : (Snapshot.mk r ops ttl).baseNeighbors k = (Snapshot.mk r' ops ttl).baseNeighbors k := by
    unfold Snapshot.baseNeighbors
    rw [h.findNode]
    simp only [Option.bind_eq_bind]
    cases hfind : r'.findNode k with
    | none => rfl
    | some o =>
      cases o with
      | none => rfl
      | some id =>
        simp only [Option.bind_some, h.edges k id hfind]
        have href : (Snapshot.mk r ops ttl).baseEdgeRef = (Snapshot.mk r' ops ttl).baseEdgeRef := by
          funext e
          unfold Snapshot.baseEdgeRef
          rw [h.nodeIdentity_same]
        rw [href]
  have hover : (Snapshot.mk r ops ttl).overlayEdgeRef = (Snapshot.mk r' ops ttl).overlayEdgeRef := by
    funext e
    unfold Snapshot.overlayEdgeRef
    rw [h.nodeIdentity_same, h.findNode]
  unfold Snapshot.neighbors
  rw [hbase, hover]
  rfl

theorem inEdges_same (k : UrlKey) :
    (Snapshot.mk r ops ttl).inEdges k = (Snapshot.mk r' ops ttl).inEdges k := by
  have hrec : (Snapshot.mk r ops ttl).baseInEdge = (Snapshot.mk r' ops ttl).baseInEdge := by
    funext e
    unfold Snapshot.baseInEdge
    rw [h.nodeIdentity_same]
    rfl
  unfold Snapshot.inEdges
  rw [h.findNode, hrec]
  simp only [Option.bind_eq_bind]
  cases hfind : r'.findNode k with
  | none => rfl
  | some o =>
    cases o with
    | none => rfl
    | some id =>
      simp only [Option.bind_some, h.inEdges k id hfind]
      rfl

theorem segments_same (xxh3 : Bytes → UInt64) (k : UrlKey) :
    (Snapshot.mk r ops ttl).segments xxh3 k = (Snapshot.mk r' ops ttl).segments xxh3 k := by
  unfold Snapshot.segments Snapshot.baseSegments
  rw [h.findNode, h.segs]
  rfl

theorem attrs_same (k : UrlKey) : (Snapshot.mk r ops ttl).attrs k = (Snapshot.mk r' ops ttl).attrs k := by
  have hbase : (Snapshot.mk r ops ttl).baseAttrs k = (Snapshot.mk r' ops ttl).baseAttrs k := by
    unfold Snapshot.baseAttrs
    rw [h.findNode]
    simp only [Option.bind_eq_bind]
    cases hfind : r'.findNode k with
    | none => rfl
    | some o =>
      cases o with
      | none => rfl
      | some id => exact h.attrs k id hfind
  unfold Snapshot.attrs
  rw [hbase]
  rfl

/-- A walk goes through the same nodes. -/
theorem walkAlong_same (out inbound : Bool) (follow : EdgeType → Bool) (visit : List Hop → Hop → Bool)
    (src : UrlKey) (maxDepth : UInt32) :
    (Snapshot.mk r ops ttl).walkAlong out inbound follow visit src maxDepth
      = (Snapshot.mk r' ops ttl).walkAlong out inbound follow visit src maxDepth := by
  have hexpand : (Snapshot.mk r ops ttl).expand out inbound follow visit
      = (Snapshot.mk r' ops ttl).expand out inbound follow visit := by
    funext depth w node
    unfold Snapshot.expand
    simp only [h.neighbors_same, h.inEdges_same]
  -- level by level, the frontier and the marks are the same
  have hlevels : ∀ left depth w frontier,
      (Snapshot.mk r ops ttl).walkLevels out inbound follow visit left depth w frontier
        = (Snapshot.mk r' ops ttl).walkLevels out inbound follow visit left depth w frontier := by
    intro left
    induction left with
    | zero =>
      intro depth w frontier
      rfl
    | succ left ih =>
      intro depth w frontier
      unfold Snapshot.walkLevels
      rw [hexpand]
      simp only [ih]
  unfold Snapshot.walkAlong
  rw [hlevels]

theorem same (xxh3 : Bytes → UInt64) :
    (Snapshot.mk r ops ttl).Same xxh3 (Snapshot.mk r' ops ttl) where
  node := h.node_same ops ttl
  forEachLive := h.forEachLive_same ops ttl
  due now max := by
    unfold Snapshot.due
    rw [h.forEachLive_same]
    rfl
  neighbors := h.neighbors_same ops ttl
  inEdges := h.inEdges_same ops ttl
  segments := h.segments_same ops ttl xxh3
  attrs := h.attrs_same ops ttl
  namedAttrs k := by
    unfold Snapshot.namedAttrs
    rw [h.attrs_same]
  walkAlong := h.walkAlong_same ops ttl

end BaseReader.Agrees

/-! ## The binary search -/

namespace BaseFile

/-- Over a table of ascending keys the search finds the place of the key. -/
theorem findGo_eq {nodes : Bytes} {keys : List UrlKey} {key : UrlKey}
    (hsorted : keys.Pairwise (· < ·))
    (hread : ∀ i (hi : i < keys.length), getU64 nodes (i * nodeLen) = some keys[i]) {fuel lo hi : Nat}
    (hfuel : hi - lo < fuel) (hhi : hi ≤ keys.length)
    (hbelow : ∀ i (hi : i < keys.length), i < lo → keys[i] < key)
    (habove : ∀ i (hi' : i < keys.length), hi ≤ i → key < keys[i]) :
    findGo nodes key fuel lo hi = some (keys.idxOf? key) := by
  -- the keys of a table ascend with their places
  have hat : ∀ {i j : Nat} (hi : i < keys.length) (hj : j < keys.length), i < j → keys[i] < keys[j] :=
    fun hi hj hij => List.pairwise_iff_getElem.mp hsorted _ _ hi hj hij
  induction fuel generalizing lo hi with
  | zero => omega
  | succ fuel ih =>
    unfold findGo
    by_cases hlt : lo < hi
    · have hmid : (lo + hi) / 2 < keys.length := by omega
      simp only [if_pos hlt, hread _ hmid, Option.bind_eq_bind, Option.bind_some]
      rcases lt_trichotomy keys[(lo + hi) / 2] key with hk | hk | hk
      · -- every key up to the middle is below
        rw [if_pos hk]
        refine ih (by omega) hhi ?_ habove
        intro i hi hlo
        rcases Nat.lt_or_eq_of_le (Nat.le_of_lt_succ hlo) with h | rfl
        · exact lt_trans (hat hi hmid h) hk
        · exact hk
      · rw [if_neg (by rw [hk]; exact lt_irrefl key), if_neg (by rw [hk]; exact lt_irrefl key)]
        refine congrArg some (List.idxOf?_eq_some_iff.mpr ⟨hmid, hk, ?_⟩).symm
        intro j hj
        exact ne_of_lt (hk ▸ hat (lt_trans hj hmid) hmid hj)
      · -- every key from the middle on is above
        rw [if_neg (not_lt_of_gt hk), if_pos hk]
        refine ih (by omega) (by omega) hbelow ?_
        intro i hi hlo
        rcases Nat.lt_or_eq_of_le hlo with h | rfl
        · exact lt_trans hk (hat hmid hi h)
        · exact hk
    · rw [if_neg hlt]
      refine congrArg some (List.idxOf?_eq_none_iff.mpr ?_).symm
      intro hmem
      obtain ⟨i, hi, rfl⟩ := List.getElem_of_mem hmem
      rcases Nat.lt_or_ge i lo with h | h
      · exact lt_irrefl _ (hbelow i hi h)
      · exact lt_irrefl _ (habove i hi (by omega))

end BaseFile

/-! ## The file and the decoded base -/

namespace Base

section written
variable {xxh3 : Bytes → UInt64} {u : Unicode} {b : Base} {rows : List (List BaseEdge)}
  {recs : List (List Bytes)} {t : Tables} {s : SectionKind → Bytes} {hd : Header}

theorem slice_past {table : Bytes} {width i n : Nat} (hlen : table.length = n * width)
    (hwidth : 0 < width) (hi : n ≤ i) : slice table width i = none := by
  refine if_neg ?_
  rw [hlen, Nat.not_le]
  exact Nat.mul_lt_mul_of_pos_right (Nat.lt_succ_of_le hi) hwidth

variable (hfit : b.Fits xxh3 u) (h : Passes xxh3 u b rows recs t)
  (hw : Written xxh3 u b rows recs s)

include h hw in
/-- The node at a place, as the sections have it. -/
theorem nodeAt_written {i : Nat} (hi : i < b.nodes.entries.length) :
    NodePass.NodeAt s i (b.nodes.entries[i], getElem rows i (by rw [h.length]; exact hi),
      getElem (inDegrees b.nodes.entries.length rows) i (by rwa [length_inDegrees])) := by
  rw [← getElem_inputs h.length hi]
  exact hw.nodes i (by rwa [length_inputs h.length])

include h hw in
theorem findNode_written (k : UrlKey) : findNode (s .nodes) k = some (b.idOf k) := by
  have hcount : (s .nodes).length / nodeLen = b.nodes.keys.length := by
    rw [hw.nodesLength, Nat.mul_div_cancel _ (by decide), SortedMap.keys, List.length_map]
  unfold findNode
  rw [hcount]
  refine findGo_eq b.nodes.keys_sorted ?_ (by omega) le_rfl (by omega) (by omega)
  intro i hi
  have hi' : i < b.nodes.entries.length := by rwa [SortedMap.keys, List.length_map] at hi
  obtain ⟨r, hr, -, -⟩ := (nodeAt_written h hw hi').row
  have hrec := (nodeAt_written h hw hi').record
  unfold nodeRec at hrec
  simp only [hr, Option.bind_eq_bind, Option.bind_some, Option.bind_eq_some_iff] at hrec
  obtain ⟨url, -, title, -, snippet, -, etag, -, heq⟩ := hrec
  have hkey : NodeRec.urlKey r = b.nodes.entries[i].1 := congrArg BaseRec.key (Option.some.inj heq)
  have hin : i * nodeLen + nodeLen ≤ (s .nodes).length := by
    rw [hw.nodesLength, ← Nat.succ_mul]
    exact Nat.mul_le_mul_right nodeLen hi'
  have hw72 : nodeLen = 72 := rfl
  rw [getU64_of_inBounds (by omega)]
  have hat : u64At (recordAt (s .nodes) nodeLen i) 0 = u64At (s .nodes) (i * nodeLen) := by
    rw [recordAt, u64At_range (by decide), Nat.add_zero]
  rw [← hat, recordAt_of_slice hr]
  simp only [SortedMap.keys, List.getElem_map]
  exact congrArg some hkey

include hw in
theorem rankPermille_written (id : Nat) : rankPermille s id = some (b.ranks.getD id 0) := by
  have hlen : (s .ranks).length = b.ranks.length * 2 := by
    rw [hw.ranks, length_flatMap_const length_putU16, Nat.mul_comm]
  have hw2 : rankLen = 2 := rfl
  unfold rankPermille
  rw [hw2]
  by_cases hid : id < b.ranks.length
  · rw [if_pos (by omega), getU16_of_inBounds (by omega), List.getD_eq_getElem?_getD,
      List.getElem?_eq_getElem hid, Option.getD_some]
    have hchunk := @range_chunk _ 2 putU16 length_putU16 b.ranks [] id hid 0 2 (by omega)
    rw [Nat.add_zero, Nat.mul_comm, range_zero_self (length_putU16 _), List.append_nil, ← hw.ranks]
      at hchunk
    refine congrArg some ?_
    rw [← u16At_putU16 b.ranks[id]]
    exact u16At_congr (by rw [hchunk, range_zero_self (length_putU16 _)])
  · rw [if_neg (by omega), List.getD_eq_getElem?_getD, List.getElem?_eq_none (Nat.le_of_not_lt hid),
      Option.getD_none]

include hfit hw in
theorem attrs_written {id : Nat} (hid : id < b.nodes.entries.length) :
    runOf (s .attrIndex) (s .attrs) attrLen (attrRec (s .blobs)) id
      = some b.nodes.entries[id].2.attrs := by
  have hid' : id < recs.length := by rw [hw.attrCount]; exact hid
  have hread := hw.attrReads id hid' hid
  rw [hw.attrIndex, hw.attrs]
  split_ifs with hpos
  · rw [runOf_ofRows (fun row hrow r hr => (hw.attrWidth row hrow r hr).1) ?_ _ hid', hread]
    rw [hw.attr_total]
    exact hfit.attrTotal
  · -- no attributes anywhere: the index is absent
    have hzero := List.eq_nil_of_length_eq_zero (Nat.eq_zero_of_not_pos hpos)
    rw [List.flatten_eq_nil_iff.mp hzero _ (List.getElem_mem hid')] at hread
    rw [← Option.some.inj hread]
    rfl

include hfit h hw in
/-- The reader of the sections agrees with the decoded base. -/
theorem agrees_written (hnodes : hd.nodeCount.toNat = b.nodes.entries.length) :
    (BaseFile.reader s hd).Agrees b.reader where
  nodeCount := hnodes
  findNode := funext (findNode_written h hw)
  nodeRec := by
    funext id
    show nodeRec s id = b.nodes.entries[id]?.map fun e => e.2.toRec e.1
    rcases Nat.lt_or_ge id b.nodes.entries.length with hid | hid
    · rw [(nodeAt_written h hw hid).record, List.getElem?_eq_getElem hid]
      rfl
    · rw [List.getElem?_eq_none hid, nodeRec, slice_past hw.nodesLength (by decide) hid]
      rfl
  rankPermille := funext (rankPermille_written hw)
  segs := by
    funext id
    show segRun s id = b.nodes.entries[id]?.map fun e => e.2.segs.map SegModel.toRef
    rcases Nat.lt_or_ge id b.nodes.entries.length with hid | hid
    · rw [(nodeAt_written h hw hid).segs, List.getElem?_eq_getElem hid]
      rfl
    · rw [List.getElem?_eq_none hid, segRun, slice_past hw.nodesLength (by decide) hid]
      rfl
  edges := by
    intro k id hfind
    obtain ⟨hid, -⟩ := getElem_of_idOf (Option.some.inj hfind)
    show runOf (s .edgeIndex) (s .edges) edgeLen edgeRec id
      = b.nodes.entries[id]?.bind fun e => e.2.edges.mapM b.resolve
    have hid' : id < rows.length := by rw [h.length]; exact hid
    rw [hw.edgeIndex (by omega), hw.edges, runOf_edges ?_ (rows_lt hfit h) hid',
      List.getElem?_eq_getElem hid, Option.bind_some, h.resolved id hid hid']
    intro row hrow e he
    exact lt_trans (node_lt_of_row h.length h.resolved row hrow e he) hfit.nodes
  inEdges := by
    intro k id hfind
    obtain ⟨hid, -⟩ := getElem_of_idOf (Option.some.inj hfind)
    show runOf (s .inEdgeIndex) (s .inEdges) edgeLen edgeRec id
      = b.nodes.entries[id]?.map fun e => b.inbound e.1
    have hid' : id < (inboundRows b.nodes.entries.length rows).length := by
      rwa [length_inboundRows]
    have hget := getElem_inboundRows h.length h.resolved hid
    rw [List.getElem?_eq_getElem hid'] at hget
    rw [hw.inEdgeIndex (by omega), hw.inEdges, runOf_edges ?_ ?_ hid', List.getElem?_eq_getElem hid,
      Option.some.inj hget, Option.map_some]
    · intro row hrow e he
      exact lt_trans (node_lt_of_inboundRow h.length h.resolved row hrow e he) hfit.nodes
    · rw [length_flatten_inboundRows h.length h.resolved]
      exact rows_lt hfit h
  attrs := by
    intro k id hfind
    obtain ⟨hid, -⟩ := getElem_of_idOf (Option.some.inj hfind)
    show runOf (s .attrIndex) (s .attrs) attrLen (attrRec (s .blobs)) id
      = b.nodes.entries[id]?.map fun e => e.2.attrs
    rw [attrs_written hfit hw hid, List.getElem?_eq_getElem hid]
    rfl

/-! ### The lexicon -/

theorem length_le_of_ascending {ids : List Nat} {n : Nat} (hasc : ids.Pairwise (· < ·))
    (hids : ∀ i ∈ ids, i < n) : ids.length ≤ n := by
  have hsub := List.subperm_of_subset (hasc.imp ne_of_lt) fun i hi => List.mem_range.mpr (hids i hi)
  simpa using hsub.length_le

theorem trigram_lt (w : Bytes) : trigram w < 2 ^ 32 := by
  have h₀ := (w.getD 0 0).toNat_lt
  have h₁ := (w.getD 1 0).toNat_lt
  have h₂ := (w.getD 2 0).toNat_lt
  unfold trigram
  omega

/-- Only trigrams are keys. -/
theorem trigram_key_lt {e : Nat × List Nat} (he : e ∈ (b.lexicon xxh3 u).trigrams.entries) :
    e.1 < 2 ^ 32 := by
  -- a key of the fold is the key of some event
  have hkeys : ∀ (events : List (Nat × Nat)) g, (events.foldl
      (fun (acc : SortedMap Nat (List Nat)) e => acc.update e.1 fun ids => pushId e.2 (ids.getD []))
        .empty).get g ≠ none → ∃ e ∈ events, e.1 = g := by
    intro events
    induction events using List.reverseRecOn with
    | nil =>
      intro g hg
      exact absurd rfl hg
    | append_singleton events e ih =>
      intro g hg
      rw [List.foldl_append, List.foldl_cons, List.foldl_nil, SortedMap.get_update] at hg
      by_cases hge : g = e.1
      · exact ⟨e, by simp, hge.symm⟩
      · rw [if_neg hge] at hg
        obtain ⟨e', he', heq⟩ := ih g hg
        exact ⟨e', List.mem_append_left _ he', heq⟩
  have hget : (b.lexicon xxh3 u).trigrams.get e.1 = some e.2 := SortedMap.mem_entries.mp he
  obtain ⟨ev, hev, hkey⟩ := hkeys (Lexicon.trigramEvents _) e.1 (by
    intro hnone
    exact absurd (hget.symm.trans hnone) (by simp))
  obtain ⟨⟨tok, i⟩, -, hev⟩ := List.mem_flatMap.mp hev
  obtain ⟨w, -, rfl⟩ := List.mem_map.mp hev
  rw [← hkey]
  exact trigram_lt w

include hw in
theorem postings_written {i : Nat} (hi : i < (b.lexicon xxh3 u).records.entries.length) :
    (slice (s .lexicon) lexLen i).bind (postingsOf s)
      = some (some (b.lexicon xxh3 u).records.entries[i].2.2) := by
  obtain ⟨r, hr, -, -, -, hin, hids⟩ := hw.tokens i hi
  -- the sum of offset and length does not wrap: it is within the section
  have hsum : (LexRec.postingsOff r + LexRec.postingsLen r).toNat
      = (LexRec.postingsOff r).toNat + (LexRec.postingsLen r).toNat := by
    rw [UInt32.toNat_add]
    exact Nat.mod_eq_of_lt (lt_of_le_of_lt hin hw.postings)
  rw [hr, Option.bind_some]
  unfold postingsOf
  simp only [UInt32.le_iff_toNat_le, hsum]
  rw [if_pos ⟨Nat.le_add_right _ _, hin⟩, Nat.add_sub_cancel_left, hids]

include hfit hw in
/-- The lexicon sections read as the decoded lexicon. -/
theorem lexReader_written : lexReader s = (b.lexicon xxh3 u).reader := by
  have hcount : (s .lexicon).length / lexLen = (b.lexicon xxh3 u).records.entries.length := by
    rw [hw.lexLength, Nat.mul_div_cancel _ (by decide)]
  have hpast : ∀ {i : Nat}, (b.lexicon xxh3 u).records.entries.length ≤ i →
      slice (s .lexicon) lexLen i = none := slice_past hw.lexLength (by decide)
  have horder : ∀ i ∈ (b.lexicon xxh3 u).order, i < 2 ^ 32 :=
    fun i hi => lt_trans (order_lt hi) hfit.tokenTotal
  have horderLen : (s .lexOrder).length = (b.lexicon xxh3 u).order.length * 4 := by
    rw [hw.order, length_words, List.length_map]
  have htriCount : (s .trigrams).length / triLen = (b.lexicon xxh3 u).trigrams.entries.length := by
    rw [hw.triLength, Nat.mul_div_cancel _ (by decide)]
  unfold lexReader Lexicon.reader
  rw [LexReader.mk.injEq]
  -- every field of the reader: in range the record written, past the end nothing
  refine ⟨hcount, ?_, ?_, ?_, ?_, ?_, ?_, htriCount, ?_, ?_⟩
  · funext i
    rcases Nat.lt_or_ge i (b.lexicon xxh3 u).records.entries.length with hi | hi
    · obtain ⟨r, hr, hhash, -⟩ := hw.tokens i hi
      rw [hr, List.getElem?_eq_getElem hi, Option.map_some, Option.map_some, hhash]
    · rw [hpast hi, List.getElem?_eq_none hi]
      rfl
  · funext i
    rcases Nat.lt_or_ge i (b.lexicon xxh3 u).records.entries.length with hi | hi
    · obtain ⟨r, hr, -, -, hlabel, -⟩ := hw.tokens i hi
      rw [hr, List.getElem?_eq_getElem hi, Option.bind_eq_bind, Option.bind_some, hlabel]
      rfl
    · rw [hpast hi, List.getElem?_eq_none hi]
      rfl
  · funext i
    rcases Nat.lt_or_ge i (b.lexicon xxh3 u).records.entries.length with hi | hi
    · obtain ⟨r, hr, -, hdf, -⟩ := hw.tokens i hi
      obtain ⟨hasc, hids⟩ := token_ids (List.getElem_mem hi)
      have hlen := lt_of_le_of_lt (length_le_of_ascending hasc hids) hfit.nodes
      rw [hr, List.getElem?_eq_getElem hi, Option.map_some, Option.map_some, hdf, toNat_ofNat_u32 hlen]
    · rw [hpast hi, List.getElem?_eq_none hi]
      rfl
  · funext i
    rcases Nat.lt_or_ge i (b.lexicon xxh3 u).records.entries.length with hi | hi
    · rw [postings_written hw hi, List.getElem?_eq_getElem hi]
      rfl
    · rw [hpast hi, List.getElem?_eq_none hi]
      rfl
  · rw [horderLen]
    exact Nat.mul_div_cancel _ (by decide)
  · funext k
    rcases Nat.lt_or_ge k (b.lexicon xxh3 u).order.length with hk | hk
    · have hword := @u32At_words ((b.lexicon xxh3 u).order.map UInt32.ofNat) k
        (by rwa [List.length_map]) []
      rw [List.append_nil, ← hw.order, List.getElem_map] at hword
      rw [getU32_of_inBounds (by omega), hword, List.getElem?_eq_getElem hk, Option.map_some,
        toNat_ofNat_u32 (horder _ (List.getElem_mem hk))]
    · have hout : getU32 (s .lexOrder) (k * 4) = none := if_neg (by rw [inBounds]; omega)
      rw [hout, List.getElem?_eq_none hk]
      rfl
  · funext i
    rcases Nat.lt_or_ge i (b.lexicon xxh3 u).trigrams.entries.length with hi | hi
    · rw [(hw.trigrams i hi).key, List.getElem?_eq_getElem hi, Option.map_some, Option.map_some,
        toNat_ofNat_u32 (trigram_key_lt (List.getElem_mem hi))]
    · have hw12 : triLen = 12 := rfl
      have hlen := hw.triLength
      have hout : getU32 (s .trigrams) (i * triLen) = none := if_neg (by rw [inBounds, hlen, hw12]; omega)
      rw [hout, List.getElem?_eq_none hi]
      rfl
  · funext i
    unfold triIdsAt
    rcases Nat.lt_or_ge i (b.lexicon xxh3 u).trigrams.entries.length with hi | hi
    · obtain ⟨off, len, hoff, hlen, hin, hids⟩ := (hw.trigrams i hi).ids
      have hsmall : ∀ j ∈ (b.lexicon xxh3 u).trigrams.entries[i].2, j < 2 ^ 32 :=
        fun j hj => lt_trans (trigram_id_lt (List.getElem_mem hi) j hj) hfit.tokenTotal
      rw [hoff, hlen, Option.bind_eq_bind, Option.bind_some, Option.bind_some, if_pos hin, hids,
        map_toNat_ofNat hsmall, List.getElem?_eq_getElem hi]
      rfl
    · have hw12 : triLen = 12 := rfl
      have hlen := hw.triLength
      have hout : getU32 (s .trigrams) (i * triLen + 4) = none :=
        if_neg (by rw [inBounds, hlen, hw12]; omega)
      rw [hout, List.getElem?_eq_none hi]
      rfl

end written

end Base

end GraphR
