import GraphR.Store.RenderedSearch
import GraphR.Store.Findable
import GraphR.Store.Rank

/-! # The rendered file

    A base whose counts have room renders to a file that `BaseDir::parse` accepts,
    under the header it was given. Every snapshot over the file reads what it reads
    over the decoded base, and every query answers the same. -/

namespace GraphR

open Wal ByteLib TableLib BaseFile FaultLib

/-! ## Its length -/

namespace BaseFile

/-- A file of few sections of moderate size is far below `2 ^ 64` bytes. -/
theorem length_sections_lt (xxh3 : Bytes → UInt64) {secs : List (SectionKind × Bytes)} (h : Header)
    (hcount : secs.length ≤ 2 ^ 16) (hsize : ∀ p ∈ secs, p.2.length < 2 ^ 40) :
    ((secs.foldl BaseWriter.addSection (BaseWriter.new h)).finish xxh3).length < 2 ^ 64 := by
  have hbuild : secs.foldl BaseWriter.addSection (BaseWriter.new h)
      = Container.Writer.build format h.flags h.owner (secs.map fun s => ⟨s.1.tag, 0, s.2⟩) := by
    unfold Container.Writer.build
    rw [List.foldl_map]
    rfl
  have howner : h.owner.length ≤ Container.ownerLen := by simp [Header.owner, Container.ownerLen]
  rw [hbuild, Container.Writer.build_eq howner,
    Container.Writer.length_finish (by simp [Header.owner, Container.ownerLen]),
    Container.Writer.total]
  generalize hw : Container.Writer.mk format h.flags _
    ((secs.map fun s => (⟨s.1.tag, 0, s.2⟩ : Container.Section)).filter fun s => !s.bytes.isEmpty)
      = w
  have hsecs : w.sections.Sublist (secs.map fun s => (⟨s.1.tag, 0, s.2⟩ : Container.Section)) := by
    rw [← hw]
    exact List.filter_sublist
  have hlen : w.sections.length ≤ secs.length := by simpa using hsecs.length_le
  -- each section takes its bytes and less than one alignment
  have hsum : (w.sections.map fun s => s.bytes.length + 64).sum ≤ w.sections.length * (2 ^ 40 + 64) := by
    have hle := List.sum_le_card_nsmul (w.sections.map fun s => s.bytes.length + 64) (2 ^ 40 + 64) (by
      intro x hx
      obtain ⟨s, hs, rfl⟩ := List.mem_map.mp hx
      obtain ⟨p, hp, rfl⟩ := List.mem_map.mp (hsecs.subset hs)
      have hlt := hsize p hp
      simp only
      omega)
    rwa [List.length_map, smul_eq_mul] at hle
  have hend := layoutEnd_le (Container.alignUp w.dirEnd) w.sections
  have hpad := alignUp_lt w.dirEnd
  have hdir : w.dirEnd = 128 + w.sections.length * 32 := rfl
  have hmul : w.sections.length * (2 ^ 40 + 64) ≤ 2 ^ 16 * (2 ^ 40 + 64) :=
    Nat.mul_le_mul_right _ (hlen.trans hcount)
  omega

end BaseFile

namespace Base

section file
variable {xxh3 : Bytes → UInt64} {u : Unicode} {b : Base} {rows : List (List BaseEdge)}
  {recs : List (List Bytes)} {t : Tables}

/-- Different trigrams have different keys below `2 ^ 32`. -/
theorem length_trigrams_le : (b.lexicon xxh3 u).trigrams.entries.length ≤ 2 ^ 32 := by
  have hasc : ((b.lexicon xxh3 u).trigrams.entries.map Prod.fst).Pairwise (· < ·) :=
    List.pairwise_map.mpr (b.lexicon xxh3 u).trigrams.sorted
  have hle := @length_le_of_ascending _ (2 ^ 32) hasc (by
    intro g hg
    obtain ⟨e, he, rfl⟩ := List.mem_map.mp hg
    exact trigram_key_lt he)
  rwa [List.length_map] at hle

/-- No section is larger than a table of `2 ^ 32` records of the widest kind. -/
theorem length_fileSection_lt (hfit : b.Fits xxh3 u) (ht : b.tables xxh3 u = some t)
    (h : Passes xxh3 u b rows recs t) (kind : SectionKind) :
    (b.fileSection t kind).length < 2 ^ 40 := by
  have hw := written_fileSection hfit h
  obtain ⟨hlabels, hpostings, hblobs⟩ := hfit.heap ht
  have hnodes := hfit.nodes
  have hw72 : nodeLen = 72 := rfl
  have hw24 : segLen = 24 := rfl
  have hw8 : edgeLen = 8 := rfl
  have hw12 : attrLen = 12 := rfl
  have hlex24 : lexLen = 24 := rfl
  have htri12 : triLen = 12 := rfl
  have hrows := rows_lt hfit h
  have hinbound := length_flatten_inboundRows h.length h.resolved
  have hattrs : recs.flatten.length < 2 ^ 32 := by
    rw [hw.attr_total]
    exact hfit.attrTotal
  -- an index is there for the nodes, or not at all
  have hindex : ∀ {idx : Bytes} {rows : List (List Bytes)}, rows.length = b.nodes.entries.length →
      (0 < b.nodes.entries.length → idx = (Csr.ofRows rows).close) →
      (¬0 < b.nodes.entries.length → idx = []) → idx.length < 2 ^ 40 := by
    intro idx rows hlen hsome hnone
    by_cases hpos : 0 < b.nodes.entries.length
    · rw [hsome hpos, Csr.length_close, hlen]
      omega
    · rw [hnone hpos]
      exact Nat.two_pow_pos 40
  have hnil : ∀ kind, ¬0 < b.nodes.entries.length → b.fileSection t kind = [] := by
    intro kind hpos
    rw [fileSection, if_neg hpos]
    rfl
  -- a heap is there, or not
  have hheap : ∀ {kind : SectionKind} {heap : Bytes}, heap.length < 2 ^ 32 →
      (sectionOf t.filled kind = heap ∨ sectionOf t.filled kind = []) →
      (b.fileSection t kind).length < 2 ^ 40 := by
    intro kind heap hlen hsec
    unfold fileSection
    split_ifs
    · rcases hsec with hsec | hsec <;> rw [hsec]
      · omega
      · exact Nat.two_pow_pos 40
    · exact Nat.two_pow_pos 40
  obtain ⟨⟨-, -, -, -, hlabelSec⟩, -, ⟨-, -, hblobSec⟩, -⟩ := sectionOf_filled t
  cases kind with
  | nodes =>
    rw [hw.nodesLength, hw72]
    omega
  | segs =>
    have hsegs := hfit.segTotal
    rw [hw.segsLength, hw24]
    omega
  | edgeIndex => exact hindex (by rw [List.length_map, h.length]) hw.edgeIndex (hnil _)
  | edges =>
    rw [hw.edges, length_recs, hw8]
    omega
  | labels => exact hheap hlabels (.inl hlabelSec)
  | lexicon =>
    have htokens := hfit.tokenTotal
    rw [hw.lexLength, hlex24]
    omega
  | postings => exact lt_trans hw.postings (by norm_num)
  | ranks =>
    rw [hw.ranks, length_flatMap_const length_putU16, hfit.ranks]
    omega
  | inEdgeIndex =>
    exact hindex (by rw [List.length_map, length_inboundRows]) hw.inEdgeIndex (hnil _)
  | inEdges =>
    rw [hw.inEdges, length_recs, hinbound, hw8]
    omega
  | attrIndex =>
    rw [hw.attrIndex]
    split_ifs
    · rw [Csr.length_close, hw.attrCount]
      omega
    · exact Nat.two_pow_pos 40
  | attrs =>
    rw [hw.length_attrs, hw12]
    omega
  | blobs => exact hheap hblobs (by rw [hblobSec]; split_ifs <;> simp)
  | lexOrder =>
    have htokens := hfit.tokenTotal
    rw [hw.order, length_words, List.length_map, length_order]
    omega
  | trigrams =>
    have htri := @length_trigrams_le xxh3 u b
    rw [hw.triLength, htri12]
    omega
  | triPostings =>
    have htri := hfit.triTotal
    rw [hw.triPostings, length_words, List.length_map]
    omega

/-! ## Its contents -/

/-- The file is accepted under its header, and reads as the base. -/
theorem parse_render (hfit : b.Fits xxh3 u) (generation walAppliedSeq : UInt64) :
    ∃ bytes d, b.render xxh3 u generation walAppliedSeq = some bytes ∧ bytes.length < 2 ^ 64 ∧
      BaseDir.parse xxh3 bytes = .ok d ∧
      (d.header.generation = generation ∧ d.header.walAppliedSeq = walAppliedSeq) ∧
      (BaseFile.reader (d.sec bytes) d.header).Agrees b.reader ∧
      (BaseFile.searchReader (d.sec bytes)).Agrees (b.searchReader xxh3 u) := by
  obtain ⟨t, rows, recs, ht, h⟩ := tables_spec hfit
  have hw := written_fileSection hfit h
  obtain ⟨hnodes, hsegs, hedges, htokens⟩ := header_counts hfit h generation walAppliedSeq
  generalize hsecs : (if 0 < b.nodes.entries.length then t.filled else []) = secs
  have hsec : sectionOf secs = b.fileSection t := by rw [fileSection, hsecs]
  have hnodup : (secs.map Prod.fst).Nodup := by
    rw [← hsecs]
    split_ifs
    · exact nodup_filled t
    · exact List.nodup_nil
  have hcount : secs.length ≤ 2 ^ 16 := by
    rw [← hsecs]
    unfold Tables.filled
    split_ifs <;> simp
  have hsize : ∀ p ∈ secs, p.2.length < 2 ^ 40 := by
    intro p hp
    rw [← sectionOf_of_mem hnodup hp, hsec]
    exact length_fileSection_lt hfit ht h p.1
  have hlen := length_sections_lt xxh3 (b.header xxh3 u t generation walAppliedSeq) hcount hsize
  obtain ⟨dir, hparse, hheader, hdir⟩ := parse_sections hnodup hlen
  -- what the directory finds is what was filled in
  have hread : BaseDir.sec ⟨b.header xxh3 u t generation walAppliedSeq, dir⟩
      ((secs.foldl BaseWriter.addSection
        (BaseWriter.new (b.header xxh3 u t generation walAppliedSeq))).finish xxh3)
      = b.fileSection t := by
    rw [← hsec]
    exact funext hdir
  refine ⟨_, ⟨b.header xxh3 u t generation walAppliedSeq, dir⟩, ?_, hlen, ?_, ⟨rfl, rfl⟩, ?_, ?_⟩
  · unfold render
    rw [ht, Option.bind_eq_bind, Option.bind_some, hsecs]
  · unfold BaseDir.parse
    rw [hparse]
    simp only [bind_ok, Except.ok.injEq]
    refine ⟨dir, rfl, (), ?_, by rw [hheader]⟩
    rw [hheader, hread]
    exact checkCounts_written hfit h hw hnodes hsegs hedges htokens
  · rw [hread]
    exact agrees_written hfit h hw hnodes
  · rw [hread]
    exact searchAgrees_written hfit h hw

end file

end Base

/-! ## The lexicon -/

section lexicon
variable (xxh3 : Bytes → UInt64) (u : Unicode)

/-- A record of a lexicon: a token under its hash, posted at exactly the nodes it stands
    in. -/
def LexReader.Indexes (r : LexReader) (nodes : SortedMap UrlKey NodeModel) (i : Nat) : Prop :=
  ∃ t ids, r.token i = some t ∧ r.tokenHash i = some (xxh3 (strBytes t)) ∧
    r.df i = some ids.length ∧ r.postings i = some (some ids) ∧ ids.Pairwise (· < ·) ∧
    ∀ id, id ∈ ids ↔ ∃ k m, nodes.entries[id]? = some (k, m) ∧ t ∈ m.tokens u

/-- No two tokens of the nodes share a hash. -/
def TokensApart (nodes : SortedMap UrlKey NodeModel) : Prop :=
  ∀ k m k' m' t t', nodes.get k = some m → nodes.get k' = some m' → t ∈ m.tokens u →
    t' ∈ m'.tokens u → xxh3 (strBytes t) = xxh3 (strBytes t') → t = t'

variable {xxh3 u} {b : Base} (hcol : TokensApart xxh3 u b.nodes)
include hcol

theorem indexes_lexicon {i : Nat} (hi : i < (b.lexicon xxh3 u).reader.tokenCount) :
    (b.lexicon xxh3 u).reader.Indexes xxh3 u b.nodes i := by
  have hcollected := @collected_collectTokens xxh3 u b.nodes
  obtain ⟨⟨hash, t, ids⟩, hat⟩ : ∃ e, (collectTokens xxh3 u b.nodes).entries[i]? = some e :=
    ⟨_, List.getElem?_eq_getElem hi⟩
  have hmem := List.mem_of_getElem? hat
  have hget := SortedMap.mem_entries.mp hmem
  obtain ⟨hhash, j, hj⟩ := hcollected.label _ _ _ hget
  obtain ⟨k, m, hkm, ht⟩ := mem_tokenEvents.mp hj
  obtain ⟨hasc, -⟩ := @Base.token_ids xxh3 u b _ hmem
  refine ⟨t, ids, congrArg (Option.map _) hat, ?_, congrArg (Option.map _) hat,
    congrArg (Option.map _) hat, hasc, ?_⟩
  · rw [hhash]
    exact congrArg (Option.map _) hat
  · -- an id is posted under the hash by some token, and only this one has it
    intro id
    have hposted : postedIds (collectTokens xxh3 u b.nodes) hash = ids := by
      rw [postedIds, hget]
      rfl
    rw [← hposted, hcollected.posts.mem, List.mem_map]
    constructor
    · rintro ⟨⟨t', id'⟩, hev, heq⟩
      obtain ⟨k', m', hkm', ht'⟩ := mem_tokenEvents.mp hev
      rw [Prod.mk.injEq] at heq
      obtain ⟨hsame, rfl⟩ := heq
      have hget' := SortedMap.mem_entries.mp (List.mem_of_getElem? hkm')
      have hgetk := SortedMap.mem_entries.mp (List.mem_of_getElem? hkm)
      rw [hcol k m k' m' t t' hgetk hget' ht ht' (hhash.trans hsame.symm)]
      exact ⟨k', m', hkm', ht'⟩
    · rintro ⟨k', m', hkm', ht'⟩
      exact ⟨(t, id), mem_tokenEvents.mpr ⟨k', m', hkm', ht'⟩, by rw [hhash]⟩

theorem token_of_lexicon {k : UrlKey} {m : NodeModel} {t : String} (hkm : b.nodes.get k = some m)
    (ht : t ∈ m.tokens u) : ∃ i < (b.lexicon xxh3 u).reader.tokenCount,
      (b.lexicon xxh3 u).reader.token i = some t := by
  have hcollected := @collected_collectTokens xxh3 u b.nodes
  obtain ⟨id, hid⟩ := List.mem_iff_getElem?.mp (SortedMap.mem_entries.mpr hkm)
  have hposted : id ∈ postedIds (collectTokens xxh3 u b.nodes) (xxh3 (strBytes t)) := by
    rw [hcollected.posts.mem]
    exact List.mem_map.mpr ⟨(t, id), mem_tokenEvents.mpr ⟨k, m, hid, ht⟩, rfl⟩
  cases hget : (collectTokens xxh3 u b.nodes).get (xxh3 (strBytes t)) with
  | none =>
    rw [postedIds, hget] at hposted
    cases hposted
  | some e =>
    -- the hash has a record, and the token under it is this one
    obtain ⟨t', ids⟩ := e
    obtain ⟨hhash, j, hj⟩ := hcollected.label _ _ _ hget
    obtain ⟨k', m', hkm', ht'⟩ := mem_tokenEvents.mp hj
    have hget' := SortedMap.mem_entries.mp (List.mem_of_getElem? hkm')
    obtain rfl := hcol k' m' k m t' t hget' hkm ht' ht hhash
    obtain ⟨i, hi⟩ := List.mem_iff_getElem?.mp (SortedMap.mem_entries.mpr hget)
    exact ⟨i, (List.getElem?_eq_some_iff.mp hi).1, congrArg (Option.map _) hi⟩

end lexicon

/-! ## Compacted stores -/

/-- Two linked documents, the first with a segment and an attribute. -/
def linkedDocs : List Op :=
  [.upsert ⟨1, 5, 7, 0, "a", some "cat", none, none⟩,
    .upsert ⟨2, 5, 7, 0, "b", some "dog", none, none⟩, .edges 1 [⟨2, 0, 1, 3⟩],
    .segs 1 [⟨"top", 0, 4, 9, 1, 0⟩], .attrs 1 [(2, "x")]]

/-- They are compacted with room, and no two of their tokens share a hash. -/
def linkedCheck (nodes : SortedMap UrlKey NodeModel) : Bool :=
  decide (Base.Room packHash .ascii ⟨nodes, exactRanks nodes⟩) &&
  decide ((Base.snapshot ⟨nodes, exactRanks nodes⟩ [] TtlConfig.default).attrs 1 = some [(2, "x")]) &&
  (query F32.rational .ascii packHash (Base.snapshot ⟨nodes, exactRanks nodes⟩ [] TtlConfig.default)
    (Base.searchReader packHash .ascii ⟨nodes, exactRanks nodes⟩) Scratch.empty "dog top"
    ⟨10, 1, 4, 1000⟩).any (fun r => r.1.map Hit.key = [1, 2]) &&
  decide (∀ e ∈ nodes.entries, ∀ e' ∈ nodes.entries, ∀ t ∈ e.2.tokens .ascii,
    ∀ t' ∈ e'.2.tokens .ascii, packHash (strBytes t) = packHash (strBytes t') → t = t') &&
  (nodes.get 2).any fun m => "dog" ∈ m.tokens .ascii

theorem linkedDocs_compacted : ∃ nodes,
    (Base.snapshot ⟨SortedMap.empty, []⟩ linkedDocs TtlConfig.default).compactNodes packHash
      = some nodes ∧ linkedCheck nodes = true :=
  (Option.any_eq_true _ _).mp (by decide +kernel)

theorem linkedDocs_reach : Reach packHash exactRanks ⟨SortedMap.empty, []⟩ ([] ++ linkedDocs) :=
  .commit .create (by simp [linkedDocs, StagedOp, hasFlag, Ascending])

section compacted
variable (xxh3 : Bytes → UInt64) (rank : SortedMap UrlKey NodeModel → List UInt16)
  (hrank : ∀ nodes, (rank nodes).length = nodes.entries.length) (u : Unicode)
  {b : Base} {ops : List Op} (h : Reach xxh3 rank b ops) {ttl : TtlConfig}
  {nodes : SortedMap UrlKey NodeModel}
  (hnodes : (b.snapshot ops ttl).compactNodes xxh3 = some nodes)
  (hroom : Base.Room xxh3 u ⟨nodes, rank nodes⟩) (generation walAppliedSeq : UInt64)

include hrank h hnodes hroom in
/-- What compaction of a written store collects may be rendered. -/
theorem Reach.fits : Base.Fits xxh3 u ⟨nodes, rank nodes⟩ := by
  obtain ⟨hclosed, hascending, -⟩ := h.written.compact hnodes (rank nodes)
  exact ⟨hroom, hclosed, hascending, hrank nodes⟩

include hrank h hnodes hroom

/-- A compaction writes a base that opens and reads as what it collected: for every
    written store whose compaction has room in the fields of the format, rendering goes
    through, `BaseDir::parse` accepts the bytes under the generation and the sequence
    number they were rendered for, and every snapshot over them, whatever is committed
    on top and whatever the configuration, gives for every read and every key what the
    snapshot over the collected nodes gives. -/
theorem compacted_file_reads :
    ∃ bytes d, Base.render xxh3 u ⟨nodes, rank nodes⟩ generation walAppliedSeq = some bytes ∧
      BaseDir.parse xxh3 bytes = .ok d ∧
      (d.header.generation = generation ∧ d.header.walAppliedSeq = walAppliedSeq) ∧
      ∀ (new : List Op) (ttl' : TtlConfig),
        Snapshot.Same xxh3 ⟨BaseFile.reader (d.sec bytes) d.header, new, ttl'⟩
          (Base.snapshot ⟨nodes, rank nodes⟩ new ttl') := by
  obtain ⟨bytes, d, hrender, -, hparse, hheader, hagrees, -⟩ :=
    Base.parse_render (h.fits xxh3 rank hrank u hnodes hroom) generation walAppliedSeq
  exact ⟨bytes, d, hrender, hparse, hheader, fun new ttl' => hagrees.same new ttl' xxh3⟩

omit hrank h hnodes hroom in
theorem compacted_file_reads_linked : ∃ bytes d,
    BaseDir.parse packHash bytes = .ok d ∧ d.header.generation = 2 ∧
    Snapshot.attrs ⟨BaseFile.reader (d.sec bytes) d.header, [], TtlConfig.default⟩ 1
      = some [(2, "x")] := by
  obtain ⟨nodes, hnodes, hcheck⟩ := linkedDocs_compacted
  simp only [linkedCheck, Bool.and_eq_true, decide_eq_true_eq] at hcheck
  obtain ⟨bytes, d, -, hparse, ⟨hgen, -⟩, hsame⟩ := compacted_file_reads packHash exactRanks
    (Rank.length_ofNodes F64.exact) .ascii linkedDocs_reach hnodes hcheck.1.1.1.1 2 5
  exact ⟨bytes, d, hparse, hgen, ((hsame [] TtlConfig.default).attrs 1).trans hcheck.1.1.1.2⟩

/-- And it is searched as what was collected: over the bytes a compaction writes, every
    query and every `related`, whatever is committed on top, the arithmetic, the buffers
    an earlier query left, the text and the options, gives the hits, and leaves the
    buffers, that it does over the collected nodes. -/
theorem compacted_file_answers :
    ∃ bytes d, Base.render xxh3 u ⟨nodes, rank nodes⟩ generation walAppliedSeq = some bytes ∧
      BaseDir.parse xxh3 bytes = .ok d ∧
      ∀ (F : Type) (A : F32 F) (new : List Op) (ttl' : TtlConfig),
        (∀ (sc : Scratch F) (text : String) (opts : QueryOpts),
          query A u xxh3 ⟨BaseFile.reader (d.sec bytes) d.header, new, ttl'⟩
              (BaseFile.searchReader (d.sec bytes)) sc text opts
            = query A u xxh3 (Base.snapshot ⟨nodes, rank nodes⟩ new ttl')
              (Base.searchReader xxh3 u ⟨nodes, rank nodes⟩) sc text opts) ∧
        ∀ (key : UrlKey) (k : Nat),
          related A ⟨BaseFile.reader (d.sec bytes) d.header, new, ttl'⟩ key k
            = related A (Base.snapshot ⟨nodes, rank nodes⟩ new ttl') key k := by
  obtain ⟨bytes, d, hrender, -, hparse, -, hagrees, hsearch⟩ :=
    Base.parse_render (h.fits xxh3 rank hrank u hnodes hroom) generation walAppliedSeq
  refine ⟨bytes, d, hrender, hparse, fun F A new ttl' => ⟨?_, ?_⟩⟩
  · intro sc text opts
    exact query_same A u xxh3 hagrees hsearch new ttl' sc text opts
  · intro key k
    exact related_same A hagrees new ttl' key k

omit hrank h hnodes hroom in
theorem compacted_file_answers_linked : ∃ bytes d hits left,
    BaseDir.parse packHash bytes = .ok d ∧
    query F32.rational .ascii packHash
        ⟨BaseFile.reader (d.sec bytes) d.header, [], TtlConfig.default⟩
        (BaseFile.searchReader (d.sec bytes)) Scratch.empty "dog top" ⟨10, 1, 4, 1000⟩
      = some (hits, left) ∧ hits.map Hit.key = [1, 2] := by
  obtain ⟨nodes, hnodes, hcheck⟩ := linkedDocs_compacted
  simp only [linkedCheck, Bool.and_eq_true, decide_eq_true_eq] at hcheck
  obtain ⟨bytes, d, -, hparse, hsame⟩ := compacted_file_answers packHash exactRanks
    (Rank.length_ofNodes F64.exact) .ascii linkedDocs_reach hnodes hcheck.1.1.1.1 2 5
  obtain ⟨⟨hits, left⟩, hquery, hkeys⟩ := (Option.any_eq_true _ _).mp hcheck.1.1.2
  exact ⟨bytes, d, hits, left, hparse,
    ((hsame ℚ F32.rational [] TtlConfig.default).1 _ _ _).trans hquery, of_decide_eq_true hkeys⟩

/-- The lexicon compaction writes is exact where no two tokens share a hash: each record
    of the file holds one token and decodes to the ascending ids of exactly the nodes
    whose url without scheme, title, snippet or segment labels contain it, and every
    token of every node has its record. -/
theorem compacted_file_lexicon (hcol : TokensApart xxh3 u nodes) :
    ∃ bytes d, Base.render xxh3 u ⟨nodes, rank nodes⟩ generation walAppliedSeq = some bytes ∧
      BaseDir.parse xxh3 bytes = .ok d ∧
      (∀ i < (BaseFile.lexReader (d.sec bytes)).tokenCount,
        (BaseFile.lexReader (d.sec bytes)).Indexes xxh3 u nodes i) ∧
      ∀ k m t, nodes.get k = some m → t ∈ m.tokens u →
        ∃ i < (BaseFile.lexReader (d.sec bytes)).tokenCount,
          (BaseFile.lexReader (d.sec bytes)).token i = some t := by
  obtain ⟨bytes, d, hrender, -, hparse, -, -, hsearch⟩ :=
    Base.parse_render (h.fits xxh3 rank hrank u hnodes hroom) generation walAppliedSeq
  refine ⟨bytes, d, hrender, hparse, ?_⟩
  rw [show BaseFile.lexReader (d.sec bytes) = (Base.lexicon xxh3 u ⟨nodes, rank nodes⟩).reader from
    hsearch.lex]
  exact ⟨fun i hi => @indexes_lexicon xxh3 u ⟨nodes, rank nodes⟩ hcol i hi,
    fun k m t => @token_of_lexicon xxh3 u ⟨nodes, rank nodes⟩ hcol k m t⟩

omit hrank h hnodes hroom in
theorem compacted_file_lexicon_linked : ∃ bytes d, BaseDir.parse packHash bytes = .ok d ∧
    ∃ i < (BaseFile.lexReader (d.sec bytes)).tokenCount,
      (BaseFile.lexReader (d.sec bytes)).token i = some "dog" := by
  obtain ⟨nodes, hnodes, hcheck⟩ := linkedDocs_compacted
  simp only [linkedCheck, Bool.and_eq_true, decide_eq_true_eq] at hcheck
  obtain ⟨bytes, d, -, hparse, -, htoken⟩ := compacted_file_lexicon packHash exactRanks
    (Rank.length_ofNodes F64.exact) .ascii linkedDocs_reach hnodes hcheck.1.1.1.1 2 5 (by
      intro k m k' m' t t' hm hm' ht ht'
      exact hcheck.1.2 _ (SortedMap.mem_entries.mpr hm) _ (SortedMap.mem_entries.mpr hm') t ht t' ht')
  obtain ⟨m, hm, hdog⟩ := (Option.any_eq_true _ _).mp hcheck.2
  exact ⟨bytes, d, hparse, htoken 2 m "dog" hm (of_decide_eq_true hdog)⟩

end compacted

end GraphR
