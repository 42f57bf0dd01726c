import GraphR.Store.Findable

/-! # The two matchers

    A document the base has no record of is matched by a scan of its own tokens
    (`freshHay`, `overlayTier`); after compaction it is matched through the lexicon
    and its postings (`LexReader.docTier`). The scan leaves out segment labels and
    compares substrings of every length; the lexicon indexes segment labels and finds
    no substring shorter than a trigram. The two agree on a document and a term
    exactly where neither difference shows (`SameTiers`). -/

namespace GraphR

open Wal ByteLib LookupLib

/-! ## The best tier of each path -/

/-- The best tier of a key on the overlay path; a key the scan passes over has none. -/
def scanTier (u : Unicode) (s : Snapshot) (k : UrlKey) (term : String) : Option Tier :=
  (freshHay u s k).map fun hay => overlayTier (hay.getD []) term

/-- The best tier of the matches whose postings have node `id`. -/
def LexReader.docTier (r : LexReader) (id : Nat) (found : List (Nat × Tier)) : Option Tier := do
  let tiers ← found.mapM fun e => do
    let ids ← r.postings e.1
    some (if id ∈ ids.getD [] then e.2 else .none)
  some (bestTier tiers)

/-- The tokens the overlay scan reads of a document. -/
def NodeModel.scanned (u : Unicode) (m : NodeModel) : List String :=
  if hasFlag m.flags nflags.tombstone = true ∨ m.url = "" then []
  else ([searchable m.url] ++ m.title.toList ++ m.snippet.toList).flatMap u.terms

/-- Where a scan of some tokens and an index of others agree on a term. -/
structure SameTiers (term : String) (scanned indexed : List String) : Prop where
  /-- A substring match alone counts for a term with a trigram only. -/
  short : 3 ≤ strLen term ∨ (∃ v ∈ scanned, startsWith v term) ∨
    ∀ v ∈ scanned, ¬containsStr v term
  /-- No indexed token matches better than every scanned one. -/
  missed : ∀ v ∈ indexed, indexedTier term v = .none ∨
    ∃ v' ∈ scanned, indexedTier term v ≤ tierOf term v'

/-! ## Tiers of token lists -/

section tiers
variable {term : String}

theorem bestTier_congr {xs ys : List Tier} (h : ∀ t, t ≠ .none → (t ∈ xs ↔ t ∈ ys)) :
    bestTier xs = bestTier ys := by
  have hle : ∀ as bs : List Tier, (∀ t, t ≠ .none → t ∈ as → t ∈ bs) →
      bestTier as ≤ bestTier bs := by
    intro as bs hsub
    rw [bestTier_le_iff]
    intro a ha
    by_cases hnone : a = .none
    · rw [hnone]
      exact Tier.none_le _
    · exact le_bestTier (hsub a hnone ha)
  exact le_antisymm (hle xs ys fun t ht => (h t ht).mp) (hle ys xs fun t ht => (h t ht).mpr)

theorem pfx_le_tierOf {v : String} : .pfx ≤ tierOf term v ↔ startsWith v term := by
  unfold tierOf
  by_cases heq : v = term
  · subst heq
    simp [startsWith_self, Tier.le_iff, Tier.rank]
  · by_cases hpre : startsWith v term
    · simp [heq, hpre]
    · by_cases hin : containsStr v term <;> simp [heq, hpre, hin, Tier.le_iff, Tier.rank]

theorem substr_le_tierOf {v : String} : .substr ≤ tierOf term v ↔ containsStr v term := by
  unfold tierOf
  by_cases heq : v = term
  · subst heq
    simp [containsStr_of_startsWith (startsWith_self v), Tier.le_iff, Tier.rank]
  · by_cases hpre : startsWith v term
    · simp [heq, hpre, containsStr_of_startsWith hpre, Tier.le_iff, Tier.rank]
    · by_cases hin : containsStr v term <;> simp [heq, hpre, hin, Tier.le_iff, Tier.rank]

theorem indexedTier_of_long {v : String} (h : 3 ≤ strLen term) :
    indexedTier term v = tierOf term v := by
  unfold indexedTier
  rw [if_neg]
  rintro ⟨-, hshort⟩
  omega

theorem indexedTier_of_startsWith {v : String} (h : startsWith v term) :
    indexedTier term v = tierOf term v := by
  unfold indexedTier
  rw [if_neg]
  rintro ⟨heq, -⟩
  have hle := pfx_le_tierOf.mpr h
  rw [heq] at hle
  simp [Tier.le_iff, Tier.rank] at hle

/-- The best scanned tier is the best indexed tier exactly where they agree. -/
theorem sameTiers_iff {scanned indexed : List String} (hsub : scanned ⊆ indexed) :
    overlayTier scanned term = bestTier (indexed.map (indexedTier term)) ↔
      SameTiers term scanned indexed := by
  constructor
  · intro heq
    constructor
    · by_contra hnot
      simp only [not_or, not_exists, not_and, not_forall, not_not] at hnot
      obtain ⟨hlen, hpre, v, hv, hin⟩ := hnot
      -- the scan finds a substring, which a short term has no index entry for
      have hge : .substr ≤ overlayTier scanned term :=
        le_trans (substr_le_tierOf.mpr hin) (le_bestTier (List.mem_map_of_mem hv))
      have hle : overlayTier scanned term ≤ .substr := by
        rw [overlayTier, bestTier_le_iff]
        intro a ha
        obtain ⟨w, hw, rfl⟩ := List.mem_map.mp ha
        have hlt : tierOf term w < .pfx := not_le.mp fun h => hpre w hw (pfx_le_tierOf.mp h)
        revert hlt
        cases tierOf term w <;> decide
      rw [le_antisymm hle hge] at heq
      have hmem := @bestTier_mem (indexed.map (indexedTier term)) (by rw [← heq]; simp)
      rw [← heq] at hmem
      obtain ⟨w, -, hw⟩ := List.mem_map.mp hmem
      unfold indexedTier at hw
      by_cases hsub : tierOf term w = .substr ∧ strLen term < 3
      · simp [hsub] at hw
      · rw [if_neg hsub] at hw
        exact hsub ⟨hw, by omega⟩
    · intro v hv
      by_cases hnone : indexedTier term v = .none
      · exact .inl hnone
      · have hle := le_bestTier (List.mem_map_of_mem (f := indexedTier term) hv)
        rw [← heq] at hle
        have hsome : overlayTier scanned term ≠ .none := by
          intro h
          rw [h] at hle
          exact hnone (le_antisymm hle (Tier.none_le _))
        obtain ⟨v', hv', htier⟩ := List.mem_map.mp (bestTier_mem hsome)
        refine .inr ⟨v', hv', ?_⟩
        rw [htier]
        exact hle
  · intro h
    apply le_antisymm
    · rw [overlayTier, bestTier_le_iff]
      intro a ha
      obtain ⟨v, hv, rfl⟩ := List.mem_map.mp ha
      have hindexed : ∀ w ∈ scanned, indexedTier term w = tierOf term w →
          tierOf term w ≤ bestTier (indexed.map (indexedTier term)) := by
        intro w hw heq
        rw [← heq]
        exact le_bestTier (List.mem_map_of_mem (hsub hw))
      rcases h.short with hlen | ⟨w, hw, hpre⟩ | hnone
      · exact hindexed v hv (indexedTier_of_long hlen)
      · by_cases hv' : startsWith v term
        · exact hindexed v hv (indexedTier_of_startsWith hv')
        · -- the token that starts with the term is at least as good
          have hlt : tierOf term v < .pfx := not_le.mp fun hle => hv' (pfx_le_tierOf.mp hle)
          exact le_trans hlt.le (le_trans (pfx_le_tierOf.mpr hpre)
            (hindexed w hw (indexedTier_of_startsWith hpre)))
      · have hlt : tierOf term v < .substr :=
          not_le.mp fun hle => hnone v hv (substr_le_tierOf.mp hle)
        have hzero : tierOf term v = .none := by
          revert hlt
          cases tierOf term v <;> decide
        rw [hzero]
        exact Tier.none_le _
    · rw [bestTier_le_iff]
      intro a ha
      obtain ⟨v, hv, rfl⟩ := List.mem_map.mp ha
      rcases h.missed v hv with hnone | ⟨v', hv', hle⟩
      · rw [hnone]
        exact Tier.none_le _
      · exact le_trans hle (le_bestTier (List.mem_map_of_mem hv'))

end tiers

/-! ## The indexed tier of a node -/

/-- The term and every token of the nodes. -/
def hashed (u : Unicode) (nodes : SortedMap UrlKey NodeModel) (term : String) : List String :=
  term :: nodes.entries.flatMap fun e => e.2.tokens u

section indexed
variable {xxh3 : Bytes → UInt64} {u : Unicode} {b : Base} {term : String}

theorem mem_hashed_of_get {k : UrlKey} {m : NodeModel} {t : String} (hm : b.nodes.get k = some m)
    (ht : t ∈ m.tokens u) : t ∈ hashed u b.nodes term :=
  List.mem_cons_of_mem _ (List.mem_flatMap.mpr ⟨(k, m), SortedMap.mem_entries.mpr hm, ht⟩)

/-- Where no two tokens share a hash, a lexicon record is posted at a node exactly when
    the record's token is one of the node's. -/
theorem posted_iff (hcol : ∀ t ∈ hashed u b.nodes term, ∀ t' ∈ hashed u b.nodes term,
      xxh3 (strBytes t) = xxh3 (strBytes t') → t = t')
    {i id : Nat} {hash : UInt64} {t : String} {ids : List Nat}
    (hi : (b.lexicon xxh3 u).records.entries[i]? = some (hash, t, ids)) {k : UrlKey}
    {m : NodeModel} (hid : b.nodes.entries[id]? = some (k, m)) : id ∈ ids ↔ t ∈ m.tokens u := by
  have hcollected := @collected_collectTokens xxh3 u b.nodes
  have hget : (collectTokens xxh3 u b.nodes).get hash = some (t, ids) :=
    SortedMap.mem_entries.mp (List.mem_of_getElem? hi)
  obtain ⟨hhash, j, hj⟩ := hcollected.label _ _ _ hget
  have hposts := hcollected.posts.mem hash id
  rw [postedIds, hget, Option.map_some, Option.getD_some] at hposts
  rw [hposts]
  constructor
  · intro hmem
    obtain ⟨⟨t', id'⟩, hevent, heq⟩ := List.mem_map.mp hmem
    cases heq
    obtain ⟨k', m', hentry, ht'⟩ := mem_tokenEvents.mp hevent
    rw [hid, Option.some.injEq, Prod.mk.injEq] at hentry
    obtain ⟨rfl, rfl⟩ := hentry
    -- the record's token stands in some node too
    obtain ⟨k₂, m₂, hentry₂, ht⟩ := mem_tokenEvents.mp hj
    have heq := hcol t
      (mem_hashed_of_get (SortedMap.mem_entries.mp (List.mem_of_getElem? hentry₂)) ht) t'
      (mem_hashed_of_get (SortedMap.mem_entries.mp (List.mem_of_getElem? hid)) ht') hhash
    rw [heq]
    exact ht'
  · intro ht
    exact List.mem_map.mpr ⟨(t, id), mem_tokenEvents.mpr ⟨k, m, hid, ht⟩, by rw [hhash]⟩

/-- Each token of a node has a lexicon record. -/
theorem exists_record (hcol : ∀ t ∈ hashed u b.nodes term, ∀ t' ∈ hashed u b.nodes term,
      xxh3 (strBytes t) = xxh3 (strBytes t') → t = t')
    {id : Nat} {k : UrlKey} {m : NodeModel} (hid : b.nodes.entries[id]? = some (k, m))
    {t : String} (ht : t ∈ m.tokens u) :
    ∃ (i : Nat) (hash : UInt64) (ids : List Nat),
      (b.lexicon xxh3 u).records.entries[i]? = some (hash, t, ids) := by
  have hcollected := @collected_collectTokens xxh3 u b.nodes
  have hposted := (hcollected.posts.mem (xxh3 (strBytes t)) id).mpr
    (List.mem_map.mpr ⟨(t, id), mem_tokenEvents.mpr ⟨k, m, hid, ht⟩, rfl⟩)
  cases hget : (collectTokens xxh3 u b.nodes).get (xxh3 (strBytes t)) with
  | none => simp [postedIds, hget] at hposted
  | some v =>
    obtain ⟨label, ids⟩ := v
    obtain ⟨hhash, j, hj⟩ := hcollected.label _ _ _ hget
    obtain ⟨k₂, m₂, hentry₂, hlabel⟩ := mem_tokenEvents.mp hj
    obtain rfl := hcol label
      (mem_hashed_of_get (SortedMap.mem_entries.mp (List.mem_of_getElem? hentry₂)) hlabel) t
      (mem_hashed_of_get (SortedMap.mem_entries.mp (List.mem_of_getElem? hid)) ht) hhash
    obtain ⟨i, hi⟩ := List.mem_iff_getElem?.mp (SortedMap.mem_entries.mpr hget)
    exact ⟨i, _, ids, hi⟩

/-- The best tier over a node's postings is the best indexed tier of its tokens. -/
theorem docTier_lexMatches (hcol : ∀ t ∈ hashed u b.nodes term, ∀ t' ∈ hashed u b.nodes term,
      xxh3 (strBytes t) = xxh3 (strBytes t') → t = t')
    {id : Nat} {k : UrlKey} {m : NodeModel} (hid : b.nodes.entries[id]? = some (k, m)) :
    ∃ found, (b.lexicon xxh3 u).reader.lexMatches term (xxh3 (strBytes term)) = some found ∧
      (b.lexicon xxh3 u).reader.docTier id found
        = some (bestTier ((m.tokens u).map (indexedTier term))) := by
  have hown : ∀ t ∈ Lexicon.tokensOf (b.lexicon xxh3 u).records,
      xxh3 (strBytes t) = xxh3 (strBytes term) → t = term := by
    intro t ht
    obtain ⟨k', m', hm', ht'⟩ := mem_tokensOf_collectTokens ht
    exact hcol t (mem_hashed_of_get hm' ht') term List.mem_cons_self
  obtain ⟨found, hfound, -, hmem⟩ :=
    lexMatches_spec (@collected_collectTokens xxh3 u b.nodes) term hown
  refine ⟨found, hfound, ?_⟩
  set entries := (b.lexicon xxh3 u).records.entries with hentries
  have htoken : ∀ i : Nat, (Lexicon.tokensOf (collectTokens xxh3 u b.nodes))[i]?
      = entries[i]?.map (fun e => e.2.1) := by
    intro i
    rw [hentries, Lexicon.tokensOf, List.getElem?_map]
    rfl
  -- every match has a record to read its postings from
  have hposts : found.mapM (fun e : Nat × Tier => do
        let ids ← (b.lexicon xxh3 u).reader.postings e.1
        some (if id ∈ ids.getD [] then e.2 else Tier.none))
      = some (found.map fun e : Nat × Tier =>
          if id ∈ (entries[e.1]?.map fun r => r.2.2).getD [] then e.2 else Tier.none) := by
    apply FaultLib.mapM_eq_some
    rintro ⟨i, tier⟩ hin
    obtain ⟨t, ht, -⟩ := (hmem i tier).mp hin
    rw [htoken] at ht
    obtain ⟨r, hr, -⟩ := Option.map_eq_some_iff.mp ht
    simp only [Lexicon.reader, ← hentries, hr, Option.map_some, Option.bind_eq_bind,
      Option.bind_some, Option.getD_some]
  unfold LexReader.docTier
  simp only [Option.bind_eq_bind] at hposts ⊢
  rw [hposts, Option.bind_some]
  refine congrArg some (bestTier_congr ?_)
  intro tier htier
  simp only [List.mem_map, Prod.exists]
  constructor
  · rintro ⟨i, tier', hin, heq⟩
    obtain ⟨t, ht, hscan⟩ := (hmem i tier').mp hin
    rw [htoken] at ht
    obtain ⟨⟨hash, t, ids⟩, hi, rfl⟩ := Option.map_eq_some_iff.mp ht
    rw [hi, Option.map_some, Option.getD_some] at heq
    by_cases hpost : id ∈ ids
    · rw [if_pos hpost] at heq
      subst heq
      exact ⟨t, (posted_iff hcol hi hid).mp hpost, (scanMatch_iff.mp hscan).1.symm⟩
    · rw [if_neg hpost] at heq
      exact absurd heq.symm htier
  · rintro ⟨t, ht, rfl⟩
    obtain ⟨i, hash, ids, hi⟩ := exists_record hcol hid ht
    refine ⟨i, _, (hmem i _).mpr ⟨t, ?_, scanMatch_iff.mpr ⟨rfl, htier⟩⟩, ?_⟩
    · rw [htoken, hentries, hi]
      rfl
    · rw [hentries, hi, Option.map_some, Option.getD_some,
        if_pos ((posted_iff hcol hi hid).mpr ht)]

end indexed

/-! ## Agreement -/

/-- The overlay path gives a document the base has no record of the best tier of its
    scanned tokens. -/
theorem scanTier_snapshot {xxh3 : Bytes → UInt64} {u : Unicode} {b : Base} {ops : List Op}
    {ttl : TtlConfig} {k : UrlKey} {m : NodeModel} (term : String) (hbase : b.nodes.get k = none)
    (hm : b.modelAt xxh3 ops ttl k = some m) :
    scanTier u (b.snapshot ops ttl) k term = some (overlayTier (m.scanned u) term) := by
  obtain ⟨n, hn, rfl⟩ := Option.map_eq_some_iff.mp hm
  have hfind : (b.snapshot ops ttl).base.findNode k = some none :=
    congrArg some (Base.idOf_eq_none.mpr hbase)
  unfold scanTier freshHay
  rw [hfind]
  simp only [Option.bind_eq_bind, Option.bind_some]
  rw [Base.node_snapshot, ← Base.nodeAt, hn]
  simp only [Option.bind_some]
  have hscanned : ∀ segs edges attrs, (n.toModel segs edges attrs).scanned u
      = if n.isTombstone = true ∨ n.url = "" then []
        else ([searchable n.url] ++ n.title.toList ++ n.snippet.toList).flatMap u.terms :=
    fun _ _ _ => rfl
  rw [hscanned]
  by_cases hskip : n.isTombstone = true ∨ n.url = ""
  · rw [if_pos hskip, if_pos hskip]
    rfl
  · rw [if_neg hskip, if_neg hskip]
    rfl

/-- What the scan reads is indexed too. -/
theorem NodeModel.scanned_subset (u : Unicode) (m : NodeModel) : m.scanned u ⊆ m.tokens u := by
  intro t ht
  unfold NodeModel.scanned at ht
  by_cases hskip : hasFlag m.flags nflags.tombstone = true ∨ m.url = ""
  · rw [if_pos hskip] at ht
    cases ht
  · rw [if_neg hskip] at ht
    rw [not_or] at hskip
    obtain ⟨text, htext, ht⟩ := List.mem_flatMap.mp ht
    refine List.mem_flatMap.mpr ⟨text, ?_, ht⟩
    unfold NodeModel.texts
    rw [if_neg hskip.2]
    exact List.mem_append_left _ htext

/-- A committed document without a base record keeps its model in a compaction. -/
theorem Written.compacted_model {xxh3 : Bytes → UInt64} {b : Base} {ops : List Op}
    {ttl : TtlConfig} (h : Written b ops) {k : UrlKey} {m : NodeModel}
    (hbase : b.nodes.get k = none) (hm : b.modelAt xxh3 ops ttl k = some m)
    {nodes : SortedMap UrlKey NodeModel}
    (hnodes : (b.snapshot ops ttl).compactNodes xxh3 = some nodes) : nodes.get k = some m := by
  obtain ⟨models, hmodels, hget⟩ := @Base.collectModels_snapshot xxh3 b ops ttl h.closed
  rw [Snapshot.compactNodes, hmodels] at hnodes
  cases hnodes
  rw [get_manageStubs, hget, hm]
  obtain ⟨n, hn, rfl⟩ := Option.map_eq_some_iff.mp hm
  have hstub : n.isStub = false := h.fresh_not_stub hn hbase
  simp only
  rw [if_neg]
  rintro ⟨hflag, -⟩
  have hsame : n.isStub = true := hflag
  rw [hstub] at hsame
  cases hsame

/-- The two matchers agree on a document the base has no record of exactly where
    `SameTiers` holds: for any term, and whatever the overlay is compacted into, the
    best tier of the overlay path equals the best tier of the lookup over the document's
    postings (no two tokens sharing a hash) if and only if no short substring and no
    unscanned token makes the difference. -/
theorem tiers_agree_iff (xxh3 : Bytes → UInt64) (rank : SortedMap UrlKey NodeModel → List UInt16)
    (u : Unicode) (ttl : TtlConfig) (b : Base) (ops : List Op) (h : Reach xxh3 rank b ops)
    (k : UrlKey) (hbase : b.nodes.get k = none) (m : NodeModel)
    (hm : b.modelAt xxh3 ops ttl k = some m) (nodes : SortedMap UrlKey NodeModel)
    (hnodes : (b.snapshot ops ttl).compactNodes xxh3 = some nodes) (ranks : List UInt16)
    (term : String) (hcol : ∀ t ∈ hashed u nodes term, ∀ t' ∈ hashed u nodes term,
      xxh3 (strBytes t) = xxh3 (strBytes t') → t = t') :
    ∃ id found scanned indexed, (Base.mk nodes ranks).idOf k = some id ∧
      ((Base.mk nodes ranks).lexicon xxh3 u).reader.lexMatches term (xxh3 (strBytes term))
        = some found ∧
      scanTier u (b.snapshot ops ttl) k term = some scanned ∧
      ((Base.mk nodes ranks).lexicon xxh3 u).reader.docTier id found = some indexed ∧
      (scanned = indexed ↔ SameTiers term (m.scanned u) (m.tokens u)) := by
  have hget : (Base.mk nodes ranks).nodes.get k = some m :=
    h.written.compacted_model hbase hm hnodes
  obtain ⟨id, hid, hentry⟩ := Base.idOf_of_get hget
  obtain ⟨found, hfound, htier⟩ := @docTier_lexMatches xxh3 u ⟨nodes, ranks⟩ term hcol id k m hentry
  exact ⟨id, found, _, _, hid, hfound, scanTier_snapshot term hbase hm, htier,
    sameTiers_iff (m.scanned_subset u)⟩

/-- A document titled "cat" with a segment labelled "intro". -/
def introduced : List Op :=
  [.upsert ⟨1, 5, 7, 0, "a", some "cat", none, none⟩, .segs 1 [⟨"intro", 0, 4, 1, 0, 0⟩]]

/-- The tiers of the first document of a new store before and after compaction. -/
def bothTiers (ops : List Op) (term : String) : Option (Tier × Tier) := do
  let scanned ← scanTier .ascii (Base.snapshot ⟨SortedMap.empty, []⟩ ops TtlConfig.default) 1 term
  let id ← (firstBase ops).idOf 1
  let found ← ((firstBase ops).lexicon packHash .ascii).reader.lexMatches term
    (packHash (strBytes term))
  let indexed ← ((firstBase ops).lexicon packHash .ascii).reader.docTier id found
  some (scanned, indexed)

/-- A term of a segment label is found after compaction only, a substring of two bytes
    before it only; the hashes of the tokens differ. -/
theorem tiers_differ :
    Reach packHash evenRanks ⟨SortedMap.empty, []⟩ introduced ∧
      bothTiers introduced "intro" = some (.none, .exact) ∧
      bothTiers introduced "at" = some (.substr, .none) ∧
      ∀ term ∈ ["intro", "at"], ∀ t ∈ hashed .ascii (firstBase introduced).nodes term,
        ∀ t' ∈ hashed .ascii (firstBase introduced).nodes term,
          packHash (strBytes t) = packHash (strBytes t') → t = t' := by
  refine ⟨@Reach.commit _ _ _ [] introduced .create (by simp [introduced, StagedOp, hasFlag]), ?_⟩
  decide +kernel

theorem tiers_agree_cat :
    ∃ m, (Base.mk SortedMap.empty []).modelAt packHash introduced TtlConfig.default 1 = some m ∧
      SameTiers "cat" (m.scanned .ascii) (m.tokens .ascii) := by
  have hreach : Reach packHash evenRanks ⟨SortedMap.empty, []⟩ introduced :=
    @Reach.commit _ _ _ [] introduced .create (by simp [introduced, StagedOp, hasFlag])
  obtain ⟨m, hm⟩ : ∃ m, (Base.mk SortedMap.empty []).modelAt packHash introduced
      TtlConfig.default 1 = some m := Option.isSome_iff_exists.mp (by decide +kernel)
  obtain ⟨nodes, hnodes⟩ : ∃ nodes, ((Base.mk SortedMap.empty []).snapshot introduced
      TtlConfig.default).compactNodes packHash = some nodes :=
    Option.isSome_iff_exists.mp (by decide +kernel)
  have hfirst : firstBase introduced = ⟨nodes, evenRanks nodes⟩ := by
    unfold firstBase
    rw [hnodes]
    rfl
  have hcol : ∀ t ∈ hashed .ascii (firstBase introduced).nodes "cat",
      ∀ t' ∈ hashed .ascii (firstBase introduced).nodes "cat",
        packHash (strBytes t) = packHash (strBytes t') → t = t' := by decide +kernel
  rw [hfirst] at hcol
  obtain ⟨id, found, scanned, indexed, hid, hfound, hscanned, hindexed, hagree⟩ :=
    tiers_agree_iff packHash evenRanks .ascii TtlConfig.default _ _ hreach 1 rfl m hm nodes hnodes
      (evenRanks nodes) "cat" hcol
  have hboth : bothTiers introduced "cat" = some (.exact, .exact) := by decide +kernel
  unfold bothTiers at hboth
  simp only [hfirst, hid, hfound, hscanned, hindexed, Option.bind_eq_bind, Option.bind_some,
    Option.some.injEq, Prod.mk.injEq] at hboth
  exact ⟨m, hm, hagree.mp (hboth.1.trans hboth.2.symm)⟩

end GraphR
