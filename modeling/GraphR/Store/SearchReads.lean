import GraphR.Store.Vocabulary
import GraphR.Store.Answers
import GraphR.Store.Walk

/-! # Sound lexicons

    A lexicon reader is `Sound` when its reads do not fault on positions below its
    counts and hand out such positions only; a lookup over it never faults
    (`LexReader.Sound.lexMatches`). The lexicon of a decoded base is sound and posts
    nodes of the base only, so a query over it goes through whatever buffers it
    starts from (`Base.query_runs`). -/

namespace GraphR

open Wal ByteLib LookupLib

namespace LexReader

structure Sound (r : LexReader) : Prop where
  tokenHash : ∀ i < r.tokenCount, (r.tokenHash i).isSome
  token : ∀ i < r.tokenCount, (r.token i).isSome
  df : ∀ i < r.tokenCount, (r.df i).isSome
  order : ∀ k < r.orderCount, ∃ i, r.order k = some i ∧ i < r.tokenCount
  triKey : ∀ j < r.triCount, (r.triKey j).isSome
  triIds : ∀ j < r.triCount, ∃ ids, r.triIds j = some ids ∧ ∀ i ∈ ids, i < r.tokenCount

variable {r : LexReader} (h : r.Sound)
include h

theorem Sound.findExact (hash : UInt64) :
    ∃ found, r.findExact hash = some found ∧ ∀ i, found = some i → i < r.tokenCount := by
  obtain ⟨lo, hlo⟩ := Option.isSome_iff_exists.mp (@bound_isSome
    (fun i => (r.tokenHash i).map fun h => decide (h < hash)) r.tokenCount (by
      intro i hi
      rw [Option.isSome_map]
      exact h.tokenHash i hi))
  unfold LexReader.findExact
  rw [hlo]
  simp only [Option.bind_eq_bind, Option.bind_some]
  by_cases hlt : lo < r.tokenCount
  · obtain ⟨hh, hhash⟩ := Option.isSome_iff_exists.mp (h.tokenHash lo hlt)
    rw [if_pos hlt, hhash]
    refine ⟨_, rfl, ?_⟩
    intro i hi
    split_ifs at hi
    cases hi
    exact hlt
  · rw [if_neg hlt]
    exact ⟨none, rfl, fun i hi => by cases hi⟩

theorem Sound.prefixFrom (term : String) (exact : Option Nat) (left k : Nat)
    (hk : k + left = r.orderCount) : ∃ run, r.prefixFrom term exact left k = some run ∧
      ∀ e ∈ run, e.1 < r.tokenCount := by
  induction left generalizing k with
  | zero => exact ⟨[], rfl, by simp⟩
  | succ left ih =>
    obtain ⟨i, hi, hlt⟩ := h.order k (by omega)
    obtain ⟨t, ht⟩ := Option.isSome_iff_exists.mp (h.token i hlt)
    obtain ⟨run, hrun, hrunLt⟩ := ih (k + 1) (by omega)
    rw [LexReader.prefixFrom, hi]
    simp only [Option.bind_eq_bind, Option.bind_some, ht, hrun]
    by_cases hp : startsWith t term
    · rw [if_pos hp]
      refine ⟨_, rfl, fun e he => ?_⟩
      split_ifs at he
      · rcases List.mem_cons.mp he with rfl | he
        · exact hlt
        · exact hrunLt e he
      · exact hrunLt e he
    · rw [if_neg hp]
      exact ⟨[], rfl, by simp⟩

theorem Sound.prefixRun (term : String) (exact : Option Nat) :
    ∃ run, r.prefixRun term exact = some run ∧ ∀ e ∈ run, e.1 < r.tokenCount := by
  obtain ⟨lo, hlo, hle⟩ : ∃ lo, bound (fun k => do
      let i ← r.order k
      let t ← r.token i
      some (decide (strLt t term))) r.orderCount = some lo ∧ lo ≤ r.orderCount := by
    apply bound_le
    intro k hk
    obtain ⟨i, hi, hlt⟩ := h.order k hk
    obtain ⟨t, ht⟩ := Option.isSome_iff_exists.mp (h.token i hlt)
    simp [hi, ht]
  unfold LexReader.prefixRun
  rw [hlo]
  simp only [Option.bind_eq_bind, Option.bind_some]
  exact h.prefixFrom term exact _ _ (by omega)

theorem Sound.lookup (g : Nat) :
    ∃ ids, r.lookup g = some ids ∧ ∀ i ∈ ids, i < r.tokenCount := by
  obtain ⟨lo, hlo⟩ := Option.isSome_iff_exists.mp (@bound_isSome
    (fun i => (r.triKey i).map fun k => decide (k < g)) r.triCount (by
      intro i hi
      rw [Option.isSome_map]
      exact h.triKey i hi))
  unfold LexReader.lookup
  rw [hlo]
  simp only [Option.bind_eq_bind, Option.bind_some]
  by_cases hlt : lo < r.triCount
  · obtain ⟨k, hk⟩ := Option.isSome_iff_exists.mp (h.triKey lo hlt)
    obtain ⟨ids, hids, hidsLt⟩ := h.triIds lo hlt
    rw [if_pos hlt, hk]
    simp only [Option.bind_some]
    by_cases hkg : k = g
    · exact ⟨ids, by rw [if_pos hkg, hids], hidsLt⟩
    · exact ⟨[], by rw [if_neg hkg], by simp⟩
  · exact ⟨[], by rw [if_neg hlt], by simp⟩

theorem Sound.rarest (ws : List Bytes) (best : Option (List Nat))
    (hbest : ∀ b, best = some b → ∀ i ∈ b, i < r.tokenCount) :
    ∃ ids, r.rarest ws best = some ids ∧ ∀ i ∈ ids, i < r.tokenCount := by
  induction ws generalizing best with
  | nil =>
    refine ⟨best.getD [], rfl, ?_⟩
    cases best with
    | none => simp
    | some b => exact hbest b rfl
  | cons w ws ih =>
    obtain ⟨ids, hids, hidsLt⟩ := h.lookup (trigram w)
    rw [LexReader.rarest, hids]
    simp only [Option.bind_eq_bind, Option.bind_some]
    by_cases hempty : ids.isEmpty = true
    · exact ⟨[], by rw [if_pos hempty], by simp⟩
    · rw [if_neg hempty]
      apply ih
      intro b hb
      split_ifs at hb
      · cases hb
        exact hidsLt
      · exact hbest b hb

theorem Sound.substrMatches (term : String) :
    ∃ sub, r.substrMatches term = some sub ∧ ∀ e ∈ sub, e.1 < r.tokenCount := by
  unfold LexReader.substrMatches
  by_cases hlen : strLen term < 3
  · exact ⟨[], by rw [if_pos hlen], by simp⟩
  · obtain ⟨ids, hids, hidsLt⟩ := h.rarest (windows 3 (strBytes term)) none (by simp)
    have htoks : (ids.mapM fun i => do
        let t ← r.token i
        some (i, t)).isSome := by
      apply FaultLib.mapM_isSome
      intro i hi
      obtain ⟨t, ht⟩ := Option.isSome_iff_exists.mp (h.token i (hidsLt i hi))
      simp [ht]
    obtain ⟨toks, htoks⟩ := Option.isSome_iff_exists.mp htoks
    rw [if_neg hlen, hids]
    unfold LexReader.substrRun
    simp only [Option.bind_eq_bind, Option.bind_some] at htoks ⊢
    rw [htoks]
    refine ⟨_, rfl, fun e he => ?_⟩
    obtain ⟨e', he', rfl⟩ := List.mem_map.mp he
    obtain ⟨i, hi, hstep⟩ := (FaultLib.mem_of_mapM htoks).mp (List.mem_of_mem_filter he')
    obtain ⟨t, -, hstep⟩ := Option.bind_eq_some_iff.mp hstep
    cases hstep
    exact hidsLt i hi

/-- A lookup over a sound lexicon does not fault, and emits positions of it. -/
theorem Sound.lexMatches (term : String) (hash : UInt64) :
    ∃ out, r.lexMatches term hash = some out ∧ ∀ e ∈ out, e.1 < r.tokenCount := by
  obtain ⟨found, hfound, hfoundLt⟩ := h.findExact hash
  obtain ⟨run, hrun, hrunLt⟩ := h.prefixRun term found
  obtain ⟨sub, hsub, hsubLt⟩ := h.substrMatches term
  unfold LexReader.lexMatches
  simp only [hfound, hrun, hsub, Option.bind_eq_bind, Option.bind_some]
  refine ⟨_, rfl, fun e he => ?_⟩
  rcases List.mem_append.mp he with he | he
  · rcases List.mem_append.mp he with he | he
    · obtain ⟨i, hi, rfl⟩ := List.mem_map.mp he
      exact hfoundLt i (Option.mem_toList.mp hi)
    · exact hrunLt e he
  · exact hsubLt e he

end LexReader

/-! ## A decoded lexicon -/

theorem Lexicon.tokenCount_reader (records : SortedMap UInt64 (String × List Nat)) :
    (Lexicon.index records).reader.tokenCount = (tokensOf records).length := by
  rw [length_tokensOf]
  rfl

theorem Lexicon.sound (records : SortedMap UInt64 (String × List Nat)) :
    (Lexicon.index records).reader.Sound := by
  have hentry : ∀ i < records.entries.length, (records.entries[i]?).isSome := by
    intro i hi
    rw [List.getElem?_eq_getElem hi]
    rfl
  refine ⟨?_, ?_, ?_, ?_, ?_, ?_⟩
  · intro i hi
    simpa [Lexicon.reader, Lexicon.index] using hentry i hi
  · intro i hi
    simpa [Lexicon.reader, Lexicon.index] using hentry i hi
  · intro i hi
    simpa [Lexicon.reader, Lexicon.index] using hentry i hi
  · intro k hk
    have hk' : k < (orderOf (tokensOf records)).length := hk
    refine ⟨_, List.getElem?_eq_getElem hk', ?_⟩
    have hmem := (perm_orderOf (tokensOf records)).mem_iff.mp (List.getElem_mem hk')
    rw [tokenCount_reader]
    exact List.mem_range.mp hmem
  · intro j hj
    have hj' : j < (trigramsOf (tokensOf records)).entries.length := hj
    simp [Lexicon.reader, Lexicon.index, hj']
  · intro j hj
    have hj' : j < (trigramsOf (tokensOf records)).entries.length := hj
    refine ⟨(trigramsOf (tokensOf records)).entries[j].2, ?_, ?_⟩
    · simp [Lexicon.reader, Lexicon.index, hj']
    · intro i hi
      -- the run of a record is what is posted under its key
      have hget : (trigramsOf (tokensOf records)).get (trigramsOf (tokensOf records)).entries[j].1
          = some (trigramsOf (tokensOf records)).entries[j].2 :=
        SortedMap.mem_entries.mp (List.getElem_mem hj')
      rw [tokenCount_reader]
      apply @posted_lt (tokensOf records) i (trigramsOf (tokensOf records)).entries[j].1
      rw [posted, hget]
      exact hi

namespace Base

variable (xxh3 : Bytes → UInt64) (u : Unicode) (b : Base)

/-- The edges of the nodes before position `id`. -/
def edgesBefore (id : Nat) : Nat := ((b.nodes.entries.take id).map fun e => e.2.edges.length).sum

/-- The search reads of a decoded base. -/
def searchReader : SearchReader :=
  { (b.lexicon xxh3 u).reader with
    outRun := fun id =>
      some (some (UInt32.ofNat (b.edgesBefore id), UInt32.ofNat (b.edgesBefore (id + 1))))
    inDegree := fun id => b.nodes.entries[id]?.map fun e => UInt32.ofNat (b.inbound e.1).length }

variable {xxh3 u b}

theorem degreesRead_searchReader : (b.searchReader xxh3 u).DegreesRead b.nodes.entries.length := by
  intro id hid
  simp [SearchReader.degree, searchReader, hid]

/-- The node ids of a token, and the nodes it stands in. -/
theorem postings_searchReader {i : Nat} {ids : List Nat}
    (h : (b.searchReader xxh3 u).postings i = some (some ids)) : ∃ label,
      (b.searchReader xxh3 u).token i = some label ∧
      ∀ id, id ∈ ids ↔ ∃ t, (t, id) ∈ tokenEvents u b.nodes ∧
        xxh3 (strBytes t) = xxh3 (strBytes label) := by
  have hcollected := @collected_collectTokens xxh3 u b.nodes
  have h' : (collectTokens xxh3 u b.nodes).entries[i]?.map (fun e => some e.2.2)
      = some (some ids) := h
  obtain ⟨⟨hash, label, ids'⟩, hentry, heq⟩ := Option.map_eq_some_iff.mp h'
  obtain rfl := Option.some.inj heq
  have hget := SortedMap.mem_entries.mp (List.mem_of_getElem? hentry)
  refine ⟨label, ?_, fun id => ?_⟩
  · show (collectTokens xxh3 u b.nodes).entries[i]?.map (fun e => e.2.1) = some label
    rw [hentry]
    rfl
  · have hmem := hcollected.posts.mem hash id
    rw [postedIds, hget, Option.map_some, Option.getD_some] at hmem
    rw [hmem, List.mem_map, (hcollected.label _ _ _ hget).1]
    constructor
    · rintro ⟨⟨t, id'⟩, ht, heq⟩
      cases heq
      exact ⟨t, ht, rfl⟩
    · rintro ⟨t, ht, heq⟩
      exact ⟨(t, id), ht, by rw [heq]⟩

/-- Every term reads without fault over a decoded base, and posts its nodes only. -/
theorem termReads_searchReader (cap : Nat) (term : String) :
    (b.searchReader xxh3 u).TermReads xxh3 b.nodes.entries.length cap term := by
  have hsound : (b.searchReader xxh3 u).toLexReader.Sound := Lexicon.sound _
  obtain ⟨out, hout, hlt⟩ := hsound.lexMatches term (xxh3 (strBytes term))
  refine ⟨out, hout, fun e he => ?_, fun e he => hsound.df e.1 (hlt e he)⟩
  have hlen : e.1 < (collectTokens xxh3 u b.nodes).entries.length := hlt e he
  have hentry := List.getElem?_eq_getElem hlen
  have hpost : (b.searchReader xxh3 u).postings e.1
      = some (some (collectTokens xxh3 u b.nodes).entries[e.1].2.2) := by
    show (collectTokens xxh3 u b.nodes).entries[e.1]?.map (fun e => some e.2.2) = _
    rw [hentry]
    rfl
  refine ⟨_, hpost, ?_⟩
  rintro ids heq id hid
  cases heq
  obtain ⟨label, -, hids⟩ := postings_searchReader hpost
  obtain ⟨t, ht, -⟩ := (hids id).mp hid
  obtain ⟨k, m, hget, -⟩ := mem_tokenEvents.mp ht
  exact .inl (List.getElem?_eq_some_iff.mp hget).1

/-- A token of a node finds, by its hash, postings that name the node. -/
theorem exists_posting {id : Nat} {k : UrlKey} {m : NodeModel} {t : String}
    (hid : b.nodes.entries[id]? = some (k, m)) (ht : t ∈ m.tokens u) {out : List (Nat × Tier)}
    (hout : (b.searchReader xxh3 u).lexMatches t (xxh3 (strBytes t)) = some out) :
    ∃ e ∈ out, ∃ ids, (b.searchReader xxh3 u).postings e.1 = some (some ids) ∧ id ∈ ids := by
  have hcollected := @collected_collectTokens xxh3 u b.nodes
  have hposted := (hcollected.posts.mem (xxh3 (strBytes t)) id).mpr
    (List.mem_map.mpr ⟨(t, id), mem_tokenEvents.mpr ⟨k, m, hid, ht⟩, rfl⟩)
  obtain ⟨found, hfound, hkey⟩ := @Lexicon.findExact_spec (collectTokens xxh3 u b.nodes)
    (xxh3 (strBytes t))
  cases hget : (collectTokens xxh3 u b.nodes).get (xxh3 (strBytes t)) with
  | none => simp [postedIds, hget] at hposted
  | some v =>
    obtain ⟨label, ids⟩ := v
    rw [postedIds, hget, Option.map_some, Option.getD_some] at hposted
    obtain ⟨i, hi⟩ := List.mem_iff_getElem?.mp (SortedMap.mem_entries.mpr hget)
    have hfoundi : found = some i := (hkey i).mpr (by
      rw [SortedMap.keys, List.getElem?_map, hi]
      rfl)
    -- the exact match comes first
    unfold LexReader.lexMatches at hout
    have hexact : (b.searchReader xxh3 u).findExact (xxh3 (strBytes t)) = some found := hfound
    rw [hexact, hfoundi] at hout
    simp only [Option.bind_eq_bind, Option.bind_some] at hout
    obtain ⟨run, -, hout⟩ := Option.bind_eq_some_iff.mp hout
    obtain ⟨sub, -, hout⟩ := Option.bind_eq_some_iff.mp hout
    cases hout
    refine ⟨(i, .exact), by simp, ids, ?_, hposted⟩
    show (collectTokens xxh3 u b.nodes).entries[i]?.map (fun e => some e.2.2) = some (some ids)
    rw [hi]
    rfl

end Base

/-! ## Queries over a decoded base -/

section runs
variable {F : Type} {A : F32 F} {u : Unicode} {xxh3 : Bytes → UInt64} {b : Base} {ops : List Op}
  {ttl : TtlConfig}

/-- A query over a decoded base goes through, from zero buffers of any length. -/
theorem Base.candidates_run (hb : b.Closed) (terms : List String) (opts : QueryOpts) (len : Nat) :
    ∃ ranked, candidates A u xxh3 (b.snapshot ops ttl) (b.searchReader xxh3 u) (.zeros A len) terms
      opts = some (ranked, .zeros A (max len b.nodes.entries.length)) := by
  obtain ⟨ranked, hranked, -⟩ := @candidates_agree F A u xxh3 (b.snapshot ops ttl)
    (b.searchReader xxh3 u) (Base.reader_sound hb) degreesRead_searchReader terms
    (max len b.nodes.entries.length) (fun t _ => termReads_searchReader _ t) (le_max_right _ _)
    len len (le_max_left _ _) (le_max_left _ _) opts
  exact ⟨ranked, hranked⟩

end runs

end GraphR
