import GraphR.Store.Findable
import GraphR.Store.SearchImage
import GraphR.Store.SizedImage

/-! # Queries over accepted images

    The scoring buffers belong to the thread: a query takes them as the last one left
    them (`ScratchLeft`), whatever store that one was asked of. A posted node id is
    bounded by these buffers only. Over an accepted image a query goes through from
    every buffer an earlier query can leave, with the same hits as from empty ones,
    exactly when the postings its terms match name nodes of the base
    (`query_safe_iff`). -/

namespace GraphR

open Wal ByteLib BaseFile LookupLib

/-! ## The buffers of a thread -/

section buffers
variable {F : Type} (A : F32 F) (u : Unicode) (xxh3 : Bytes → UInt64)

/-- What a thread's buffers hold after a query, whether it returned or not: they are
    taken out at its start, and put back, reset, before the expansion. -/
def scratchAfter (s : Snapshot) (ix : SearchReader) (sc : Scratch F) (text : String)
    (opts : QueryOpts) : Scratch F :=
  let terms := u.dedupTerms text
  if terms = [] then sc
  else
    let back := do
      let nDocs := A.nat (max s.base.nodeCount 1)
      let st ← scoreTerms A xxh3 ix.toLexReader nDocs terms (sc.grow A s.base.nodeCount)
      let _ ← leaders A st.scratch.scores terms.length opts.maxSeeds st.scored
      let _ ← freshHits A u s nDocs terms
      let _ ← hubThreshold s ix
      let scores ← resetScores A st.scratch.scores st.scored
      some (⟨scores, st.scratch.tierOf⟩ : Scratch F)
    back.getD .empty

/-- A snapshot of an accepted image. -/
def BaseFile.BaseDir.snapshot (d : BaseDir) (bytes : Bytes) (ops : List Op) (ttl : TtlConfig) :
    Snapshot :=
  ⟨reader (d.sec bytes) d.header, ops, ttl⟩

/-- The buffers a thread can hold: none yet, or what queries of accepted images left,
    one after the other. -/
inductive ScratchLeft : Scratch F → Prop where
  | start : ScratchLeft .empty
  | asked {sc : Scratch F} {bytes : Bytes} {d : BaseDir} (h : ScratchLeft sc)
      (hd : BaseDir.parse xxh3 bytes = .ok d) (ops : List Op) (ttl : TtlConfig) (text : String)
      (opts : QueryOpts) : ScratchLeft (scratchAfter A u xxh3 (d.snapshot bytes ops ttl)
        (searchReader (d.sec bytes)) sc text opts)

variable {A u xxh3} {s : Snapshot} {ix : SearchReader} {sc : Scratch F} {text : String}
  {opts : QueryOpts}

/-- A query of some term ranks and renders. -/
theorem query_of_terms (hterms : u.dedupTerms text ≠ []) :
    query A u xxh3 s ix sc text opts
      = (candidates A u xxh3 s ix sc (u.dedupTerms text) opts).bind fun ranked =>
          (render u xxh3 s (u.dedupTerms text) opts ranked.1 0 []).map fun hits =>
            (hits, ranked.2) := by
  unfold query
  simp only [hterms, if_false]
  cases candidates A u xxh3 s ix sc (u.dedupTerms text) opts with
  | none => rfl
  | some ranked =>
    simp only [Option.bind_eq_bind, Option.bind_some]
    cases render u xxh3 s (u.dedupTerms text) opts ranked.1 0 [] <;> rfl

theorem query_of_no_terms (hterms : u.dedupTerms text = []) :
    query A u xxh3 s ix sc text opts = some ([], sc) := by
  unfold query
  simp only [hterms, if_true]

/-- A query that returns leaves what it hands back. -/
theorem scratchAfter_of_query {hits : List (Hit F)} {left : Scratch F}
    (h : query A u xxh3 s ix sc text opts = some (hits, left)) :
    scratchAfter A u xxh3 s ix sc text opts = left := by
  unfold scratchAfter
  by_cases hterms : u.dedupTerms text = []
  · rw [query_of_no_terms hterms] at h
    cases h
    simp only [hterms, if_true]
  · rw [query_of_terms hterms] at h
    obtain ⟨ranked, hranked, h⟩ := Option.bind_eq_some_iff.mp h
    obtain ⟨hits', -, h⟩ := Option.map_eq_some_iff.mp h
    cases h
    obtain ⟨st, hst, hrank, scores, hscores, hleft⟩ := candidates_eq_some hranked
    obtain ⟨lead, fresh, found, hlead, hfresh, hfound, -⟩ := mem_rankScored hrank
    unfold arrivals at hfound
    obtain ⟨hub, hhub, -⟩ := Option.bind_eq_some_iff.mp hfound
    simp only [hterms, if_false, hst, hlead, hfresh, hhub, hscores, Option.bind_eq_bind,
      Option.bind_some, Option.getD_some]
    exact hleft.symm

/-- Zero buffers come back as zero buffers, no longer than the longer of what they
    were and the base. -/
theorem scratchAfter_zeros (s : Snapshot) (ix : SearchReader) (text : String) (opts : QueryOpts)
    (len : Nat) : ∃ len' ≤ max len s.base.nodeCount,
      scratchAfter A u xxh3 s ix (.zeros A len) text opts = .zeros A len' := by
  unfold scratchAfter
  by_cases hterms : u.dedupTerms text = []
  · simp only [hterms, if_true]
    exact ⟨len, le_max_left _ _, rfl⟩
  · simp only [hterms, if_false, grow_zeros]
    cases hst : scoreTerms A xxh3 ix.toLexReader (A.nat (max s.base.nodeCount 1))
        (u.dedupTerms text) (.zeros A (max len s.base.nodeCount)) with
    | none => exact ⟨0, Nat.zero_le _, rfl⟩
    | some st =>
      obtain ⟨hlisted, -⟩ := (listed_zeros _).terms hst
      rw [Option.bind_eq_bind, Option.bind_some]
      -- where anything faults before the buffers are back, they stay out
      cases hback : leaders A st.scratch.scores (u.dedupTerms text).length opts.maxSeeds st.scored with
      | none => exact ⟨0, Nat.zero_le _, rfl⟩
      | some lead =>
        cases hfresh : freshHits A u s (A.nat (max s.base.nodeCount 1)) (u.dedupTerms text) with
        | none => exact ⟨0, Nat.zero_le _, rfl⟩
        | some fresh =>
          cases hhub : hubThreshold s ix with
          | none => exact ⟨0, Nat.zero_le _, rfl⟩
          | some hub =>
            refine ⟨_, le_rfl, ?_⟩
            simp only [Option.bind_eq_bind, Option.bind_some, hlisted.reset, Option.getD_some,
              hlisted.tierOf]
            rfl

/-- Every buffer left is zero, and no longer than a node count can be. -/
theorem ScratchLeft.zeros (h : ScratchLeft A u xxh3 sc) :
    ∃ len < 2 ^ 32, sc = .zeros A len := by
  induction h with
  | start => exact ⟨0, by decide, rfl⟩
  | @asked sc bytes d h hd ops ttl text opts ih =>
    obtain ⟨len, hlen, rfl⟩ := ih
    obtain ⟨len', hle, hleft⟩ := @scratchAfter_zeros F A u xxh3 (d.snapshot bytes ops ttl)
      (searchReader (d.sec bytes)) text opts len
    have hcount : (d.snapshot bytes ops ttl).base.nodeCount < 2 ^ 32 := d.header.nodeCount.toNat_lt
    exact ⟨len', by omega, hleft⟩

end buffers

/-! ## Accepted images -/

section image
variable {F : Type} {A : F32 F} {u : Unicode} {xxh3 : Bytes → UInt64} {bytes : Bytes} {d : BaseDir}
  {ops : List Op} {ttl : TtlConfig} {text : String}

/-- What an accepted image promises a query. -/
structure Accepted (s : SectionKind → Bytes) (h : Header) : Prop where
  base : (reader s h).Sound
  lexicon : (searchReader s).toLexReader.Sound
  degrees : (searchReader s).DegreesRead h.nodeCount.toNat
  /-- Only ids below the node count have a record. -/
  records : ∀ id r, nodeRec s id = some r → id < h.nodeCount.toNat
  tokens : (searchReader s).tokenCount = h.tokenCount.toNat

theorem accepted_of_parse (h : BaseDir.parse xxh3 bytes = .ok d) :
    Accepted (d.sec bytes) d.header := by
  have hok := checkCounts_of_parse h
  have hbase := reader_sound hok
  unfold checkCounts expect at hok
  simp only [FaultLib.bind_ok, FaultLib.check_ok, FaultLib.onlyIf_ok] at hok
  obtain ⟨_, hnodes, _, -, _, -, _, hlex, _, hidx, _, -, _, -, _, -, _, -, _, htokens, -⟩ := hok
  refine ⟨hbase, lexReader_sound hlex htokens, searchReader_degrees hnodes ?_, ?_, ?_⟩
  · intro hpos
    obtain ⟨_, hlen, -⟩ := hidx hpos
    exact hlen
  · intro id r hr
    unfold nodeRec at hr
    obtain ⟨rec', hslice, -⟩ := Option.bind_eq_some_iff.mp hr
    unfold slice at hslice
    by_cases hin : (id + 1) * nodeLen ≤ (d.sec bytes .nodes).length
    · rw [hnodes] at hin
      exact Nat.lt_of_succ_le (Nat.le_of_mul_le_mul_right hin (by decide))
    · rw [if_neg hin] at hslice
      cases hslice
  · show (d.sec bytes .lexicon).length / lexLen = _
    rw [hlex]
    exact Nat.mul_div_cancel _ (by decide)

/-- Longest buffer there can be: a node count is a `u32`. -/
def bufferCap : Nat := 2 ^ 32 - 1

/-- A query returns, from zero buffers of any length, where the postings its terms
    match are those of nodes. -/
theorem query_returns (h : BaseDir.parse xxh3 bytes = .ok d) (hterms : u.dedupTerms text ≠ [])
    (hposts : ∀ t ∈ u.dedupTerms text, ∃ found,
      (searchReader (d.sec bytes)).lexMatches t (xxh3 (strBytes t)) = some found ∧
        (searchReader (d.sec bytes)).PostsBelow d.header.nodeCount.toNat bufferCap found)
    {len : Nat} (hlen : len ≤ bufferCap) (opts : QueryOpts) :
    ∃ hits, query A u xxh3 (d.snapshot bytes ops ttl) (searchReader (d.sec bytes)) (.zeros A len)
        text opts = some (hits, .zeros A (max len d.header.nodeCount.toNat)) ∧
      query A u xxh3 (d.snapshot bytes ops ttl) (searchReader (d.sec bytes)) .empty text opts
        = some (hits, .zeros A d.header.nodeCount.toNat) := by
  have hacc := accepted_of_parse h
  have hcount : d.header.nodeCount.toNat ≤ bufferCap := by
    have := d.header.nodeCount.toNat_lt
    unfold bufferCap
    omega
  have hreads : ∀ t ∈ u.dedupTerms text, (searchReader (d.sec bytes)).TermReads xxh3
      d.header.nodeCount.toNat bufferCap t := by
    intro t ht
    obtain ⟨found, hfound, hbelow⟩ := hposts t ht
    obtain ⟨found', hfound', hlt⟩ := hacc.lexicon.lexMatches t (xxh3 (strBytes t))
    obtain rfl : found' = found := Option.some.inj (hfound'.symm.trans hfound)
    exact ⟨found', hfound, hbelow, fun e he => hacc.lexicon.df e.1 (hlt e he)⟩
  obtain ⟨ranked, hfrom, hfresh⟩ := @candidates_agree F A u xxh3 (d.snapshot bytes ops ttl)
    (searchReader (d.sec bytes)) hacc.base hacc.degrees (u.dedupTerms text) bufferCap hreads hcount
    len 0 hlen (Nat.zero_le _) opts
  obtain ⟨hits, hhits⟩ := Option.isSome_iff_exists.mp (@render_isSome F u xxh3
    (d.snapshot bytes ops ttl) (u.dedupTerms text) opts hacc.base ranked 0 [])
  refine ⟨hits, ?_, ?_⟩
  · rw [query_of_terms hterms, hfrom, Option.bind_some, hhits]
    rfl
  · have hempty : (Scratch.empty : Scratch F) = .zeros A 0 := rfl
    rw [query_of_terms hterms, hempty, hfresh, Option.bind_some, hhits, Nat.zero_max]
    rfl

/-- A query of an image without tokens leaves buffers of its node count. -/
theorem scratchLeft_bare (A : F32 F) (u : Unicode) (xxh3 : Bytes → UInt64) {n : Nat} (hpos : 0 < n)
    (hn : n < 2 ^ 32) (hterms : u.dedupTerms text ≠ []) :
    ScratchLeft A u xxh3 (.zeros A n) := by
  obtain ⟨d, hparse, hcount, htokens⟩ := parse_bareBase xxh3 hpos hn
  have hacc := accepted_of_parse hparse
  obtain ⟨hits, -, hquery⟩ := @query_returns F A u xxh3 _ d [] TtlConfig.default text hparse hterms
    (by
      intro t _
      obtain ⟨found, hfound, hlt⟩ := hacc.lexicon.lexMatches t (xxh3 (strBytes t))
      refine ⟨found, hfound, ?_⟩
      intro e he
      have := hlt e he
      rw [hacc.tokens, htokens] at this
      exact absurd this (Nat.not_lt_zero _))
    0 (Nat.zero_le _) ⟨0, 0, 0, 0⟩
  have hleft := ScratchLeft.asked (A := A) (u := u) .start hparse [] TtlConfig.default text ⟨0, 0, 0, 0⟩
  rw [scratchAfter_of_query hquery, hcount] at hleft
  exact hleft

/-- Where a query returns under every option, each node of the buffers that its terms
    post has a record. -/
theorem posted_records {s : Snapshot} {ix : SearchReader} {len : Nat}
    (hterms : u.dedupTerms text ≠ []) (hreturns : ∀ opts, ∃ hits left,
      query A u xxh3 s ix (.zeros A len) text opts = some (hits, left)) :
    ∀ t ∈ u.dedupTerms text, ∃ found, ix.lexMatches t (xxh3 (strBytes t)) = some found ∧
      ∀ e ∈ found, ∃ o, ix.postings e.1 = some o ∧ ∀ ids, o = some ids → ∀ id ∈ ids,
        id < max len s.base.nodeCount → ∃ r, s.base.nodeRec id = some r := by
  have hscored : ∀ opts, ∃ st ranked, scoreTerms A xxh3 ix.toLexReader
      (A.nat (max s.base.nodeCount 1)) (u.dedupTerms text) (.zeros A (max len s.base.nodeCount))
        = some st ∧ rankScored A u s ix (A.nat (max s.base.nodeCount 1)) (u.dedupTerms text) opts st
        = some ranked := by
    intro opts
    obtain ⟨hits, left, hquery⟩ := hreturns opts
    rw [query_of_terms hterms] at hquery
    obtain ⟨⟨ranked, left'⟩, hranked, -⟩ := Option.bind_eq_some_iff.mp hquery
    obtain ⟨st, hst, hrank, -⟩ := candidates_eq_some hranked
    rw [grow_zeros] at hst
    exact ⟨st, ranked, hst, hrank⟩
  obtain ⟨st, -, hst, -⟩ := hscored ⟨0, 0, 0, 0⟩
  -- with room for every scored node among the seeds, all their records are read
  obtain ⟨st', ranked, hst', hrank⟩ := hscored ⟨0, 0, st.best.length + st.scored.length, 0⟩
  obtain rfl : st = st' := Option.some.inj (hst.symm.trans hst')
  obtain ⟨-, -, hposted⟩ := (listed_zeros _).terms hst
  intro t ht
  obtain ⟨i, hi⟩ := List.mem_iff_getElem?.mp ht
  obtain ⟨found, hfound, hall⟩ := hposted (t, i) (List.mem_zipIdx_iff_getElem?.mpr hi)
  refine ⟨found, hfound, ?_⟩
  intro e he
  obtain ⟨o, ho, hids⟩ := hall e he
  refine ⟨o, ho, ?_⟩
  intro ids hsome id hid hlt
  obtain ⟨r, hr, -⟩ := ranked_of_scored hrank le_rfl (hids ids hsome id hid hlt)
  exact ⟨r, hr⟩

end image

/-- A query over an accepted image is safe, and independent of the queries before it,
    exactly when it has no term or the degrees of the base are sums in range and every
    token its terms match posts nodes of the base: from whatever buffers the queries of
    other accepted images left on the thread, under whatever options, it returns, leaves
    zero buffers, and gives the hits it gives from empty buffers; and no degree sum
    overflows. -/
theorem query_safe_iff (xxh3 : Bytes → UInt64) (u : Unicode) {F : Type} (A : F32 F)
    (bytes : Bytes) (d : BaseDir) (h : BaseDir.parse xxh3 bytes = .ok d) (ops : List Op)
    (ttl : TtlConfig) (text : String) :
    ((∀ sc, ScratchLeft A u xxh3 sc → ∀ opts, ∃ hits len len',
        query A u xxh3 (d.snapshot bytes ops ttl) (searchReader (d.sec bytes)) sc text opts
          = some (hits, .zeros A len) ∧
        query A u xxh3 (d.snapshot bytes ops ttl) (searchReader (d.sec bytes)) .empty text opts
          = some (hits, .zeros A len')) ∧
      (u.dedupTerms text ≠ [] →
        (searchReader (d.sec bytes)).degreesFit d.header.nodeCount.toNat)) ↔
    u.dedupTerms text = [] ∨
      ((searchReader (d.sec bytes)).degreesFit d.header.nodeCount.toNat ∧
        ∀ t ∈ u.dedupTerms text, ∃ found,
          (searchReader (d.sec bytes)).lexMatches t (xxh3 (strBytes t)) = some found ∧
            (searchReader (d.sec bytes)).PostsBelow d.header.nodeCount.toNat bufferCap found) := by
  constructor
  · rintro ⟨hsafe, hfit⟩
    by_cases hterms : u.dedupTerms text = []
    · exact .inl hterms
    · refine .inr ⟨hfit hterms, ?_⟩
      intro t ht
      have hacc := accepted_of_parse h
      have hreads : ∀ len, ScratchLeft A u xxh3 (.zeros A len) → _ := fun len hleft =>
        posted_records hterms (fun opts => by
          obtain ⟨hits, len', _, hquery, -⟩ := hsafe _ hleft opts
          exact ⟨hits, _, hquery⟩) t ht
      obtain ⟨found, hfound, hposts⟩ := hreads 0 .start
      refine ⟨found, hfound, ?_⟩
      intro e he
      obtain ⟨o, ho, -⟩ := hposts e he
      refine ⟨o, ho, ?_⟩
      intro ids hsome id hid
      by_contra hbad
      rw [not_or, not_lt, not_le] at hbad
      -- a store of `id + 1` nodes, asked before, leaves a buffer that holds the id
      have hcap : id + 1 < 2 ^ 32 := by
        have := hbad.2
        unfold bufferCap at this
        omega
      obtain ⟨found', hfound', hposts'⟩ := hreads (id + 1)
        (scratchLeft_bare A u xxh3 (Nat.succ_pos id) hcap hterms)
      obtain rfl : found = found' := Option.some.inj (hfound.symm.trans hfound')
      obtain ⟨o', ho', hids⟩ := hposts' e he
      obtain rfl : o = o' := Option.some.inj (ho.symm.trans ho')
      obtain ⟨r, hr⟩ := hids ids hsome id hid (lt_of_lt_of_le (Nat.lt_succ_self id) (le_max_left _ _))
      exact absurd (hacc.records id r hr) (not_lt.mpr hbad.1)
  · rintro (hterms | ⟨hfit, hposts⟩)
    · refine ⟨?_, fun hne => absurd hterms hne⟩
      intro sc hsc opts
      obtain ⟨len, -, rfl⟩ := hsc.zeros
      exact ⟨[], len, 0, query_of_no_terms hterms, query_of_no_terms hterms⟩
    · refine ⟨?_, fun _ => hfit⟩
      intro sc hsc opts
      obtain ⟨len, hlen, rfl⟩ := hsc.zeros
      by_cases hterms : u.dedupTerms text = []
      · exact ⟨[], len, 0, query_of_no_terms hterms, query_of_no_terms hterms⟩
      · obtain ⟨hits, hfrom, hfresh⟩ := @query_returns F A u xxh3 bytes d ops ttl text h hterms hposts
          len (Nat.le_of_lt_succ hlen) opts
        exact ⟨hits, _, _, hfrom, hfresh⟩

/-- A base of one node and one token, posted at node `id`. -/
def postingImage (id : UInt8) : Bytes :=
  let node := putU64 7 ++ (List.replicate 24 0 ++ (putU32 0 ++ (putU32 noLabel ++
    (putU32 noLabel ++ (putU32 noLabel ++ List.replicate 24 0)))))
  let token := putU64 (packHash (strBytes "cat")) ++
    (putU32 1 ++ (putU32 0 ++ (putU32 1 ++ putU32 0)))
  let header : Header := ⟨0, 1, 0, 0, 1, 1, 0, 0⟩
  (Container.Writer.build BaseFile.format 0 header.owner
    [⟨1, 0, node⟩, ⟨3, 0, List.replicate 8 0⟩, ⟨5, 0, [3, 0] ++ strBytes "cat"⟩, ⟨6, 0, token⟩,
      ⟨7, 0, [id]⟩, ⟨8, 0, [0, 0]⟩, ⟨14, 0, putU32 0⟩]).finish packHash

/-- A base of one node with an edge to itself and the largest in-degree there is. -/
def heavyImage : Bytes :=
  let node := putU64 7 ++ (List.replicate 24 0 ++ (putU32 0 ++ (putU32 noLabel ++ (putU32 noLabel ++
    (putU32 noLabel ++ (List.replicate 16 0 ++ (putU32 0xFFFFFFFF ++ putU32 0)))))))
  let edge : Bytes := putU32 0 ++ List.replicate 4 0
  let header : Header := ⟨0, 1, 0, 1, 0, 1, 0, 0⟩
  (Container.Writer.build BaseFile.format 0 header.owner
    [⟨1, 0, node⟩, ⟨3, 0, putU32 0 ++ putU32 1⟩, ⟨4, 0, edge⟩, ⟨5, 0, [3, 0] ++ strBytes "cat"⟩,
      ⟨8, 0, [0, 0]⟩, ⟨9, 0, putU32 0 ++ putU32 1⟩, ⟨10, 0, edge⟩]).finish packHash

/-- A query of an image alone, from zero buffers. -/
def imageAnswers (bytes : Bytes) (d : BaseDir) (len : Nat) : Option (List (Hit ℚ) × Scratch ℚ) :=
  query F32.rational .ascii packHash (d.snapshot bytes [] TtlConfig.default)
    (searchReader (d.sec bytes)) (.zeros F32.rational len) "cat" ⟨10, 1, 4, 1000⟩

/-- An image is accepted, as one of which a test holds. -/
theorem exists_parse {bytes : Bytes} {p : BaseDir → Bool}
    (h : (BaseDir.parse packHash bytes).toOption.any p = true) :
    ∃ d, BaseDir.parse packHash bytes = .ok d ∧ p d = true := by
  obtain ⟨d, hd, hp⟩ := (Option.any_eq_true _ _).mp h
  cases hparse : BaseDir.parse packHash bytes with
  | error e =>
    rw [hparse] at hd
    cases hd
  | ok d' =>
    rw [hparse] at hd
    cases hd
    exact ⟨d, rfl, hp⟩

/-- An accepted posting of a node the base does not have goes unnoticed from empty
    buffers and faults from the buffers a larger store left; and the degree sum of an
    accepted node overflows. -/
theorem query_faults :
    (∃ d, BaseDir.parse packHash (postingImage 1) = .ok d ∧
      ScratchLeft F32.rational .ascii packHash (.zeros F32.rational 2) ∧
      (imageAnswers (postingImage 1) d 0).isSome ∧ imageAnswers (postingImage 1) d 2 = none) ∧
    ∃ d, BaseDir.parse packHash heavyImage = .ok d ∧ Unicode.ascii.dedupTerms "cat" ≠ [] ∧
      ¬(searchReader (d.sec heavyImage)).degreesFit d.header.nodeCount.toNat := by
  constructor
  · obtain ⟨d, hd, hruns⟩ := @exists_parse (postingImage 1) (fun d =>
      (imageAnswers (postingImage 1) d 0).isSome && (imageAnswers (postingImage 1) d 2).isNone)
      (by decide +kernel)
    rw [Bool.and_eq_true, Option.isNone_iff_eq_none] at hruns
    have hleft := @scratchLeft_bare ℚ "cat" F32.rational .ascii packHash 2 (by decide) (by decide)
      (by decide +kernel)
    exact ⟨d, hd, hleft, hruns⟩
  · obtain ⟨d, hd, hreads⟩ := @exists_parse heavyImage (fun d =>
      d.header.nodeCount = 1 ∧ (searchReader (d.sec heavyImage)).outRun 0 = some (some (0, 1)) ∧
        (searchReader (d.sec heavyImage)).inDegree 0 = some 0xFFFFFFFF) (by decide +kernel)
    obtain ⟨hcount, hrun, hin⟩ := of_decide_eq_true hreads
    refine ⟨d, hd, by decide +kernel, ?_⟩
    intro hfit
    have hsum := hfit 0 (by rw [hcount]; decide) _ _ hrun hin
    exact absurd hsum (by decide)

theorem query_safe_cat :
    ∃ d, BaseDir.parse packHash (postingImage 0) = .ok d ∧
      ∀ sc, ScratchLeft F32.rational .ascii packHash sc → ∀ opts, ∃ hits len len',
        query F32.rational .ascii packHash (d.snapshot (postingImage 0) [] TtlConfig.default)
            (searchReader (d.sec (postingImage 0))) sc "cat" opts
          = some (hits, .zeros F32.rational len) ∧
        query F32.rational .ascii packHash (d.snapshot (postingImage 0) [] TtlConfig.default)
            (searchReader (d.sec (postingImage 0))) .empty "cat" opts
          = some (hits, .zeros F32.rational len') := by
  obtain ⟨d, hd, hreads⟩ := @exists_parse (postingImage 0) (fun d =>
    d.header.nodeCount = 1 ∧
      (searchReader (d.sec (postingImage 0))).outRun 0 = some (some (0, 0)) ∧
      (searchReader (d.sec (postingImage 0))).inDegree 0 = some 0 ∧
      (searchReader (d.sec (postingImage 0))).lexMatches "cat" (packHash (strBytes "cat"))
        = some [(0, .exact)] ∧
      (searchReader (d.sec (postingImage 0))).postings 0 = some (some [0])) (by decide +kernel)
  obtain ⟨hcount, hrun, hin, hfound, hposts⟩ := of_decide_eq_true hreads
  have hone : d.header.nodeCount.toNat = 1 := by
    rw [hcount]
    rfl
  have hterms : Unicode.ascii.dedupTerms "cat" = ["cat"] := by decide +kernel
  refine ⟨d, hd, ((query_safe_iff packHash .ascii F32.rational (postingImage 0) d hd []
    TtlConfig.default "cat").mpr (.inr ⟨?_, ?_⟩)).1⟩
  · intro id hid run inbound hrun' hin'
    rw [hone] at hid
    obtain rfl : id = 0 := by omega
    rw [hrun, Option.some.injEq] at hrun'
    rw [hin, Option.some.injEq] at hin'
    subst hrun'
    subst hin'
    decide
  · intro t ht
    rw [hterms, List.mem_singleton] at ht
    subst ht
    refine ⟨_, hfound, ?_⟩
    intro e he
    rw [List.mem_singleton] at he
    subst he
    refine ⟨_, hposts, ?_⟩
    rintro ids heq id hid
    cases heq
    rw [List.mem_singleton] at hid
    rw [hone, hid]
    exact .inl Nat.one_pos

end GraphR
