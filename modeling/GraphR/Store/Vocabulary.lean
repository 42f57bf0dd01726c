import GraphR.Store.Compact
import GraphR.Store.Lexicon

/-! # A lookup is a vocabulary scan

    Over the lexicon compaction writes, each of the three searches finds exactly
    what a scan would: the record of the term's own hash, the run of the string
    order that starts with the term, and of the rarest trigram's tokens those that
    contain it. The trigram filter loses nothing, as a token that contains the
    term has every trigram of the term. -/

namespace GraphR

open ByteLib LookupLib

namespace Lexicon

/-! ## Positions and tokens -/

section positions
variable {records : SortedMap UInt64 (String × List Nat)}

theorem token_reader (i : Nat) : (index records).reader.token i = (tokensOf records)[i]? := by
  simp [reader, index, tokensOf]

theorem tokenHash_reader (i : Nat) :
    (index records).reader.tokenHash i = records.keys[i]? := by
  simp [reader, index, SortedMap.keys]

theorem length_tokensOf : (tokensOf records).length = records.entries.length := by
  simp [tokensOf]

/-- The hash of the token at a position is the hash of its record. -/
theorem hash_token {xxh3 : Bytes → UInt64} {events : List (String × Nat)}
    (h : Collected xxh3 records events) {i : Nat} {t : String}
    (ht : (tokensOf records)[i]? = some t) : records.keys[i]? = some (xxh3 (strBytes t)) := by
  unfold tokensOf at ht
  rw [List.getElem?_map, Option.map_eq_some_iff] at ht
  obtain ⟨⟨hash, label, ids⟩, hentry, rfl⟩ := ht
  have hget := SortedMap.mem_entries.mp (List.mem_of_getElem? hentry)
  unfold SortedMap.keys
  rw [List.getElem?_map, hentry, Option.map_some, (h.label _ _ _ hget).1]

/-- Distinct positions hold distinct tokens. -/
theorem nodup_tokensOf {xxh3 : Bytes → UInt64} {events : List (String × Nat)}
    (h : Collected xxh3 records events) : (tokensOf records).Nodup := by
  rw [List.nodup_iff_getElem?_ne_getElem?]
  intro i j hij hj heq
  have hlt : i < (tokensOf records).length := by omega
  have hi := hash_token h (List.getElem?_eq_getElem hlt)
  have hj' := hash_token h (heq ▸ List.getElem?_eq_getElem hlt)
  -- one hash at two places of a strictly sorted list
  obtain ⟨hli, hki⟩ := List.getElem?_eq_some_iff.mp hi
  obtain ⟨hlj, hkj⟩ := List.getElem?_eq_some_iff.mp hj'
  have := List.pairwise_iff_getElem.mp records.keys_sorted i j hli hlj hij
  rw [hki, hkj] at this
  exact lt_irrefl _ this

end positions

/-! ## The order and the trigrams -/

theorem perm_orderOf (tokens : List String) : (orderOf tokens).Perm (List.range tokens.length) :=
  List.perm_insertionSort _ _

theorem sorted_orderOf (tokens : List String) : (orderOf tokens).Pairwise fun a b =>
    strBytes (tokens.getD a "") ≤ strBytes (tokens.getD b "") := by
  have : Std.Total fun a b : Nat =>
      strBytes (tokens.getD a "") ≤ strBytes (tokens.getD b "") := ⟨fun _ _ => le_total _ _⟩
  have : IsTrans Nat fun a b =>
      strBytes (tokens.getD a "") ≤ strBytes (tokens.getD b "") := ⟨fun _ _ _ => le_trans⟩
  exact List.pairwise_insertionSort _ _

/-- The positions posted under a trigram. -/
def posted (trigrams : SortedMap Nat (List Nat)) (g : Nat) : List Nat := (trigrams.get g).getD []

theorem posts_foldl (events : List (Nat × Nat)) (hsorted : events.Pairwise fun a b => a.2 ≤ b.2) :
    Posts (posted (events.foldl
      (fun acc e => acc.update e.1 fun ids => pushId e.2 (ids.getD [])) .empty)) events := by
  induction events using List.reverseRecOn with
  | nil =>
    refine ⟨?_, ?_⟩
    · exact fun _ => List.Pairwise.nil
    · simp [posted]
  | append_singleton events e ih =>
    obtain ⟨hfront, -, hlast⟩ := List.pairwise_append.mp hsorted
    rw [List.foldl_append, List.foldl_cons, List.foldl_nil]
    have hpush := @Posts.push Nat _ _ _ (ih hfront) e.1 e.2 fun e' he' => hlast e' he' e (by simp)
    convert hpush using 1
    funext g
    unfold posted
    rw [SortedMap.get_update]
    by_cases hg : g = e.1
    · rw [if_pos hg, if_pos hg]
      rfl
    · rw [if_neg hg, if_neg hg]

theorem posts_trigramsOf (tokens : List String) :
    Posts (posted (trigramsOf tokens)) (trigramEvents tokens) := by
  apply posts_foldl
  have h := zipIdx_flatMap_ordered tokens fun t => (windows 3 (strBytes t)).map trigram
  simp only [List.map_map] at h
  exact h

/-- A token is posted under the trigram of each of its windows. -/
theorem mem_posted {tokens : List String} {i : Nat} {t : String} (ht : tokens[i]? = some t)
    {w : Bytes} (hw : w ∈ windows 3 (strBytes t)) : i ∈ posted (trigramsOf tokens) (trigram w) := by
  rw [(posts_trigramsOf tokens).mem]
  exact List.mem_flatMap.mpr ⟨(t, i), List.mem_zipIdx_iff_getElem?.mpr ht,
    List.mem_map.mpr ⟨w, hw, rfl⟩⟩

/-- Only positions of tokens are posted. -/
theorem posted_lt {tokens : List String} {i g : Nat} (h : i ∈ posted (trigramsOf tokens) g) :
    i < tokens.length := by
  rw [(posts_trigramsOf tokens).mem] at h
  obtain ⟨⟨t, j⟩, hmem, he⟩ := List.mem_flatMap.mp h
  obtain ⟨w, -, heq⟩ := List.mem_map.mp he
  cases heq
  exact (List.getElem?_eq_some_iff.mp (List.mem_zipIdx_iff_getElem?.mp hmem)).1

/-! ## The three searches -/

section searches
variable {records : SortedMap UInt64 (String × List Nat)}

/-- The search by hash finds the position of the hash. -/
theorem findExact_spec (hash : UInt64) : ∃ found, (index records).reader.findExact hash = some found ∧
    ∀ i, found = some i ↔ records.keys[i]? = some hash := by
  obtain ⟨m, hm, hle, hfind⟩ := @bound_find _ _ _ records.keys_sorted hash
    (fun i => ((index records).reader.tokenHash i).map fun h => decide (h < hash)) (by
      intro i hi
      rw [tokenHash_reader, List.getElem?_eq_getElem hi]
      rfl)
  have hcount : (index records).reader.tokenCount = records.keys.length := by
    simp [reader, index, SortedMap.keys]
  unfold LexReader.findExact
  rw [hcount, hm]
  simp only [Option.bind_eq_bind, Option.bind_some]
  by_cases hlt : m < records.keys.length
  · rw [if_pos hlt, tokenHash_reader, List.getElem?_eq_getElem hlt]
    refine ⟨_, rfl, ?_⟩
    intro i
    constructor
    · intro h
      split_ifs at h with heq
      cases h
      rw [List.getElem?_eq_getElem hlt, heq]
    · intro h
      obtain rfl := hfind i h
      rw [List.getElem?_eq_getElem hlt, Option.some.injEq] at h
      rw [if_pos h]
  · rw [if_neg hlt]
    refine ⟨none, rfl, ?_⟩
    intro i
    constructor
    · intro h
      cases h
    · intro h
      obtain rfl := hfind i h
      exact absurd (List.getElem?_eq_some_iff.mp h).1 hlt

/-- The run as the reader walks it. -/
theorem prefixFrom_eq {term : String} {exact : Option Nat} (left k : Nat)
    (hlen : k + left = (orderOf (tokensOf records)).length) :
    (index records).reader.prefixFrom term exact left k
      = some (((((orderOf (tokensOf records)).drop k).takeWhile fun i =>
          decide (startsWith ((tokensOf records).getD i "") term)).filter fun i =>
            decide (some i ≠ exact)).map fun i => (i, Tier.pfx)) := by
  induction left generalizing k with
  | zero =>
    rw [LexReader.prefixFrom, List.drop_eq_nil_of_le (by omega)]
    rfl
  | succ left ih =>
    have hk : k < (orderOf (tokensOf records)).length := by omega
    have hi : (orderOf (tokensOf records))[k] < (tokensOf records).length := by
      have := (perm_orderOf (tokensOf records)).mem_iff.mp (List.getElem_mem hk)
      exact List.mem_range.mp this
    have horder : (index records).reader.order k = some (orderOf (tokensOf records))[k] :=
      List.getElem?_eq_getElem hk
    have htoken : (index records).reader.token (orderOf (tokensOf records))[k]
        = some ((tokensOf records).getD (orderOf (tokensOf records))[k] "") := by
      rw [token_reader, List.getElem?_eq_getElem hi, List.getD_eq_getElem?_getD,
        List.getElem?_eq_getElem hi, Option.getD_some]
    rw [LexReader.prefixFrom, List.drop_eq_getElem_cons hk, horder]
    simp only [Option.bind_eq_bind, Option.bind_some, htoken]
    rw [ih (k + 1) (by omega)]
    by_cases hp : startsWith ((tokensOf records).getD (orderOf (tokensOf records))[k] "") term
    · rw [if_pos hp, List.takeWhile_cons, if_pos (decide_eq_true hp), List.filter_cons,
        Option.bind_some]
      by_cases he : some (orderOf (tokensOf records))[k] ≠ exact
      · rw [if_pos he, if_pos (decide_eq_true he), List.map_cons]
      · rw [if_neg he, if_neg (by simpa using he)]
    · rw [if_neg hp, List.takeWhile_cons, if_neg (by simpa using hp)]
      rfl

/-- The tokens starting with the term, the exact one apart, each once. -/
theorem prefixRun_spec (term : String) (exact : Option Nat) :
    ∃ run : List Nat,
      (index records).reader.prefixRun term exact = some (run.map fun i => (i, .pfx)) ∧
      run.Nodup ∧ ∀ i, i ∈ run ↔ some i ≠ exact ∧
        ∃ t, (tokensOf records)[i]? = some t ∧ startsWith t term := by
  have hmem : ∀ i ∈ orderOf (tokensOf records), i < (tokensOf records).length := fun i hi =>
    List.mem_range.mp ((perm_orderOf _).mem_iff.mp hi)
  have hget := List.pairwise_iff_getElem.mp (sorted_orderOf (tokensOf records))
  obtain ⟨lo, hlo, hle, hiff⟩ := @bound_spec
    (fun k => do
      let i ← (index records).reader.order k
      let t ← (index records).reader.token i
      some (decide (strLt t term)))
    (orderOf (tokensOf records)).length
    (fun k => decide (strBytes ((tokensOf records).getD
      ((orderOf (tokensOf records)).getD k 0) "") < strBytes term)) (by
      intro k hk
      have hi := hmem _ (List.getElem_mem hk)
      have horder : (index records).reader.order k = some (orderOf (tokensOf records))[k] :=
        List.getElem?_eq_getElem hk
      simp only [horder, Option.bind_eq_bind, Option.bind_some, token_reader,
        List.getElem?_eq_getElem hi, List.getD_eq_getElem?_getD, List.getElem?_eq_getElem hk,
        Option.getD_some]
      rfl) (by
      intro i j hij hj hlt
      refine decide_eq_true (lt_of_le_of_lt ?_ (of_decide_eq_true hlt))
      simp only [List.getD_eq_getElem?_getD, List.getElem?_eq_getElem hj,
        List.getElem?_eq_getElem (lt_of_le_of_lt hij hj), Option.getD_some]
      rcases Nat.lt_or_eq_of_le hij with h | rfl
      · simpa only [List.getD_eq_getElem?_getD] using hget i j (by omega) hj h
      · exact le_rfl)
  have hturn : ∀ k (h : k < (orderOf (tokensOf records)).length),
      strBytes ((tokensOf records).getD (orderOf (tokensOf records))[k] "") < strBytes term
        ↔ k < lo := by
    intro k hk
    have hget : (orderOf (tokensOf records)).getD k 0 = (orderOf (tokensOf records))[k] := by
      rw [List.getD_eq_getElem?_getD, List.getElem?_eq_getElem hk, Option.getD_some]
    rw [← hiff k hk, decide_eq_true_eq, hget]
  have hrun : ((orderOf (tokensOf records)).drop lo).takeWhile
      (fun i => decide (startsWith ((tokensOf records).getD i "") term))
      = (orderOf (tokensOf records)).filter
        fun i => decide (startsWith ((tokensOf records).getD i "") term) :=
    prefix_run (strBytes term) (sorted_orderOf (tokensOf records)) hturn
  have hcount : (index records).reader.orderCount = (orderOf (tokensOf records)).length := rfl
  refine ⟨((orderOf (tokensOf records)).filter
    fun i => decide (startsWith ((tokensOf records).getD i "") term)).filter
      fun i => decide (some i ≠ exact), ?_, ?_, ?_⟩
  · unfold LexReader.prefixRun
    rw [hcount, hlo]
    simp only [Option.bind_eq_bind, Option.bind_some]
    rw [prefixFrom_eq _ _ (by omega), hrun]
  · exact (((perm_orderOf _).nodup_iff.mpr List.nodup_range).filter _).filter _
  · intro i
    simp only [List.mem_filter, decide_eq_true_eq, (perm_orderOf _).mem_iff, List.mem_range]
    constructor
    · rintro ⟨⟨hi, hpre⟩, hne⟩
      refine ⟨hne, _, List.getElem?_eq_getElem hi, ?_⟩
      rwa [List.getD_eq_getElem?_getD, List.getElem?_eq_getElem hi, Option.getD_some] at hpre
    · rintro ⟨hne, t, ht, hpre⟩
      obtain ⟨hi, rfl⟩ := List.getElem?_eq_some_iff.mp ht
      refine ⟨⟨hi, ?_⟩, hne⟩
      rwa [List.getD_eq_getElem?_getD, List.getElem?_eq_getElem hi, Option.getD_some]

/-- The lookup of a trigram gives its postings. -/
theorem lookup_eq (g : Nat) :
    (index records).reader.lookup g = some (posted (trigramsOf (tokensOf records)) g) := by
  obtain ⟨m, hm, hle, hfind⟩ := @bound_find _ _ _ (trigramsOf (tokensOf records)).keys_sorted g
    (fun i => ((index records).reader.triKey i).map fun k => decide (k < g)) (by
      intro i hi
      have hkey : (index records).reader.triKey i = (trigramsOf (tokensOf records)).keys[i]? := by
        simp [reader, index, SortedMap.keys]
      rw [hkey, List.getElem?_eq_getElem hi]
      rfl)
  have hcount : (index records).reader.triCount = (trigramsOf (tokensOf records)).keys.length := by
    simp [reader, index, SortedMap.keys]
  -- a trigram that is posted stands at the place the search ends at
  have hplace : ∀ ids, (trigramsOf (tokensOf records)).get g = some ids →
      (trigramsOf (tokensOf records)).entries[m]? = some (g, ids) := by
    intro ids hget
    obtain ⟨i, hi⟩ := List.mem_iff_getElem?.mp (SortedMap.mem_entries.mpr hget)
    have hkey : (trigramsOf (tokensOf records)).keys[i]? = some g := by
      unfold SortedMap.keys
      rw [List.getElem?_map, hi]
      rfl
    obtain rfl := hfind i hkey
    exact hi
  unfold LexReader.lookup
  rw [hcount, hm]
  simp only [Option.bind_eq_bind, Option.bind_some]
  by_cases hlt : m < (trigramsOf (tokensOf records)).keys.length
  · have hlt' : m < (trigramsOf (tokensOf records)).entries.length := by
      simpa [SortedMap.keys] using hlt
    have hentry := List.getElem?_eq_getElem hlt'
    rw [if_pos hlt]
    simp only [reader, index, hentry, Option.map_some, Option.bind_some]
    by_cases hkey : (trigramsOf (tokensOf records)).entries[m].1 = g
    · have hget : (trigramsOf (tokensOf records)).get g
          = some (trigramsOf (tokensOf records)).entries[m].2 := by
        rw [← SortedMap.mem_entries, ← hkey]
        exact List.getElem_mem hlt'
      rw [if_pos hkey, posted, hget]
      rfl
    · rw [if_neg hkey, posted]
      cases hget : (trigramsOf (tokensOf records)).get g with
      | none => rfl
      | some ids =>
        rw [hplace ids hget, Option.some.injEq] at hentry
        exact absurd (congrArg Prod.fst hentry).symm hkey
  · rw [if_neg hlt, posted]
    cases hget : (trigramsOf (tokensOf records)).get g with
    | none => rfl
    | some ids =>
      have := (List.getElem?_eq_some_iff.mp (hplace ids hget)).1
      simp only [SortedMap.keys, List.length_map] at hlt
      omega

/-- The candidates are the postings of one of the windows. -/
theorem rarest_spec (ws : List Bytes) (best : Option (List Nat)) :
    ∃ ids, (index records).reader.rarest ws best = some ids ∧
      ((∃ w ∈ ws, ids = posted (trigramsOf (tokensOf records)) (trigram w)) ∨
        ids = best.getD []) := by
  induction ws generalizing best with
  | nil => exact ⟨_, rfl, .inr rfl⟩
  | cons w ws ih =>
    rw [LexReader.rarest, lookup_eq]
    simp only [Option.bind_eq_bind, Option.bind_some]
    by_cases hempty : (posted (trigramsOf (tokensOf records)) (trigram w)).isEmpty = true
    · rw [if_pos hempty]
      exact ⟨[], rfl, .inl ⟨w, by simp, (List.isEmpty_iff.mp hempty).symm⟩⟩
    · rw [if_neg hempty]
      obtain ⟨ids, hids, h | h⟩ := ih (if best.all fun b => decide
        ((posted (trigramsOf (tokensOf records)) (trigram w)).length < b.length)
        then some (posted (trigramsOf (tokensOf records)) (trigram w)) else best)
      · obtain ⟨w', hw', heq⟩ := h
        exact ⟨ids, hids, .inl ⟨w', List.mem_cons_of_mem _ hw', heq⟩⟩
      · refine ⟨ids, hids, ?_⟩
        split_ifs at h with hall
        · exact .inl ⟨w, by simp, h⟩
        · exact .inr h

/-- The tokens that contain a term of 3 bytes and more without starting with it,
    each once. -/
theorem substr_spec (term : String) (hlen : 3 ≤ strLen term) :
    ∃ ids sub : List Nat, (index records).reader.rarest (windows 3 (strBytes term)) none = some ids ∧
      (index records).reader.substrRun term ids = some (sub.map fun i => (i, .substr)) ∧
      sub.Nodup ∧ ∀ i, i ∈ sub ↔ ∃ t, (tokensOf records)[i]? = some t ∧ containsStr t term ∧
        ¬startsWith t term := by
  obtain ⟨ids, hids, h⟩ := @rarest_spec records (windows 3 (strBytes term)) none
  obtain ⟨w, hw, rfl⟩ : ∃ w ∈ windows 3 (strBytes term),
      ids = posted (trigramsOf (tokensOf records)) (trigram w) := by
    rcases h with h | h
    · exact h
    · -- nothing posted: any window will do, once one is known to be empty
      cases hws : windows 3 (strBytes term) with
      | nil => exact absurd hws (windows_ne_nil (by decide) hlen)
      | cons w ws =>
        rw [hws, LexReader.rarest, lookup_eq] at hids
        simp only [Option.bind_eq_bind, Option.bind_some, Option.all_none, if_true] at hids
        by_cases hempty : (posted (trigramsOf (tokensOf records)) (trigram w)).isEmpty = true
        · exact ⟨w, by simp, by rw [h, List.isEmpty_iff.mp hempty]; rfl⟩
        · rw [if_neg hempty] at hids
          obtain ⟨ids', hids', h' | h'⟩ := @rarest_spec records ws
            (some (posted (trigramsOf (tokensOf records)) (trigram w)))
          · rw [hids, Option.some.injEq] at hids'
            subst hids'
            obtain ⟨w', hw', heq⟩ := h'
            exact ⟨w', List.mem_cons_of_mem _ hw', heq⟩
          · rw [hids, Option.some.injEq] at hids'
            subst hids'
            exact ⟨w, by simp, h'⟩
  refine ⟨_, (posted (trigramsOf (tokensOf records)) (trigram w)).filter (fun i =>
    decide (containsStr ((tokensOf records).getD i "") term ∧
      ¬startsWith ((tokensOf records).getD i "") term)), hids, ?_, ?_, ?_⟩
  · unfold LexReader.substrRun
    rw [@FaultLib.mapM_eq_some _ _ _ _ (fun i => (i, (tokensOf records).getD i "")) (by
      intro i hi
      simp only [token_reader, List.getElem?_eq_getElem (posted_lt hi), Option.bind_eq_bind,
        Option.bind_some, List.getD_eq_getElem?_getD, Option.getD_some])]
    simp only [Option.bind_eq_bind, Option.bind_some, List.filter_map, List.map_map]
    rfl
  · have hasc := (posts_trigramsOf (tokensOf records)).ascending (trigram w)
    exact (hasc.imp fun {a b} hab heq => absurd hab (by rw [heq]; exact lt_irrefl _)).filter _
  · intro i
    rw [List.mem_filter, decide_eq_true_eq]
    constructor
    · rintro ⟨hi, hmatch⟩
      have hlt := posted_lt hi
      rw [List.getD_eq_getElem?_getD, List.getElem?_eq_getElem hlt, Option.getD_some] at hmatch
      exact ⟨_, List.getElem?_eq_getElem hlt, hmatch⟩
    · rintro ⟨t, ht, hin, hnot⟩
      -- the token contains the term, so it has the window and is posted under it
      refine ⟨mem_posted ht (mem_windows_of_isInfix (by decide) hin hw), ?_⟩
      rw [List.getD_eq_getElem?_getD, ht, Option.getD_some]
      exact ⟨hin, hnot⟩

end searches

end Lexicon

/-! ## The lookup -/

/-- What a scan gives a token: the tier it has against the term, where a substring
    counts for terms of 3 bytes and more only. -/
def ScanMatch (term token : String) : Tier → Prop
  | .exact => token = term
  | .pfx => token ≠ term ∧ startsWith token term
  | .substr => 3 ≤ strLen term ∧ containsStr token term ∧ ¬startsWith token term
  | .none => False

theorem startsWith_self (t : String) : startsWith t t := List.prefix_refl _

theorem containsStr_of_startsWith {token term : String} (h : startsWith token term) :
    containsStr token term := h.isInfix

/-- The scan's tiers are those of the indexed comparison. -/
theorem scanMatch_iff {term token : String} {tier : Tier} :
    ScanMatch term token tier ↔ tier = indexedTier term token ∧ tier ≠ .none := by
  by_cases heq : token = term
  · subst heq
    have h : indexedTier token token = .exact := by simp [indexedTier, tierOf]
    rw [h]
    cases tier <;> simp [ScanMatch, startsWith_self]
  · by_cases hpre : startsWith token term
    · have h : indexedTier term token = .pfx := by simp [indexedTier, tierOf, heq, hpre]
      rw [h]
      cases tier <;> simp [ScanMatch, heq, hpre]
    · by_cases hin : containsStr token term
      · by_cases hlen : strLen term < 3
        · have h : indexedTier term token = .none := by
            simp [indexedTier, tierOf, heq, hpre, hin, hlen]
          rw [h]
          cases tier <;> simp [ScanMatch, heq, hpre, hin, hlen]
        · have h : indexedTier term token = .substr := by
            simp [indexedTier, tierOf, heq, hpre, hin, hlen]
          rw [h]
          cases tier <;> simp [ScanMatch, heq, hpre, hin, not_lt.mp hlen]
      · have h : indexedTier term token = .none := by simp [indexedTier, tierOf, heq, hpre, hin]
        rw [h]
        cases tier <;> simp [ScanMatch, heq, hpre, hin]

section lookup
variable {xxh3 : Bytes → UInt64} {records : SortedMap UInt64 (String × List Nat)}

/-- A lookup finds each token a scan matches, once, at the scan's tier. -/
theorem lexMatches_spec {events : List (String × Nat)} (h : Collected xxh3 records events)
    (term : String)
    (hcol : ∀ t ∈ Lexicon.tokensOf records, xxh3 (strBytes t) = xxh3 (strBytes term) → t = term) :
    ∃ out, (Lexicon.index records).reader.lexMatches term (xxh3 (strBytes term)) = some out ∧
      (out.map Prod.fst).Nodup ∧ ∀ i tier, (i, tier) ∈ out ↔
        ∃ t, (Lexicon.tokensOf records)[i]? = some t ∧ ScanMatch term t tier := by
  obtain ⟨found, hfound, hexact⟩ := @Lexicon.findExact_spec records (xxh3 (strBytes term))
  obtain ⟨run, hrun, hrunNodup, hrunMem⟩ := @Lexicon.prefixRun_spec records term found
  obtain ⟨sub, hsub, hsubNodup, hsubMem⟩ : ∃ sub : List Nat,
      (Lexicon.index records).reader.substrMatches term
        = some (sub.map fun i => (i, Tier.substr)) ∧ sub.Nodup ∧
      ∀ i, i ∈ sub ↔ 3 ≤ strLen term ∧ ∃ t, (Lexicon.tokensOf records)[i]? = some t ∧
        containsStr t term ∧ ¬startsWith t term := by
    unfold LexReader.substrMatches
    by_cases hlen : strLen term < 3
    · refine ⟨[], if_pos hlen, List.nodup_nil, ?_⟩
      simp [hlen]
    · obtain ⟨ids, sub, hids, hsub, hnodup, hmem⟩ :=
        @Lexicon.substr_spec records term (not_lt.mp hlen)
      refine ⟨sub, ?_, hnodup, ?_⟩
      · rw [if_neg hlen, hids]
        exact hsub
      · simpa [not_lt.mp hlen] using hmem
  -- the record of the term's hash is the one whose token is the term
  have hfoundMem : ∀ i, found = some i ↔ (Lexicon.tokensOf records)[i]? = some term := by
    intro i
    rw [hexact]
    constructor
    · intro hkey
      obtain ⟨hlt, -⟩ := List.getElem?_eq_some_iff.mp hkey
      have hlt' : i < (Lexicon.tokensOf records).length := by
        simpa [Lexicon.tokensOf, SortedMap.keys] using hlt
      have htok := List.getElem?_eq_getElem hlt'
      have hhash := Lexicon.hash_token h htok
      rw [hkey, Option.some.injEq] at hhash
      rw [htok, hcol _ (List.getElem_mem hlt') hhash.symm]
    · intro htok
      exact Lexicon.hash_token h htok
  refine ⟨found.toList.map (fun i => (i, .exact)) ++ run.map (fun i => (i, .pfx))
    ++ sub.map (fun i => (i, .substr)), ?_, ?_, ?_⟩
  · unfold LexReader.lexMatches
    simp only [hfound, hrun, hsub, Option.bind_eq_bind, Option.bind_some]
  · -- exact, prefix and substring tokens are apart
    have hfst : ∀ (l : List Nat) (tier : Tier), (l.map fun i => (i, tier)).map Prod.fst = l := by
      intro l tier
      rw [List.map_map]
      exact List.map_id l
    rw [List.map_append, List.map_append, hfst, hfst, hfst, List.nodup_append, List.nodup_append]
    refine ⟨⟨?_, hrunNodup, ?_⟩, hsubNodup, ?_⟩
    · cases found with
      | none => exact List.nodup_nil
      | some i => exact List.nodup_singleton i
    · rintro i hi j hj rfl
      exact ((hrunMem i).mp hj).1 (Option.mem_toList.mp hi).symm
    · rintro i hi j hj rfl
      obtain ⟨-, t, ht, -, hnot⟩ := (hsubMem i).mp hj
      rcases List.mem_append.mp hi with hi | hi
      · rw [(hfoundMem i).mp (Option.mem_toList.mp hi), Option.some.injEq] at ht
        exact hnot (ht ▸ startsWith_self term)
      · obtain ⟨-, t', ht', hpre⟩ := (hrunMem i).mp hi
        rw [ht, Option.some.injEq] at ht'
        exact hnot (ht' ▸ hpre)
  · intro i tier
    simp only [List.mem_append, List.mem_map, Prod.mk.injEq]
    cases tier with
    | none =>
      simp [ScanMatch]
    | exact =>
      simp only [reduceCtorEq, and_false, exists_false, or_false, and_true, ScanMatch,
        exists_eq_right, Option.mem_toList]
      exact hfoundMem i
    | pfx =>
      simp only [reduceCtorEq, and_false, exists_false, or_false, false_or, and_true, ScanMatch,
        exists_eq_right]
      rw [hrunMem]
      constructor
      · rintro ⟨hne, t, ht, hpre⟩
        refine ⟨t, ht, ?_, hpre⟩
        rintro rfl
        exact hne ((hfoundMem i).mpr ht).symm
      · rintro ⟨t, ht, hne, hpre⟩
        refine ⟨?_, t, ht, hpre⟩
        intro heq
        rw [(hfoundMem i).mp heq.symm, Option.some.injEq] at ht
        exact hne ht.symm
    | substr =>
      simp only [reduceCtorEq, and_false, exists_false, false_or, and_true, ScanMatch,
        exists_eq_right]
      rw [hsubMem]
      constructor
      · rintro ⟨hlen, t, ht, hmatch⟩
        exact ⟨t, ht, hlen, hmatch⟩
      · rintro ⟨t, ht, hlen, hmatch⟩
        exact ⟨hlen, t, ht, hmatch⟩

end lookup

/-- The tokens of a base's lexicon are those of its nodes, each once, where no two of
    them share a hash. -/
theorem mem_tokensOf_collectTokens {xxh3 : Bytes → UInt64} {u : Unicode}
    {nodes : SortedMap UrlKey NodeModel} {t : String}
    (ht : t ∈ Lexicon.tokensOf (collectTokens xxh3 u nodes)) :
    ∃ k m, nodes.get k = some m ∧ t ∈ m.tokens u := by
  obtain ⟨⟨hash, label, ids⟩, hentry, rfl⟩ := List.mem_map.mp ht
  obtain ⟨-, id, hid⟩ := (@collected_collectTokens xxh3 u nodes).label _ _ _
    (SortedMap.mem_entries.mp hentry)
  obtain ⟨k, m, hget, hm⟩ := mem_tokenEvents.mp hid
  exact ⟨k, m, SortedMap.mem_entries.mp (List.mem_of_getElem? hget), hm⟩

/-- Indexed token lookup equals a vocabulary scan: over the lexicon of any base, a
    lookup of any term that shares its hash with no other token emits each token at
    most once, and exactly the token equal to the term at the exact tier, every other
    token that starts with the term at the prefix tier, and, for a term of 3 bytes
    and more, every token that contains it without starting with it at the substring
    tier. -/
theorem lexMatches_scan (xxh3 : Bytes → UInt64) (u : Unicode) (b : Base) (term : String)
    (hcol : ∀ t ∈ Lexicon.tokensOf (b.lexicon xxh3 u).records,
      xxh3 (strBytes t) = xxh3 (strBytes term) → t = term) :
    (Lexicon.tokensOf (b.lexicon xxh3 u).records).Nodup ∧
    ∃ out, (b.lexicon xxh3 u).reader.lexMatches term (xxh3 (strBytes term)) = some out ∧
      (out.map Prod.fst).Nodup ∧
      ∀ i tier, (i, tier) ∈ out ↔
        ∃ t, (b.lexicon xxh3 u).reader.token i = some t ∧ ScanMatch term t tier := by
  have hcollected := @collected_collectTokens xxh3 u b.nodes
  refine ⟨Lexicon.nodup_tokensOf hcollected, ?_⟩
  obtain ⟨out, hout, hnodup, hmem⟩ := lexMatches_spec hcollected term hcol
  refine ⟨out, hout, hnodup, ?_⟩
  intro i tier
  rw [hmem, Base.lexicon, Lexicon.token_reader]

/-- A hash that tells strings of up to 8 bytes apart. -/
def packHash (bs : Bytes) : UInt64 := UInt64.ofNat (leNat bs)

/-- One document whose title has four tokens. -/
def fourTokens : Base :=
  ⟨SortedMap.empty.insert 1 { stubModel with url := "a", title := some "graph Graphs polygraph map" },
    [0]⟩

theorem lexMatches_scan_graph :
    ∃ out, (fourTokens.lexicon packHash .ascii).reader.lexMatches "graph"
        (packHash (strBytes "graph")) = some out ∧ (out.map Prod.fst).Nodup ∧
      ∀ i tier, (i, tier) ∈ out ↔ ∃ t,
        (fourTokens.lexicon packHash .ascii).reader.token i = some t ∧ ScanMatch "graph" t tier :=
  (lexMatches_scan packHash .ascii fourTokens "graph" (by decide +kernel)).2

end GraphR
