import GraphR.Store.Query

/-! # Scoring in reused buffers

    The scoring loops of a query run over buffers an earlier query left. Two facts
    carry everything: a tier or a score is zero unless its node is on a list that is
    drained or reset (`Touch.Listed`, `Scoring.Listed`), so a query leaves the buffers
    all zero; and a node below the base's count is read and written the same in
    buffers of any length (`Touch.Agree`, `Scoring.Agree`), so with postings below it
    the length plays no part. -/

namespace GraphR

open Wal ByteLib LookupLib

/-! ## Posting -/

/-- A node has a tier only if it was touched, and it is one of the buffer's. -/
structure Touch.Listed (t : Touch) (len : Nat) : Prop where
  length : t.tierOf.length = len
  nonzero : ∀ i e, t.tierOf[i]? = some e → e ≠ .none → i ∈ t.touched
  below : ∀ i ∈ t.touched, i < len

namespace Touch

variable {t : Touch} {len : Nat}

theorem Listed.post (h : t.Listed len) (tier : Tier) (id : Nat) : (t.post tier id).Listed len := by
  unfold Touch.post
  cases he : t.tierOf[id]? with
  | none => exact h
  | some e =>
    have hlt : id < len := h.length ▸ (List.getElem?_eq_some_iff.mp he).1
    refine ⟨by simpa using h.length, ?_, ?_⟩
    · intro i e' hi hne
      simp only [List.getElem?_set] at hi
      by_cases heq : id = i
      · subst heq
        by_cases hz : e = .none
        · simp [hz]
        · simpa [hz] using h.nonzero id e he hz
      · rw [if_neg heq] at hi
        have hmem := h.nonzero i e' hi hne
        by_cases hz : e = .none
        · simp [hz, hmem]
        · simp [hz, hmem]
    · intro i hi
      simp only at hi
      split_ifs at hi
      · rcases List.mem_append.mp hi with hi | hi
        · exact h.below i hi
        · obtain rfl := List.mem_singleton.mp hi
          exact hlt
      · exact h.below i hi

/-- Posting a node of the buffer touches it, and nothing touched is forgotten. -/
theorem touched_post (h : t.Listed len) (tier : Tier) (id : Nat) :
    (∀ i ∈ t.touched, i ∈ (t.post tier id).touched) ∧
      (id < len → id ∈ (t.post tier id).touched) := by
  unfold Touch.post
  cases he : t.tierOf[id]? with
  | none =>
    refine ⟨fun i hi => hi, fun hlt => ?_⟩
    rw [List.getElem?_eq_none_iff, h.length] at he
    omega
  | some e =>
    by_cases hz : e = .none
    · simp only [hz, if_true, List.mem_append, List.mem_singleton, or_true, implies_true, and_true]
      exact fun i hi => .inl hi
    · simp only [hz, if_false]
      exact ⟨fun i hi => hi, fun _ => h.nonzero id e he hz⟩

/-- Two buffers that agree on the first `n` nodes, and only they were touched. -/
structure Agree (n : Nat) (a b : Touch) : Prop where
  leftLength : n ≤ a.tierOf.length
  rightLength : n ≤ b.tierOf.length
  tierOf : ∀ i < n, a.tierOf[i]? = b.tierOf[i]?
  touched : a.touched = b.touched
  below : ∀ i ∈ a.touched, i < n

theorem Agree.post {n : Nat} {a b : Touch} (h : Agree n a b) (tier : Tier) {id : Nat}
    (hid : id < n ∨ a.tierOf.length ≤ id ∧ b.tierOf.length ≤ id) :
    Agree n (a.post tier id) (b.post tier id) := by
  rcases hid with hlt | ⟨hleft, hright⟩
  · have hla : id < a.tierOf.length := lt_of_lt_of_le hlt h.leftLength
    have hlb : id < b.tierOf.length := lt_of_lt_of_le hlt h.rightLength
    have ha := List.getElem?_eq_getElem hla
    have hb : b.tierOf[id]? = some a.tierOf[id] := by rw [← h.tierOf id hlt, ha]
    unfold Touch.post
    rw [ha, hb]
    refine ⟨by simpa using h.leftLength, by simpa using h.rightLength, ?_, by rw [h.touched], ?_⟩
    · intro i hi
      simp only [List.getElem?_set, hla, hlb, if_true]
      rw [h.tierOf i hi]
    · intro i hi
      simp only at hi
      split_ifs at hi
      · rcases List.mem_append.mp hi with hi | hi
        · exact h.below i hi
        · obtain rfl := List.mem_singleton.mp hi
          exact hlt
      · exact h.below i hi
  · -- past both buffers the id is skipped
    unfold Touch.post
    rw [List.getElem?_eq_none hleft, List.getElem?_eq_none hright]
    exact h

theorem length_post (tier : Tier) (t : Touch) (id : Nat) :
    (t.post tier id).tierOf.length = t.tierOf.length := by
  unfold Touch.post
  cases t.tierOf[id]? <;> simp

theorem length_posts (tier : Tier) (ids : List Nat) (t : Touch) :
    (ids.foldl (Touch.post tier) t).tierOf.length = t.tierOf.length := by
  induction ids generalizing t with
  | nil => rfl
  | cons id ids ih => rw [List.foldl_cons, ih, length_post]

theorem Listed.posts (h : t.Listed len) (tier : Tier) (ids : List Nat) :
    (ids.foldl (Touch.post tier) t).Listed len ∧
      (∀ i ∈ t.touched, i ∈ (ids.foldl (Touch.post tier) t).touched) ∧
      ∀ i ∈ ids, i < len → i ∈ (ids.foldl (Touch.post tier) t).touched := by
  induction ids generalizing t with
  | nil => exact ⟨h, fun _ hi => hi, by simp⟩
  | cons id ids ih =>
    obtain ⟨hlisted, hkept, hposted⟩ := ih (h.post tier id)
    obtain ⟨hstep, hid⟩ := touched_post h tier id
    refine ⟨hlisted, fun i hi => hkept i (hstep i hi), ?_⟩
    intro i hi hlt
    rcases List.mem_cons.mp hi with rfl | hi
    · exact hkept i (hid hlt)
    · exact hposted i hi hlt

theorem Agree.posts {n : Nat} {a b : Touch} (h : Agree n a b) (tier : Tier) (ids : List Nat)
    (hids : ∀ id ∈ ids, id < n ∨ a.tierOf.length ≤ id ∧ b.tierOf.length ≤ id) :
    Agree n (ids.foldl (Touch.post tier) a) (ids.foldl (Touch.post tier) b) := by
  induction ids generalizing a b with
  | nil => exact h
  | cons id ids ih =>
    refine ih (h.post tier (hids id (by simp))) fun i hi => ?_
    rw [length_post, length_post]
    exact hids i (by simp [hi])

end Touch

/-! ## Emitting -/

/-- The postings of the matches read without fault, and name nodes below `n`, or
    nothing that a buffer of `cap` entries holds. -/
def LexReader.PostsBelow (r : LexReader) (n cap : Nat) (out : List (Nat × Tier)) : Prop :=
  ∀ e ∈ out, ∃ o, r.postings e.1 = some o ∧
    ∀ ids, o = some ids → ∀ id ∈ ids, id < n ∨ cap ≤ id

section emitting
variable {r : LexReader}

/-- What emitting does to the buffers: the postings that decode, one after the
    other. -/
theorem emitMatch_eq_some {st st' : Nat × Touch} {e : Nat × Tier}
    (h : emitMatch r st e = some st') : ∃ o, r.postings e.1 = some o ∧
      st'.2 = (o.getD []).foldl (Touch.post e.2) st.2 := by
  unfold emitMatch at h
  obtain ⟨df, -, h⟩ := Option.bind_eq_some_iff.mp h
  obtain ⟨o, ho, h⟩ := Option.bind_eq_some_iff.mp h
  cases h
  exact ⟨o, ho, rfl⟩

theorem listed_emitMatches {len : Nat} {out : List (Nat × Tier)} {st st' : Nat × Touch}
    (h : out.foldlM (emitMatch r) st = some st') (hst : st.2.Listed len) :
    st'.2.Listed len ∧ (∀ i ∈ st.2.touched, i ∈ st'.2.touched) ∧
      ∀ e ∈ out, ∃ o, r.postings e.1 = some o ∧
        ∀ ids, o = some ids → ∀ id ∈ ids, id < len → id ∈ st'.2.touched := by
  induction out generalizing st with
  | nil =>
    cases h
    exact ⟨hst, fun _ hi => hi, by simp⟩
  | cons e out ih =>
    rw [List.foldlM_cons, Option.bind_eq_bind, Option.bind_eq_some_iff] at h
    obtain ⟨st₁, hst₁, hrest⟩ := h
    obtain ⟨o, ho, htouch⟩ := emitMatch_eq_some hst₁
    obtain ⟨hlisted, hkept, hposted⟩ := hst.posts e.2 (o.getD [])
    rw [← htouch] at hlisted hkept hposted
    obtain ⟨hend, hkept', hposted'⟩ := ih hrest hlisted
    refine ⟨hend, fun i hi => hkept' i (hkept i hi), ?_⟩
    intro e' he'
    rcases List.mem_cons.mp he' with rfl | he'
    · refine ⟨o, ho, ?_⟩
      rintro ids rfl id hid hlt
      exact hkept' id (hposted id hid hlt)
    · exact hposted' e' he'

theorem agree_emitMatches {n cap : Nat} {out : List (Nat × Tier)} (hout : r.PostsBelow n cap out)
    (hdf : ∀ e ∈ out, (r.df e.1).isSome) {a b : Nat × Touch} (hfst : a.1 = b.1)
    (h : Touch.Agree n a.2 b.2) (hla : a.2.tierOf.length ≤ cap)
    (hlb : b.2.tierOf.length ≤ cap) :
    ∃ a' b', out.foldlM (emitMatch r) a = some a' ∧ out.foldlM (emitMatch r) b = some b' ∧
      a'.1 = b'.1 ∧ Touch.Agree n a'.2 b'.2 ∧ a'.2.tierOf.length = a.2.tierOf.length ∧
      b'.2.tierOf.length = b.2.tierOf.length := by
  induction out generalizing a b with
  | nil => exact ⟨a, b, rfl, rfl, hfst, h, rfl, rfl⟩
  | cons e out ih =>
    obtain ⟨o, ho, hids⟩ := hout e (by simp)
    obtain ⟨df, hdfe⟩ : ∃ df, exactDf r a.1 e = some df := by
      obtain ⟨df, hdfe⟩ := Option.isSome_iff_exists.mp (hdf e (by simp))
      unfold exactDf
      rw [hdfe]
      by_cases hex : Tier.exact ≤ e.2
      · exact ⟨_, if_pos hex⟩
      · exact ⟨_, if_neg hex⟩
    have hstep : ∀ st : Nat × Touch, st.1 = a.1 → emitMatch r st e
        = some (df, (o.getD []).foldl (Touch.post e.2) st.2) := by
      intro st hst
      unfold emitMatch
      rw [hst, hdfe, ho]
      rfl
    have hagree := h.posts e.2 (o.getD []) (by
      intro id hid
      cases o with
      | none => cases hid
      | some ids =>
        rcases hids ids rfl id hid with hlt | hle
        · exact .inl hlt
        · exact .inr ⟨hla.trans hle, hlb.trans hle⟩)
    obtain ⟨a', b', ha', hb', hrest⟩ := ih (fun e' he' => hout e' (by simp [he']))
      (fun e' he' => hdf e' (by simp [he']))
      (a := (df, (o.getD []).foldl (Touch.post e.2) a.2))
      (b := (df, (o.getD []).foldl (Touch.post e.2) b.2)) rfl hagree (by rwa [Touch.length_posts]) (by rwa [Touch.length_posts])
    rw [Touch.length_posts, Touch.length_posts] at hrest
    refine ⟨a', b', ?_, ?_, hrest⟩
    · rw [List.foldlM_cons, hstep a rfl]
      exact ha'
    · rw [List.foldlM_cons, hstep b hfst.symm]
      exact hb'

end emitting

/-! ## Draining -/

section draining
variable {F : Type} {A : F32 F}

/-- A node has a score only if it was scored, and it is one of the buffer's. -/
structure ScoresListed (A : F32 F) (scores : List (NodeScore F)) (scored : List Nat) (len : Nat) :
    Prop where
  length : scores.length = len
  nonzero : ∀ i x, scores[i]? = some x → x ≠ .zero A → i ∈ scored
  below : ∀ i ∈ scored, i < len

/-- One node is drained: its tier is zero after, its score is listed. -/
theorem drain_step {ti : Nat} {idf : F} {st : Drain F} {id len : Nat}
    (hs : ScoresListed A st.scratch.scores st.scored len) (ht : st.scratch.tierOf.length = len)
    (hid : id < len) :
    ∃ st', st.step A ti idf id = some st' ∧
      ScoresListed A st'.scratch.scores st'.scored len ∧
      st'.scratch.tierOf = st.scratch.tierOf.set id .none ∧
      (∀ i ∈ st.scored, i ∈ st'.scored) ∧ id ∈ st'.scored := by
  have hlt : id < st.scratch.scores.length := hs.length ▸ hid
  have htier := List.getElem?_eq_getElem (l := st.scratch.tierOf) (i := id) (ht ▸ hid)
  have hscore := List.getElem?_eq_getElem hlt
  unfold Drain.step
  rw [htier, hscore]
  refine ⟨_, rfl, ⟨?_, ?_, ?_⟩, rfl, ?_, ?_⟩
  · simpa using hs.length
  · intro i x hi hne
    simp only [List.getElem?_set] at hi
    by_cases heq : id = i
    · subst heq
      by_cases hz : st.scratch.scores[id].matched = 0
      · simp [hz]
      · simp only [hz, if_false]
        refine hs.nonzero id _ hscore fun hzero => hz ?_
        rw [hzero]
        rfl
    · rw [if_neg heq] at hi
      have := hs.nonzero i x hi hne
      simp only
      split_ifs
      · exact List.mem_append_left _ this
      · exact this
  · intro i hi
    simp only at hi
    split_ifs at hi
    · rcases List.mem_append.mp hi with hi | hi
      · exact hs.below i hi
      · obtain rfl := List.mem_singleton.mp hi
        exact hid
    · exact hs.below i hi
  · intro i hi
    simp only
    split_ifs
    · exact List.mem_append_left _ hi
    · exact hi
  · simp only
    by_cases hz : st.scratch.scores[id].matched = 0
    · simp [hz]
    · rw [if_neg hz]
      refine hs.nonzero id _ hscore fun hzero => hz ?_
      rw [hzero]
      rfl

/-- Draining a list of nodes: their tiers are zero after, the others as before. -/
theorem drain_run {ti : Nat} {idf : F} {ids : List Nat} {st : Drain F} {len : Nat}
    (hs : ScoresListed A st.scratch.scores st.scored len) (ht : st.scratch.tierOf.length = len)
    (hids : ∀ id ∈ ids, id < len) :
    ∃ st', ids.foldlM (Drain.step A ti idf) st = some st' ∧
      ScoresListed A st'.scratch.scores st'.scored len ∧ st'.scratch.tierOf.length = len ∧
      (∀ i e, st'.scratch.tierOf[i]? = some e →
        e = .none ∨ i ∉ ids ∧ st.scratch.tierOf[i]? = some e) ∧
      (∀ i ∈ st.scored, i ∈ st'.scored) ∧ ∀ i ∈ ids, i ∈ st'.scored := by
  induction ids generalizing st with
  | nil => exact ⟨st, rfl, hs, ht, fun i e he => .inr ⟨by simp, he⟩, fun _ hi => hi, by simp⟩
  | cons id ids ih =>
    obtain ⟨st₁, hstep, hs₁, htier₁, hkept₁, hid₁⟩ :=
      @drain_step F A ti idf st id len hs ht (hids id (by simp))
    obtain ⟨st', hrun, hs', ht', htier', hkept', hids'⟩ := ih hs₁ (by rw [htier₁]; simpa using ht)
      fun i hi => hids i (by simp [hi])
    refine ⟨st', ?_, hs', ht', ?_, fun i hi => hkept' i (hkept₁ i hi), ?_⟩
    · rw [List.foldlM_cons, hstep]
      exact hrun
    · intro i e he
      rcases htier' i e he with hz | ⟨hnot, hold⟩
      · exact .inl hz
      · rw [htier₁, List.getElem?_set] at hold
        by_cases heq : id = i
        · subst heq
          rw [if_pos rfl] at hold
          split_ifs at hold
          exact .inl (Option.some.inj hold).symm
        · rw [if_neg heq] at hold
          exact .inr ⟨by simp [Ne.symm heq, hnot], hold⟩
    · intro i hi
      rcases List.mem_cons.mp hi with rfl | hi
      · exact hkept' i hid₁
      · exact hids' i hi

/-- Two scorings that agree on the first `n` nodes, and only they were scored. -/
structure Drain.Agree (n : Nat) (a b : Drain F) : Prop where
  lengths : n ≤ a.scratch.scores.length ∧ n ≤ b.scratch.scores.length ∧
    n ≤ a.scratch.tierOf.length ∧ n ≤ b.scratch.tierOf.length
  scores : ∀ i < n, a.scratch.scores[i]? = b.scratch.scores[i]?
  tierOf : ∀ i < n, a.scratch.tierOf[i]? = b.scratch.tierOf[i]?
  scored : a.scored = b.scored
  best : a.best = b.best
  below : ∀ i ∈ a.scored, i < n
  bestBelow : ∀ p, a.best = some p → p.2 < n

theorem Drain.Agree.step {ti : Nat} {idf : F} {n : Nat} {a b : Drain F} (h : Drain.Agree n a b)
    {id : Nat} (hid : id < n) :
    ∃ a' b', a.step A ti idf id = some a' ∧ b.step A ti idf id = some b' ∧
      Drain.Agree n a' b' := by
  obtain ⟨hsa, hsb, hta, htb⟩ := h.lengths
  have hscoreA := List.getElem?_eq_getElem (lt_of_lt_of_le hid hsa)
  have htierA := List.getElem?_eq_getElem (lt_of_lt_of_le hid hta)
  have hscoreB := (h.scores id hid).symm.trans hscoreA
  have htierB := (h.tierOf id hid).symm.trans htierA
  unfold Drain.step
  rw [hscoreA, htierA, hscoreB, htierB]
  refine ⟨_, _, rfl, rfl, ⟨?_, ?_, ?_, ?_, ?_, ?_, ?_⟩⟩
  · simp [hsa, hsb, hta, htb]
  · intro i hi
    have hla := lt_of_lt_of_le hid hsa
    have hlb := lt_of_lt_of_le hid hsb
    simp only [List.getElem?_set, hla, hlb, if_true]
    rw [h.scores i hi]
  · intro i hi
    have hla := lt_of_lt_of_le hid hta
    have hlb := lt_of_lt_of_le hid htb
    simp only [List.getElem?_set, hla, hlb, if_true]
    rw [h.tierOf i hi]
  · simp only [h.scored]
  · simp only [h.best]
  · intro i hi
    simp only at hi
    split_ifs at hi
    · rcases List.mem_append.mp hi with hi | hi
      · exact h.below i hi
      · obtain rfl := List.mem_singleton.mp hi
        exact hid
    · exact h.below i hi
  · intro p hp
    simp only at hp
    split_ifs at hp
    · cases hp
      exact hid
    · exact h.bestBelow p hp

theorem Drain.Agree.run {ti : Nat} {idf : F} {n : Nat} {ids : List Nat} {a b : Drain F}
    (h : Drain.Agree n a b) (hids : ∀ id ∈ ids, id < n) :
    ∃ a' b', ids.foldlM (Drain.step A ti idf) a = some a' ∧
      ids.foldlM (Drain.step A ti idf) b = some b' ∧ Drain.Agree n a' b' := by
  induction ids generalizing a b with
  | nil => exact ⟨a, b, rfl, rfl, h⟩
  | cons id ids ih =>
    obtain ⟨a₁, b₁, ha₁, hb₁, h₁⟩ := @Drain.Agree.step F A ti idf n a b h id (hids id (by simp))
    obtain ⟨a', b', ha', hb', h'⟩ := ih h₁ fun i hi => hids i (by simp [hi])
    refine ⟨a', b', ?_, ?_, h'⟩
    · rw [List.foldlM_cons, ha₁]
      exact ha'
    · rw [List.foldlM_cons, hb₁]
      exact hb'

end draining

/-! ## Terms -/

section terms
variable {F : Type} {A : F32 F}

/-- Buffers of a length, all zero. -/
def Scratch.zeros (A : F32 F) (len : Nat) : Scratch F :=
  ⟨List.replicate len (.zero A), List.replicate len .none⟩

/-- Between two terms: scores are listed, tiers are zero. -/
structure Scoring.Listed (A : F32 F) (st : Scoring F) (len : Nat) : Prop where
  scores : ScoresListed A st.scratch.scores st.scored len
  tierOf : st.scratch.tierOf = List.replicate len .none

theorem listed_zeros (len : Nat) : Scoring.Listed A ⟨Scratch.zeros A len, [], []⟩ len := by
  refine ⟨⟨by simp [Scratch.zeros], ?_, by simp⟩, rfl⟩
  intro i x hi hne
  exact absurd (List.eq_of_mem_replicate (List.mem_of_getElem? hi)) hne

variable {xxh3 : Bytes → UInt64} {r : LexReader} {nDocs : F}

/-- One term keeps the lists, and scores every node of the buffer its matches
    post. -/
theorem Scoring.Listed.term {st st' : Scoring F} {e : String × Nat} {len : Nat}
    (hst : st.Listed A len) (h : scoreTerm A xxh3 r nDocs st e = some st') :
    st'.Listed A len ∧ (∀ i ∈ st.scored, i ∈ st'.scored) ∧
      ∃ out, r.lexMatches e.1 (xxh3 (strBytes e.1)) = some out ∧
        ∀ m ∈ out, ∃ o, r.postings m.1 = some o ∧
          ∀ ids, o = some ids → ∀ id ∈ ids, id < len → id ∈ st'.scored := by
  unfold scoreTerm at h
  obtain ⟨out, hout, h⟩ := Option.bind_eq_some_iff.mp h
  obtain ⟨posted, hposted, h⟩ := Option.bind_eq_some_iff.mp h
  have hzero : Touch.Listed ⟨st.scratch.tierOf, []⟩ len := by
    refine ⟨by simp [hst.tierOf], ?_, by simp⟩
    intro i t hi hne
    simp only [hst.tierOf] at hi
    exact absurd (List.eq_of_mem_replicate (List.mem_of_getElem? hi)) hne
  obtain ⟨htouch, -, hposts⟩ := listed_emitMatches hposted hzero
  obtain ⟨d, hd, hscores, hlen, htier, hkept, hdrained⟩ := @drain_run F A e.2
    (idf A nDocs posted.1) posted.2.touched
    ⟨⟨st.scratch.scores, posted.2.tierOf⟩, st.scored, none⟩ len hst.scores htouch.length
    htouch.below
  rw [hd] at h
  cases h
  refine ⟨⟨hscores, ?_⟩, hkept, out, hout, ?_⟩
  · rw [List.eq_replicate_iff]
    refine ⟨hlen, fun t ht => ?_⟩
    obtain ⟨i, hi⟩ := List.mem_iff_getElem?.mp ht
    rcases htier i t hi with hz | ⟨hnot, hold⟩
    · exact hz
    · by_contra hne
      exact hnot (htouch.nonzero i t hold hne)
  · intro m hm
    obtain ⟨o, ho, hids⟩ := hposts m hm
    exact ⟨o, ho, fun ids hids' id hid hlt => hdrained id (hids ids hids' id hid hlt)⟩

/-- All the terms. -/
theorem Scoring.Listed.terms {es : List (String × Nat)} {st st' : Scoring F} {len : Nat}
    (hst : st.Listed A len) (h : es.foldlM (scoreTerm A xxh3 r nDocs) st = some st') :
    st'.Listed A len ∧ (∀ i ∈ st.scored, i ∈ st'.scored) ∧
      ∀ e ∈ es, ∃ out, r.lexMatches e.1 (xxh3 (strBytes e.1)) = some out ∧
        ∀ m ∈ out, ∃ o, r.postings m.1 = some o ∧
          ∀ ids, o = some ids → ∀ id ∈ ids, id < len → id ∈ st'.scored := by
  induction es generalizing st with
  | nil =>
    cases h
    exact ⟨hst, fun _ hi => hi, by simp⟩
  | cons e es ih =>
    rw [List.foldlM_cons] at h
    obtain ⟨st₁, hst₁, hrest⟩ := Option.bind_eq_some_iff.mp h
    obtain ⟨hlisted, hkept, hhead⟩ := hst.term hst₁
    obtain ⟨hend, hkept', htail⟩ := ih hlisted hrest
    refine ⟨hend, fun i hi => hkept' i (hkept i hi), ?_⟩
    intro e' he'
    rcases List.mem_cons.mp he' with rfl | he'
    · obtain ⟨out, hout, hposts⟩ := hhead
      refine ⟨out, hout, fun m hm => ?_⟩
      obtain ⟨o, ho, hids⟩ := hposts m hm
      exact ⟨o, ho, fun ids hids' id hid hlt => hkept' id (hids ids hids' id hid hlt)⟩
    · exact htail e' he'

/-- Two scorings that agree on the first `n` nodes, and only they were scored. -/
structure Scoring.Agree (n : Nat) (a b : Scoring F) : Prop where
  lengths : n ≤ a.scratch.scores.length ∧ n ≤ b.scratch.scores.length ∧
    n ≤ a.scratch.tierOf.length ∧ n ≤ b.scratch.tierOf.length
  scores : ∀ i < n, a.scratch.scores[i]? = b.scratch.scores[i]?
  tierOf : ∀ i < n, a.scratch.tierOf[i]? = b.scratch.tierOf[i]?
  scored : a.scored = b.scored
  best : a.best = b.best
  below : ∀ i ∈ a.scored, i < n
  bestBelow : ∀ p, some p ∈ a.best → p.2 < n

theorem agree_zeros {n la lb : Nat} (ha : n ≤ la) (hb : n ≤ lb) :
    Scoring.Agree n ⟨Scratch.zeros A la, [], []⟩ ⟨Scratch.zeros A lb, [], []⟩ := by
  refine ⟨by simp [Scratch.zeros, ha, hb], ?_, ?_, rfl, rfl, by simp, by simp⟩
  · intro i hi
    simp [Scratch.zeros, lt_of_lt_of_le hi ha, lt_of_lt_of_le hi hb]
  · intro i hi
    simp [Scratch.zeros, lt_of_lt_of_le hi ha, lt_of_lt_of_le hi hb]

/-- A term whose matches read without fault, with postings below `n` or past every
    buffer. -/
def LexReader.TermReads (xxh3 : Bytes → UInt64) (r : LexReader) (n cap : Nat) (term : String) :
    Prop :=
  ∃ out, r.lexMatches term (xxh3 (strBytes term)) = some out ∧ r.PostsBelow n cap out ∧
    ∀ m ∈ out, (r.df m.1).isSome

/-- One such term scores the same in both buffers, without a fault. -/
theorem Scoring.Agree.term {a b : Scoring F} {e : String × Nat} {n cap la lb : Nat}
    (h : Scoring.Agree n a b) (ha : a.Listed A la) (hb : b.Listed A lb) (hla : la ≤ cap)
    (hlb : lb ≤ cap) (hreads : r.TermReads xxh3 n cap e.1) :
    ∃ a' b', scoreTerm A xxh3 r nDocs a e = some a' ∧ scoreTerm A xxh3 r nDocs b e = some b' ∧
      Scoring.Agree n a' b' := by
  obtain ⟨out, hout, hposts, hdf⟩ := hreads
  obtain ⟨hsa, hsb, hta, htb⟩ := h.lengths
  obtain ⟨pa, pb, hpa, hpb, hdfEq, htouch, hlenA, hlenB⟩ := agree_emitMatches hposts hdf
    (a := (0, ⟨a.scratch.tierOf, []⟩)) (b := (0, ⟨b.scratch.tierOf, []⟩)) rfl
    ⟨hta, htb, h.tierOf, rfl, by simp⟩ (by simpa [ha.tierOf] using hla)
    (by simpa [hb.tierOf] using hlb)
  have hdrain : Drain.Agree n (⟨⟨a.scratch.scores, pa.2.tierOf⟩, a.scored, none⟩ : Drain F)
      ⟨⟨b.scratch.scores, pb.2.tierOf⟩, b.scored, none⟩ :=
    ⟨⟨hsa, hsb, htouch.leftLength, htouch.rightLength⟩, h.scores, htouch.tierOf, h.scored, rfl,
      h.below, by simp⟩
  obtain ⟨da, db, hda, hdb, hd⟩ :=
    @Drain.Agree.run F A e.2 (idf A nDocs pa.1) n _ _ _ hdrain htouch.below
  refine ⟨⟨da.scratch, da.scored, a.best ++ [da.best]⟩,
    ⟨db.scratch, db.scored, b.best ++ [db.best]⟩, ?_, ?_, ?_⟩
  · unfold scoreTerm
    rw [hout]
    simp only [Option.bind_eq_bind, Option.bind_some, hpa, hda]
  · unfold scoreTerm
    rw [hout]
    simp only [Option.bind_eq_bind, Option.bind_some, hpb, ← hdfEq, ← htouch.touched, hdb]
  · refine ⟨hd.lengths, hd.scores, hd.tierOf, hd.scored, by rw [h.best, hd.best], hd.below, ?_⟩
    intro p hp
    rcases List.mem_append.mp hp with hp | hp
    · exact h.bestBelow p hp
    · exact hd.bestBelow p (List.mem_singleton.mp hp).symm

/-- All the terms. -/
theorem Scoring.Agree.terms {es : List (String × Nat)} {a b : Scoring F} {n cap la lb : Nat}
    (h : Scoring.Agree n a b) (ha : a.Listed A la) (hb : b.Listed A lb) (hla : la ≤ cap)
    (hlb : lb ≤ cap) (hreads : ∀ e ∈ es, r.TermReads xxh3 n cap e.1) :
    ∃ a' b', es.foldlM (scoreTerm A xxh3 r nDocs) a = some a' ∧
      es.foldlM (scoreTerm A xxh3 r nDocs) b = some b' ∧ Scoring.Agree n a' b' := by
  induction es generalizing a b with
  | nil => exact ⟨a, b, rfl, rfl, h⟩
  | cons e es ih =>
    obtain ⟨a₁, b₁, ha₁, hb₁, h₁⟩ := @Scoring.Agree.term F A xxh3 r nDocs a b e n cap la lb h ha hb
      hla hlb (hreads e (by simp))
    obtain ⟨a', b', ha', hb', h'⟩ := ih h₁ (ha.term ha₁).1 (hb.term hb₁).1
      fun e' he' => hreads e' (by simp [he'])
    refine ⟨a', b', ?_, ?_, h'⟩
    · rw [List.foldlM_cons, ha₁]
      exact ha'
    · rw [List.foldlM_cons, hb₁]
      exact hb'

/-- Resetting what was scored leaves the buffers zero. -/
theorem Scoring.Listed.reset {st : Scoring F} {len : Nat} (h : st.Listed A len) :
    resetScores A st.scratch.scores st.scored = some (List.replicate len (.zero A)) := by
  -- after each step, a nonzero score is one still to be reset
  have hrun : ∀ (ids : List Nat) (scores : List (NodeScore F)), scores.length = len →
      (∀ i ∈ ids, i < len) → (∀ i x, scores[i]? = some x → x ≠ .zero A → i ∈ ids) →
      resetScores A scores ids = some (List.replicate len (.zero A)) := by
    intro ids
    induction ids with
    | nil =>
      intro scores hlen _ hzero
      have heq : scores = List.replicate len (.zero A) := by
        rw [List.eq_replicate_iff]
        refine ⟨hlen, fun x hx => ?_⟩
        obtain ⟨i, hi⟩ := List.mem_iff_getElem?.mp hx
        by_contra hne
        cases hzero i x hi hne
      rw [heq]
      rfl
    | cons id ids ih =>
      intro scores hlen hbelow hzero
      have hstep := ih (scores.set id (.zero A)) (by simpa using hlen)
        (fun i hi => hbelow i (by simp [hi])) (by
          intro i x hi hne
          rw [List.getElem?_set] at hi
          by_cases heq : id = i
          · rw [if_pos heq] at hi
            split_ifs at hi
            exact absurd (Option.some.inj hi).symm hne
          · rw [if_neg heq] at hi
            rcases List.mem_cons.mp (hzero i x hi hne) with rfl | hmem
            · exact absurd rfl heq
            · exact hmem)
      unfold resetScores at hstep ⊢
      rw [List.foldlM_cons, if_pos (hlen ▸ hbelow id (by simp))]
      exact hstep
  exact hrun st.scored st.scratch.scores h.scores.length h.scores.below h.scores.nonzero

/-- Growing zero buffers gives zero buffers. -/
theorem grow_zeros (len n : Nat) :
    (Scratch.zeros A len).grow A n = Scratch.zeros A (max len n) := by
  unfold Scratch.grow Scratch.zeros
  by_cases h : len < n
  · have hres : ∀ {α : Type} (x : α), resize (List.replicate len x) n x = List.replicate n x := by
      intro α x
      unfold resize
      rw [List.take_replicate, List.length_replicate, List.replicate_append_replicate,
        Nat.min_eq_right (by omega)]
      congr 1
      omega
    simp only [List.length_replicate, h, if_true, hres, max_eq_right (le_of_lt h)]
  · simp only [List.length_replicate, h, if_false, max_eq_left (not_lt.mp h)]

end terms

end GraphR
