import GraphR.Store.RenderedRows
import GraphR.Store.SearchImage

/-! # Rendered lexicons read back

    The token records with their labels and postings, the string order and the
    trigrams, each as it is written: every token so far reads back
    (`LexPass.Holds`), and so does every trigram (`TriPass.Holds`). -/

namespace GraphR

open Wal ByteLib TableLib BaseFile

namespace BaseFile

/-! ## Postings -/

theorem toNat_ofNat_u32 {n : Nat} (h : n < 2 ^ 32) : (UInt32.ofNat n).toNat = n := by
  rw [UInt32.toNat_ofNat']
  exact Nat.mod_eq_of_lt h

/-- Ascending ids encode, and decode back. -/
theorem decode_encodePostings {ids : List Nat} (hasc : ids.Pairwise (· < ·))
    (hids : ∀ i ∈ ids, i < 2 ^ 32) :
    ∃ run, encodePostings (ids.map UInt32.ofNat) = some run ∧ decodePostings run = some ids := by
  have hwords : (ids.map UInt32.ofNat).Pairwise (· < ·) := by
    rw [List.pairwise_map]
    refine hasc.imp_of_mem ?_
    intro a b ha hb hab
    rw [UInt32.lt_iff_toNat_lt, toNat_ofNat_u32 (hids a ha), toNat_ofNat_u32 (hids b hb)]
    exact hab
  obtain ⟨run, hrun, hdecode⟩ := @decode_encodeFrom _ hwords none (by simp)
  refine ⟨run, hrun, ?_⟩
  have hback : decodeWords run = some (ids.map UInt32.ofNat) := hdecode _ le_rfl
  rw [← decodeWords_eq, hback, Option.map_some, List.map_map]
  congr 1
  conv_rhs => rw [← List.map_id ids]
  exact List.map_congr_left fun i hi => toNat_ofNat_u32 (hids i hi)

/-! ## Token records -/

section record
variable (hash : UInt64) (df off len labelOff : UInt32)

@[simp] theorem length_writeLexRec : (writeLexRec hash df off len labelOff).length = lexLen := by
  simp [writeLexRec, lexLen]

theorem fields_writeLexRec :
    LexRec.tokenHash (writeLexRec hash df off len labelOff) = hash ∧
    LexRec.df (writeLexRec hash df off len labelOff) = df ∧
    LexRec.postingsOff (writeLexRec hash df off len labelOff) = off ∧
    LexRec.postingsLen (writeLexRec hash df off len labelOff) = len ∧
    LexRec.labelOff (writeLexRec hash df off len labelOff) = labelOff := by
  simp [LexRec.tokenHash, LexRec.df, LexRec.postingsOff, LexRec.postingsLen, LexRec.labelOff,
    writeLexRec, u32At_append_right]

end record

namespace LexPass

def sec (p : LexPass) : SectionKind → Bytes
  | .labels => p.labels
  | .lexicon => p.lexicon
  | .postings => p.postings
  | _ => []

theorem sec_extends {p q : LexPass} (hl : p.labels <+: q.labels) (hx : p.lexicon <+: q.lexicon)
    (hp : p.postings <+: q.postings) : Extends p.sec q.sec := by
  intro k
  cases k <;> first | exact hl | exact hx | exact hp | exact List.prefix_rfl

/-- Record `i` of the lexicon is the token `e`: its hash and frequency, its label,
    and postings that decode to its ids, their range an exact sum. -/
def TokenAt (s : SectionKind → Bytes) (i : Nat) (e : UInt64 × String × List Nat) : Prop :=
  ∃ r, slice (s .lexicon) lexLen i = some r ∧ LexRec.tokenHash r = e.1 ∧
    LexRec.df r = UInt32.ofNat e.2.2.length ∧
    labelAt (s .labels) (LexRec.labelOff r) = some (some e.2.1) ∧
    (LexRec.postingsOff r).toNat + (LexRec.postingsLen r).toNat ≤ (s .postings).length ∧
    decodePostings (range (s .postings) (LexRec.postingsOff r).toNat (LexRec.postingsLen r).toNat)
      = some e.2.2

theorem TokenAt.extends {s s' : SectionKind → Bytes} (h : Extends s s') {i : Nat}
    {e : UInt64 × String × List Nat} (hat : TokenAt s i e) : TokenAt s' i e := by
  obtain ⟨r, hr, hhash, hdf, hlabel, hin, hids⟩ := hat
  have hpost := h .postings
  refine ⟨r, slice_extends (h .lexicon) hr, hhash, hdf, labelAt_extends (h .labels) hlabel,
    hin.trans hpost.length_le, ?_⟩
  -- the range of the postings is in the old heap, which starts the new one
  obtain ⟨post, hpost⟩ := hpost
  rw [← hpost, range_append_left hin]
  exact hids

/-- What one token has to satisfy to be written. -/
structure TokenFits (e : UInt64 × String × List Nat) : Prop where
  label : strLen e.2.1 < 2 ^ 16
  ascending : e.2.2.Pairwise (· < ·)
  ids : ∀ i ∈ e.2.2, i < 2 ^ 32

/-- The pass after the tokens `done`. -/
structure Holds (p₀ p : LexPass) (done : List (UInt64 × String × List Nat)) : Prop where
  labels : p₀.labels <+: p.labels
  length : p.lexicon.length = done.length * lexLen
  reads : ∀ i (hi : i < done.length), TokenAt p.sec i done[i]

/-- The pass goes through. -/
theorem foldlM_isSome {done : List (UInt64 × String × List Nat)} (hdone : ∀ e ∈ done, TokenFits e)
    (p : LexPass) : (done.foldlM push p).isSome := by
  induction done generalizing p with
  | nil => rfl
  | cons e done ih =>
    have he := hdone e List.mem_cons_self
    obtain ⟨run, hrun, -⟩ := decode_encodePostings he.ascending he.ids
    rw [List.foldlM_cons, push, hrun]
    exact ih (fun e' he' => hdone e' (List.mem_cons_of_mem _ he')) _

theorem Holds.snoc {p₀ p q : LexPass} {done : List (UInt64 × String × List Nat)}
    {e : UInt64 × String × List Nat} (h : Holds p₀ p done) (he : TokenFits e)
    (hq : p.push e = some q) (hlabels : q.labels.length < 2 ^ 32)
    (hpostings : q.postings.length < 2 ^ 32) : Holds p₀ q (done ++ [e]) := by
  obtain ⟨run, hrun, hdecode⟩ := decode_encodePostings he.ascending he.ids
  rw [push, hrun, Option.bind_eq_bind, Option.bind_some, Option.some.injEq] at hq
  subst hq
  simp only at hlabels hpostings
  obtain ⟨hhash, hdf, hoff, hlen, hlabelOff⟩ := fields_writeLexRec e.1 (UInt32.ofNat e.2.2.length)
    (UInt32.ofNat p.postings.length)
    (UInt32.ofNat (p.postings ++ run).length - UInt32.ofNat p.postings.length)
    (pushLabel p.labels e.2.1).1
  have hsum : (p.postings ++ run).length = p.postings.length + run.length := List.length_append
  -- both ends of the range are below 4 GiB, so the cast difference is the length
  have hoffNat : (UInt32.ofNat p.postings.length).toNat = p.postings.length :=
    toNat_ofNat_u32 (by omega)
  have hlenNat : (UInt32.ofNat (p.postings ++ run).length - UInt32.ofNat p.postings.length).toNat
      = run.length := by
    rw [UInt32.toNat_sub_of_le _ _ (by
      rw [UInt32.le_iff_toNat_le, hoffNat, toNat_ofNat_u32 hpostings]
      omega), hoffNat, toNat_ofNat_u32 hpostings, hsum, Nat.add_sub_cancel_left]
  refine ⟨h.labels.trans (List.prefix_append _ _), ?_, ?_⟩
  · simp only [List.length_append, length_writeLexRec, h.length, List.length_singleton]
    rw [Nat.add_mul, Nat.one_mul]
  · intro i hi
    rcases Nat.lt_or_ge i done.length with hlt | hge
    · rw [List.getElem_append_left hlt]
      exact (h.reads i hlt).extends (sec_extends (List.prefix_append _ _) (List.prefix_append _ _)
        (List.prefix_append _ _))
    · -- the token just written
      obtain rfl : i = done.length := by
        rw [List.length_append, List.length_singleton] at hi
        omega
      rw [List.getElem_append_right le_rfl]
      simp only [Nat.sub_self, List.getElem_singleton]
      refine ⟨_, slice_last h.length (length_writeLexRec _ _ _ _ _), hhash, hdf, ?_, ?_, ?_⟩
      · rw [hlabelOff]
        exact labelAt_pushLabel he.label hlabels
      · rw [hoff, hlen, hoffNat, hlenNat]
        exact Nat.le_of_eq hsum.symm
      · rw [hoff, hlen, hoffNat, hlenNat]
        have hrange : range (p.postings ++ run) p.postings.length run.length = run := by
          rw [range_append_right le_rfl, Nat.sub_self]
          exact range_zero_self rfl
        exact (congrArg decodePostings hrange).trans hdecode

/-- The whole pass: where the labels and the postings stay below 4 GiB, every token
    reads back. -/
theorem holds_foldlM {done : List (UInt64 × String × List Nat)} (hdone : ∀ e ∈ done, TokenFits e)
    {p₀ q : LexPass} (hp₀ : p₀.lexicon = []) (hq : done.foldlM push p₀ = some q)
    (hlabels : q.labels.length < 2 ^ 32) (hpostings : q.postings.length < 2 ^ 32) :
    Holds p₀ q done := by
  -- the heaps only grow, so the bounds on the last ones hold for all before
  induction done using List.reverseRecOn generalizing q with
  | nil =>
    cases hq
    refine ⟨List.prefix_rfl, by rw [hp₀]; rfl, ?_⟩
    intro i hi
    cases hi
  | append_singleton done e ih =>
    rw [List.foldlM_append] at hq
    obtain ⟨p, hp, hq⟩ := Option.bind_eq_some_iff.mp hq
    rw [List.foldlM_cons] at hq
    obtain ⟨q', hq', hlast⟩ := Option.bind_eq_some_iff.mp hq
    cases hlast
    have hstep := hq'
    obtain ⟨run, -, hpush⟩ := Option.bind_eq_some_iff.mp hstep
    cases hpush
    have hle : p.labels.length ≤ (pushLabel p.labels e.2.1).2.length :=
      (List.prefix_append p.labels _).length_le
    simp only [List.length_append] at hpostings hlabels
    exact (ih (fun e' he' => hdone e' (List.mem_append_left _ he')) hp (by omega) (by omega)).snoc
      (hdone e (by simp)) hq' hlabels (by rw [List.length_append]; exact hpostings)

end LexPass

/-! ## Words -/

theorem words_flatMap (ws : List UInt32) : words (ws.flatMap putU32) = ws := by
  unfold words
  rw [length_words, Nat.mul_div_cancel _ (by decide)]
  apply List.ext_getElem
  · simp
  · intro i hi hi'
    have h := u32At_words hi' []
    rw [List.append_nil] at h
    simpa using h

theorem flatMap_ofNat (ids : List Nat) :
    (ids.flatMap fun i => putU32 (UInt32.ofNat i)) = (ids.map UInt32.ofNat).flatMap putU32 := by
  rw [List.flatMap_map]

theorem map_toNat_ofNat {ids : List Nat} (h : ∀ i ∈ ids, i < 2 ^ 32) :
    (ids.map UInt32.ofNat).map UInt32.toNat = ids := by
  rw [List.map_map]
  conv_rhs => rw [← List.map_id ids]
  exact List.map_congr_left fun i hi => toNat_ofNat_u32 (h i hi)

theorem getU32_extends {bs bs' : Bytes} {off : Nat} {v : UInt32} (h : bs <+: bs')
    (hv : getU32 bs off = some v) : getU32 bs' off = some v := by
  obtain ⟨post, rfl⟩ := h
  unfold getU32 at hv ⊢
  split_ifs at hv with hin
  have hend : off + 4 ≤ bs.length := hin
  have hin' : inBounds (bs ++ post) off 4 := by
    rw [inBounds, List.length_append]
    omega
  rw [if_pos hin', u32At_append_left hend, hv]

/-! ## Trigrams -/

namespace TriPass

@[simp] theorem length_writeTri (g : Nat) (off len : UInt32) : (writeTri g off len).length = triLen := by
  simp [writeTri, triLen]

/-- Record `i` is the trigram `e`: its key, and its positions in the postings. -/
structure TriAt (trigrams postings : Bytes) (i : Nat) (e : Nat × List Nat) : Prop where
  key : getU32 trigrams (i * triLen) = some (UInt32.ofNat e.1)
  ids : ∃ off len, getU32 trigrams (i * triLen + 4) = some off ∧
    getU32 trigrams (i * triLen + 8) = some len ∧
    (off.toNat + len.toNat) * 4 ≤ postings.length ∧
    words (range postings (off.toNat * 4) (len.toNat * 4)) = e.2.map UInt32.ofNat

theorem TriAt.extends {trigrams trigrams' postings postings' : Bytes} {i : Nat} {e : Nat × List Nat}
    (ht : trigrams <+: trigrams') (hp : postings <+: postings') (h : TriAt trigrams postings i e) :
    TriAt trigrams' postings' i e := by
  obtain ⟨off, len, hoff, hlen, hin, hids⟩ := h.ids
  refine ⟨getU32_extends ht h.key, off, len, getU32_extends ht hoff, getU32_extends ht hlen,
    hin.trans hp.length_le, ?_⟩
  obtain ⟨post, rfl⟩ := hp
  rw [range_append_left (by omega)]
  exact hids

/-- The positions of all the trigrams, in order. -/
def idsOf (done : List (Nat × List Nat)) : List Nat := done.flatMap Prod.snd

/-- The pass after the trigrams `done`. -/
structure Holds (p : TriPass) (done : List (Nat × List Nat)) : Prop where
  length : p.trigrams.length = done.length * triLen
  postings : p.postings = ((idsOf done).map UInt32.ofNat).flatMap putU32
  reads : ∀ i (hi : i < done.length), TriAt p.trigrams p.postings i done[i]

theorem Holds.snoc {p : TriPass} {done : List (Nat × List Nat)} {e : Nat × List Nat}
    (h : Holds p done) (hfit : (idsOf (done ++ [e])).length < 2 ^ 32) :
    Holds (p.push e) (done ++ [e]) := by
  have hids : idsOf (done ++ [e]) = idsOf done ++ e.2 := by simp [idsOf]
  rw [hids, List.length_append] at hfit
  -- the offset is counted in words: the ids posted so far
  have hcount : p.postings.length / 4 = (idsOf done).length := by
    rw [h.postings, length_words, List.length_map, Nat.mul_div_cancel _ (by decide)]
  have hplen : p.postings.length = (idsOf done).length * 4 := by
    rw [h.postings, length_words, List.length_map]
  have hgrow : (p.push e).postings = p.postings ++ (e.2.map UInt32.ofNat).flatMap putU32 := by
    rw [← flatMap_ofNat]
    rfl
  have hrun : ((e.2.map UInt32.ofNat).flatMap putU32).length = e.2.length * 4 := by
    rw [length_words, List.length_map]
  refine ⟨?_, ?_, ?_⟩
  · simp only [push, List.length_append, length_writeTri, h.length, List.length_singleton]
    rw [Nat.add_mul, Nat.one_mul]
  · rw [hgrow, h.postings, hids, List.map_append, List.flatMap_append]
  · intro i hi
    rcases Nat.lt_or_ge i done.length with hlt | hge
    · rw [List.getElem_append_left hlt]
      exact (h.reads i hlt).extends (List.prefix_append _ _) (List.prefix_append _ _)
    · -- the trigram just written
      obtain rfl : i = done.length := by
        rw [List.length_append, List.length_singleton] at hi
        omega
      rw [List.getElem_append_right le_rfl]
      simp only [Nat.sub_self, List.getElem_singleton]
      -- the fields of the record, at its place in the table
      have hat : ∀ k, k + 4 ≤ triLen → getU32 (p.push e).trigrams (done.length * triLen + k)
          = some (u32At (writeTri e.1 (UInt32.ofNat (p.postings.length / 4))
              (UInt32.ofNat e.2.length)) k) := by
        intro k hk
        have hlen : (p.push e).trigrams.length = done.length * triLen + triLen := by
          simp only [push, List.length_append, length_writeTri, h.length]
        rw [getU32_of_inBounds (by omega), push]
        simp only
        rw [u32At_append_right (by rw [h.length]; exact Nat.le_add_right _ _), h.length,
          Nat.add_sub_cancel_left]
      have hat₄ : u32At (writeTri e.1 (UInt32.ofNat (p.postings.length / 4))
          (UInt32.ofNat e.2.length)) 4 = UInt32.ofNat (idsOf done).length := by
        rw [writeTri, u32At_append_right (by simp), length_putU32, hcount]
        exact u32At_putU32_append _ _
      have hat₈ : u32At (writeTri e.1 (UInt32.ofNat (p.postings.length / 4))
          (UInt32.ofNat e.2.length)) 8 = UInt32.ofNat e.2.length := by
        rw [writeTri, u32At_append_right (by simp), u32At_append_right (by simp)]
        exact u32At_putU32 _
      refine ⟨?_, UInt32.ofNat (idsOf done).length, UInt32.ofNat e.2.length, ?_, ?_, ?_, ?_⟩
      · have hkey := hat 0 (by decide)
        rw [Nat.add_zero] at hkey
        rw [hkey, writeTri, u32At_putU32_append]
      · rw [hat 4 (by decide), hat₄]
      · rw [hat 8 (by decide), hat₈]
      · rw [toNat_ofNat_u32 (by omega), toNat_ofNat_u32 (by omega), hgrow, List.length_append, hrun,
          hplen]
        omega
      · rw [toNat_ofNat_u32 (by omega), toNat_ofNat_u32 (by omega), hgrow, ← hplen, ← hrun,
          range_append_right le_rfl, Nat.sub_self, range_zero_self rfl, words_flatMap]

/-- The whole pass: where the positions are fewer than 2³², every trigram reads
    back. -/
theorem holds_foldl {done : List (Nat × List Nat)} (hfit : (idsOf done).length < 2 ^ 32) :
    Holds (done.foldl push ⟨[], []⟩) done := by
  induction done using List.reverseRecOn with
  | nil =>
    refine ⟨rfl, rfl, ?_⟩
    intro i hi
    cases hi
  | append_singleton done e ih =>
    have hle : (idsOf done).length ≤ (idsOf (done ++ [e])).length := by simp [idsOf]
    rw [List.foldl_append, List.foldl_cons, List.foldl_nil]
    exact (ih (by omega)).snoc hfit

end TriPass

end BaseFile

end GraphR
