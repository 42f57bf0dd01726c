import GraphR.Store.SearchReads
import GraphR.Store.Safe
import GraphR.Format.Postings

/-! # Search reads of a base file

    The reads a query makes of the lexicon sections, the postings and the degrees of
    a base file, without checks: each faults when it indexes out of bounds. What
    `check_counts` verifies makes all of them sound but one (`lexReader_sound`): a
    postings range is bounded as an exact sum and read as a wrapping one, and the
    node ids it decodes to are not bounded at all. -/

namespace GraphR

open Wal ByteLib BaseFile LookupLib

namespace BaseFile

/-! ## Reads -/

section reads
variable (s : SectionKind → Bytes)

/-- The postings of a lexicon record. The end of the range is a `u32` sum. -/
def postingsOf (r : Bytes) : Option (Option (List Nat)) :=
  let start := LexRec.postingsOff r
  let stop := LexRec.postingsOff r + LexRec.postingsLen r
  if start ≤ stop ∧ stop.toNat ≤ (s .postings).length then
    some (decodePostings (range (s .postings) start.toNat (stop.toNat - start.toNat)))
  else none

/-- The token positions of trigram record `i`. -/
def triIdsAt (i : Nat) : Option (List Nat) := do
  let off ← getU32 (s .trigrams) (i * triLen + 4)
  let len ← getU32 (s .trigrams) (i * triLen + 8)
  if (off.toNat + len.toNat) * 4 ≤ (s .triPostings).length then
    some ((words (range (s .triPostings) (off.toNat * 4) (len.toNat * 4))).map UInt32.toNat)
  else none

/-- The lexicon reads of a base file. -/
def lexReader : LexReader where
  tokenCount := (s .lexicon).length / lexLen
  tokenHash := fun i => (slice (s .lexicon) lexLen i).map LexRec.tokenHash
  token := fun i => do
    let r ← slice (s .lexicon) lexLen i
    let label ← labelAt (s .labels) (LexRec.labelOff r)
    some (label.getD "")
  df := fun i => (slice (s .lexicon) lexLen i).map fun r => (LexRec.df r).toNat
  postings := fun i => (slice (s .lexicon) lexLen i).bind (postingsOf s)
  orderCount := (s .lexOrder).length / 4
  order := fun k => (getU32 (s .lexOrder) (k * 4)).map UInt32.toNat
  triCount := (s .trigrams).length / triLen
  triKey := fun i => (getU32 (s .trigrams) (i * triLen)).map UInt32.toNat
  triIds := triIdsAt s

/-- Where a node's outbound run starts and ends. -/
def outRunAt (id : Nat) : Option (Option (UInt32 × UInt32)) :=
  if (s .edgeIndex).isEmpty then some none
  else do
    let stop ← getU32 (s .edgeIndex) ((id + 1) * 4)
    let start ← getU32 (s .edgeIndex) (id * 4)
    some (some (start, stop))

/-- The search reads of a base file. -/
def searchReader : SearchReader :=
  { lexReader s with
    outRun := outRunAt s
    inDegree := fun id => (slice (s .nodes) nodeLen id).map NodeRec.inDegree }

end reads

/-! ## Accepted sections -/

section sound
variable {s : SectionKind → Bytes} {h : Header}

theorem mem_words {bs : Bytes} {w : UInt32} :
    w ∈ words bs ↔ ∃ i < bs.length / 4, u32At bs (i * 4) = w := by
  simp [words]

/-- Every lexicon record of an accepted file has its label. -/
theorem checkLexicon_label {lex postings labels : Bytes} {k i : Nat} {prev : Option UInt64} {v : Unit}
    (hok : checkLexicon lex postings labels k i prev = .ok v) :
    ∀ j, i ≤ j → j < i + k →
      checkLabel labels (LexRec.labelOff (recordAt lex lexLen j)) = .ok () := by
  induction k generalizing i prev with
  | zero =>
    intro j hij hj
    omega
  | succ k ih =>
    rw [checkLexicon] at hok
    simp only [FaultLib.bind_ok] at hok
    obtain ⟨_, -, _, -, ⟨⟩, hlabel, hrest⟩ := hok
    intro j hij hj
    rcases Nat.eq_or_lt_of_le hij with rfl | hlt
    · exact hlabel
    · exact ih hrest j hlt (by omega)

/-- The lexicon of an accepted file reads without faults, its indices naming
    records. -/
theorem lexReader_sound {v : Unit} (hlen : (s .lexicon).length = h.tokenCount.toNat * lexLen)
    (hok : checkTokens s h = .ok v) : (lexReader s).Sound := by
  unfold checkTokens at hok
  simp only [FaultLib.bind_ok, FaultLib.check_ok, FaultLib.each_ok, List.mem_range] at hok
  obtain ⟨_, ⟨horder, hwords⟩, _, ⟨htri, -⟩, _, htrigrams, hlexicon⟩ := hok
  have hcount : (lexReader s).tokenCount = h.tokenCount.toNat := by
    show (s .lexicon).length / lexLen = _
    rw [hlen]
    exact Nat.mul_div_cancel _ (by decide)
  have hrec : ∀ i < (lexReader s).tokenCount,
      slice (s .lexicon) lexLen i = some (recordAt (s .lexicon) lexLen i) := by
    intro i hi
    rw [hcount] at hi
    exact slice_isSome hlen hi
  have htriRec : ∀ j < (s .trigrams).length / triLen,
      j * triLen + 12 ≤ (s .trigrams).length := by
    intro j hj
    have hw : triLen = 12 := rfl
    rw [hw] at hj ⊢
    omega
  refine ⟨?_, ?_, ?_, ?_, ?_, ?_⟩
  · intro i hi
    show ((slice (s .lexicon) lexLen i).map LexRec.tokenHash).isSome
    rw [hrec i hi]
    rfl
  · intro i hi
    obtain ⟨l, hl⟩ := Option.isSome_iff_exists.mp (labelAt_isSome
      (checkLexicon_label hlexicon i (Nat.zero_le i) (by rw [hcount] at hi; omega)))
    simp [lexReader, hrec i hi, hl]
  · intro i hi
    show ((slice (s .lexicon) lexLen i).map fun r => (LexRec.df r).toNat).isSome
    rw [hrec i hi]
    rfl
  · intro k hk
    have hk' : k < (s .lexOrder).length / 4 := hk
    refine ⟨(u32At (s .lexOrder) (k * 4)).toNat, ?_, ?_⟩
    · show (getU32 (s .lexOrder) (k * 4)).map UInt32.toNat = _
      rw [getU32_of_inBounds (by omega)]
      rfl
    · rw [hcount]
      have hlt := List.all_eq_true.mp hwords _ (mem_words.mpr ⟨k, hk', rfl⟩)
      exact UInt32.lt_iff_toNat_lt.mp (of_decide_eq_true hlt)
  · intro j hj
    have hin := htriRec j hj
    show ((getU32 (s .trigrams) (j * triLen)).map UInt32.toNat).isSome
    rw [getU32_of_inBounds (by omega)]
    rfl
  · intro j hj
    have hin := htriRec j hj
    have hcheck := htrigrams j hj
    unfold checkTrigram at hcheck
    rw [FaultLib.check_ok] at hcheck
    obtain ⟨hrange, hids⟩ := hcheck
    have hoff : u32At (recordAt (s .trigrams) triLen j) 4 = u32At (s .trigrams) (j * triLen + 4) := by
      rw [recordAt, u32At_range (by decide)]
    have hcnt : u32At (recordAt (s .trigrams) triLen j) 8 = u32At (s .trigrams) (j * triLen + 8) := by
      rw [recordAt, u32At_range (by decide)]
    rw [hoff, hcnt] at hrange hids
    refine ⟨(words (range (s .triPostings) ((u32At (s .trigrams) (j * triLen + 4)).toNat * 4)
      ((u32At (s .trigrams) (j * triLen + 8)).toNat * 4))).map UInt32.toNat, ?_, ?_⟩
    · show triIdsAt s j = some _
      unfold triIdsAt
      rw [getU32_of_inBounds (by omega), getU32_of_inBounds (by omega)]
      simp only [Option.bind_eq_bind, Option.bind_some]
      rw [if_pos hrange]
    · intro i hi
      obtain ⟨w, hw, rfl⟩ := List.mem_map.mp hi
      rw [hcount]
      exact UInt32.lt_iff_toNat_lt.mp (of_decide_eq_true (List.all_eq_true.mp hids w hw))

/-- The degrees of an accepted file read without faults. -/
theorem searchReader_degrees (hnodes : (s .nodes).length = h.nodeCount.toNat * nodeLen)
    (hidx : 0 < h.nodeCount.toNat → (s .edgeIndex).length = (h.nodeCount.toNat + 1) * 4) :
    (searchReader s).DegreesRead h.nodeCount.toNat := by
  intro id hid
  have hlen := hidx (Nat.lt_of_le_of_lt (Nat.zero_le id) hid)
  have hnonempty : (s .edgeIndex).isEmpty = false := by
    cases hidx' : s .edgeIndex with
    | nil =>
      rw [hidx'] at hlen
      simp at hlen
    | cons b bs => rfl
  have hrun : outRunAt s id = some (some
      (u32At (s .edgeIndex) (id * 4), u32At (s .edgeIndex) ((id + 1) * 4))) := by
    unfold outRunAt
    rw [hnonempty, getU32_of_inBounds (by omega), getU32_of_inBounds (by omega)]
    rfl
  unfold SearchReader.degree
  show ((outRunAt s id).bind fun run => ((slice (s .nodes) nodeLen id).map NodeRec.inDegree).bind
    fun inbound => some (run.elim 0 (fun e => e.2 - e.1) + inbound)).isSome
  rw [hrun, slice_isSome hnodes hid]
  rfl

end sound

end BaseFile

end GraphR
