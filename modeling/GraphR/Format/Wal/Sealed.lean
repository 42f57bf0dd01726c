import GraphR.Format.Wal.Record

/-! # Sealed records

    A `SealedRecord` is what one committed transaction is: a first sequence
    number and a non-empty list of valid ops, within the record cap and the
    range of sequence numbers. Its bytes are exactly what `RecordBuf::seal`
    leaves (`seal_eq_sealed`), and both readers give it back: `nextRecord`
    accepts it wherever it lies (`nextRecord_sealed`), and the trusted walk
    finds it by its length field (`nextTrusted_sealed`). -/

namespace GraphR.Wal

open ByteLib

/-! ## Valid ops -/

/-- The bytes `c` are one op that `validate_op` accepts. -/
def ValidOp (c : Bytes) : Prop := (validateOp c).isOk = true

namespace ValidOp

variable {c : Bytes}

theorem header_ok (h : ValidOp c) :
    opHeaderLen ≤ c.length ∧ c.length ≤ maxOp ∧ (u32At c 0).toNat = c.length := by
  unfold ValidOp validateOp at h
  by_cases hbad : c.length < opHeaderLen ∨ maxOp < c.length ∨ (u32At c 0).toNat ≠ c.length
  · rw [if_pos hbad] at h
    exact absurd h (by simp [Except.isOk, Except.toBool])
  · push Not at hbad
    exact hbad

theorem length_ge (h : ValidOp c) : 16 ≤ c.length := h.header_ok.1

theorem length_le (h : ValidOp c) : c.length ≤ maxOp := h.header_ok.2.1

theorem length_eq (h : ValidOp c) : (u32At c 0).toNat = c.length := h.header_ok.2.2

/-- The view `validate_op` returns is the trusted one. -/
theorem validateOp_eq (h : ValidOp c) : ∃ v, validateOp c = .ok v ∧ OpView.trusted c = some v := by
  unfold ValidOp at h
  cases hv : validateOp c with
  | error e => rw [hv] at h; exact absurd h (by simp [Except.isOk, Except.toBool])
  | ok v =>
    refine ⟨v, rfl, ?_⟩
    unfold validateOp at hv
    cases hk : checkKind c with
    | error e => simp only [hk, bind, Except.bind] at hv; split_ifs at hv
    | ok u =>
      cases ht : OpView.trusted c with
      | none => simp only [hk, ht, bind, Except.bind] at hv; split_ifs at hv
      | some v' =>
        simp only [hk, ht, bind, Except.bind] at hv
        split_ifs at hv
        all_goals cases hv; rfl

end ValidOp

/-- `n` ops of at least 16 bytes each take at least `16 n` bytes. -/
theorem length_flatten_ge {cs : List Bytes} (h : ∀ c ∈ cs, ValidOp c) :
    16 * cs.length ≤ cs.flatten.length := by
  induction cs with
  | nil => simp
  | cons c cs ih =>
    have hc := (h c (by simp)).length_ge
    have hcs := ih (fun c' hc' => h c' (by simp [hc']))
    simp only [List.length_cons, List.flatten_cons, List.length_append]
    omega

/-! ## Runs of ops

    Ops lie back to back, each starting with its own length. Both walks are
    followed through `pre ++ cs.flatten` from the end of `pre`, by induction on
    the ops left. -/

/-- Where each op of a run lies, the first one at `pos`. -/
def chunksAt : Nat → List Bytes → List (Nat × Bytes)
  | _, [] => []
  | pos, c :: cs => (pos, c) :: chunksAt (pos + c.length) cs

theorem checkOps_flatten (pos count : Nat) {cs : List Bytes} (h : ∀ c ∈ cs, ValidOp c)
    (pre : Bytes) (i : Nat) :
    checkOps (pre ++ cs.flatten) pos count cs.length i pre.length
      = .ok (pre ++ cs.flatten).length := by
  induction cs generalizing pre i with
  | nil => simp [checkOps]
  | cons c cs ih =>
    have hc := h c (by simp)
    have hge := hc.length_ge
    have hle := hc.length_le
    have hlen : (u32At (pre ++ (c :: cs).flatten) pre.length).toNat = c.length := by
      rw [u32At_append_right le_rfl, Nat.sub_self, List.flatten_cons,
        u32At_append_left (by omega), hc.length_eq]
    have hsub : (pre ++ (c :: cs).flatten).length - pre.length = c.length + cs.flatten.length := by
      simp
    have hop : range (pre ++ (c :: cs).flatten) pre.length c.length = c := by
      rw [range_append_right le_rfl, Nat.sub_self, List.flatten_cons, range_zero_append rfl]
    obtain ⟨v, hv, -⟩ := hc.validateOp_eq
    have hrest := ih (fun c' hc' => h c' (by simp [hc'])) (pre ++ c) (i + 1)
    rw [List.length_cons, checkOps, hsub, if_neg (by unfold opHeaderLen; omega)]
    simp only [hlen]
    rw [if_neg (by unfold opHeaderLen; omega), hop, hv]
    simpa [List.flatten_cons, List.append_assoc] using hrest

theorem opWalk_flatten {cs : List Bytes} (h : ∀ c ∈ cs, ValidOp c) (pre : Bytes) {fuel : Nat}
    (hf : cs.length ≤ fuel) :
    opWalk (pre ++ cs.flatten) fuel pre.length = chunksAt pre.length cs := by
  induction cs generalizing pre fuel with
  | nil =>
    cases fuel with
    | zero => rfl
    | succ fuel => simp [opWalk, chunksAt, opHeaderLen]
  | cons c cs ih =>
    cases fuel with
    | zero => simp at hf
    | succ fuel =>
      have hc := h c (by simp)
      have hge := hc.length_ge
      have hlen : (u32At (pre ++ (c :: cs).flatten) pre.length).toNat = c.length := by
        rw [u32At_append_right le_rfl, Nat.sub_self, List.flatten_cons,
          u32At_append_left (by omega), hc.length_eq]
      have hsub : (pre ++ (c :: cs).flatten).length - pre.length
          = c.length + cs.flatten.length := by simp
      have hop : range (pre ++ (c :: cs).flatten) pre.length c.length = c := by
        rw [range_append_right le_rfl, Nat.sub_self, List.flatten_cons, range_zero_append rfl]
      have hf' : cs.length ≤ fuel := by simpa using hf
      have hrest := ih (fun c' hc' => h c' (by simp [hc'])) (pre ++ c) hf'
      rw [opWalk, if_neg (by simp), hsub, if_neg (by unfold opHeaderLen; omega)]
      simp only [hlen]
      rw [if_pos (by unfold opHeaderLen; omega), hop, chunksAt]
      congr 1
      simpa [List.flatten_cons, List.append_assoc] using hrest

theorem filterMap_chunksAt (pos : Nat) (cs : List Bytes) :
    ((chunksAt pos cs).filterMap fun p => OpView.trusted p.2) = cs.filterMap OpView.trusted := by
  induction cs generalizing pos with
  | nil => rfl
  | cons c cs ih => simp only [chunksAt, List.filterMap_cons, ih]

/-- Numbering the ops of a run by a parallel counter. -/
theorem chunksAt_zip_range (pos k : Nat) (cs : List Bytes) :
    ((chunksAt pos cs).zip (List.range' k cs.length)).map (fun p => (p.2, p.1.2))
      = (cs.zipIdx k).map fun p => (p.2, p.1) := by
  induction cs generalizing pos k with
  | nil => rfl
  | cons c cs ih => simp [chunksAt, List.range'_succ, List.zipIdx_cons, ih]

/-! ## The record -/

/-- One transaction, sealed. -/
structure SealedRecord where
  firstSeq : UInt64
  /-- The encoded ops, in order. -/
  ops : List Bytes
  ops_ne : ops ≠ []
  ops_valid : ∀ c ∈ ops, ValidOp c
  size_le : recordHeaderLen + ops.flatten.length ≤ maxRecord
  first_ne : firstSeq ≠ 0
  no_overflow : firstSeq.toNat + (ops.length - 1) < 2 ^ 64

namespace SealedRecord

variable (r : SealedRecord)

/-- Its length in bytes. -/
def len : Nat := recordHeaderLen + r.ops.flatten.length

/-- Sequence number of its last op. -/
def lastSeq : Nat := r.firstSeq.toNat + r.ops.length - 1

/-- Its ops with their sequence numbers. -/
def seqOps : List (Nat × Bytes) := (r.ops.zipIdx r.firstSeq.toNat).map fun p => (p.2, p.1)

theorem ops_pos : 0 < r.ops.length := List.length_pos_iff.mpr r.ops_ne

theorem firstSeq_pos : 0 < r.firstSeq.toNat := by
  have h := r.first_ne
  rw [Ne, ← UInt64.toNat_inj] at h
  simpa [Nat.pos_iff_ne_zero] using h

theorem firstSeq_le_lastSeq : r.firstSeq.toNat ≤ r.lastSeq := by
  have := r.ops_pos
  unfold lastSeq; omega

theorem len_ge : minRecord ≤ r.len := by
  have h := length_flatten_ge r.ops_valid
  have := r.ops_pos
  unfold len minRecord opHeaderLen
  omega

theorem len_le : r.len ≤ maxRecord := r.size_le

theorem ops_lt : r.ops.length < 2 ^ 32 := by
  have h := length_flatten_ge r.ops_valid
  have hs := r.size_le
  unfold recordHeaderLen maxRecord at hs
  omega

variable (xxh3 : Bytes → UInt64)

/-- The first 24 bytes of its header. -/
def head : Bytes := recordHead r.len r.firstSeq r.ops.length

/-- The record as it lies in the log. -/
def bytes : Bytes :=
  r.head ++ (putU64 (xxh3 (r.head ++ r.ops.flatten)) ++ r.ops.flatten)

@[simp] theorem length_head : r.head.length = 24 := by
  simp [head, recordHead]

@[simp] theorem length_bytes : (r.bytes xxh3).length = r.len := by
  simp [bytes, len, recordHeaderLen]
  omega

/-! ### Its header fields -/

theorem u32At_len (post : Bytes) : (u32At (r.bytes xxh3 ++ post) 0).toNat = r.len := by
  have h := r.len_le
  unfold maxRecord at h
  simp [bytes, head, recordHead]
  omega

theorem u16At_tag (post : Bytes) : u16At (r.bytes xxh3 ++ post) 4 = tag := by
  simp [bytes, head, recordHead, u16At_append_right]

theorem byteAt_commit (post : Bytes) : byteAt (r.bytes xxh3 ++ post) 6 = commit := by
  simp [bytes, head, recordHead, byteAt_append_right]

theorem byteAt_seven : byteAt (r.bytes xxh3) 7 = 0 := by
  simp [bytes, head, recordHead, byteAt_append_right]

theorem u64At_firstSeq : u64At (r.bytes xxh3) 8 = r.firstSeq := by
  simp [bytes, head, recordHead, u64At_append_right]

theorem u32At_count : (u32At (r.bytes xxh3) 16).toNat = r.ops.length := by
  have h := r.ops_lt
  simp [bytes, head, recordHead, u32At_append_right]
  omega

theorem u32At_twenty : u32At (r.bytes xxh3) 20 = 0 := by
  simp [bytes, head, recordHead, u32At_append_right]
  rfl

theorem u64At_sum :
    u64At (r.bytes xxh3) 24 = xxh3 (r.head ++ r.ops.flatten) := by
  rw [bytes, u64At_append_right (by simp)]
  simp

theorem recordSum_bytes : recordSum xxh3 (r.bytes xxh3) = xxh3 (r.head ++ r.ops.flatten) := by
  have hdrop : (r.bytes xxh3).drop recordHeaderLen = r.ops.flatten := by
    rw [bytes, ← List.append_assoc, List.drop_left']
    simp [recordHeaderLen]
  rw [recordSum, hdrop, bytes, range_zero_append r.length_head]

/-! ### Both readers give it back -/

/-- The record a reader makes of it at `offset`. -/
def toRecord (offset : Nat) : Record :=
  ⟨r.bytes xxh3, offset, by rw [length_bytes]; exact r.len_ge⟩

theorem checkRecord_bytes (pos : Nat) : checkRecord (r.bytes xxh3) pos = .ok () := by
  have hlen : recordHeaderLen = (r.head ++ putU64 (xxh3 (r.head ++ r.ops.flatten))).length := by
    simp [recordHeaderLen]
  have hops := checkOps_flatten pos r.ops.length r.ops_valid
    (r.head ++ putU64 (xxh3 (r.head ++ r.ops.flatten))) 0
  rw [List.append_assoc, ← hlen] at hops
  change checkOps (r.bytes xxh3) pos _ _ 0 recordHeaderLen = .ok (r.bytes xxh3).length at hops
  have hcount : u32At (r.bytes xxh3) 16 ≠ 0 := by
    intro h0
    have hc := r.u32At_count xxh3
    have := r.ops_pos
    rw [h0] at hc
    simp at hc
    omega
  have hseq : ¬seqOverflows (u64At (r.bytes xxh3) 8) (u32At (r.bytes xxh3) 16).toNat := by
    have := r.no_overflow
    simp only [seqOverflows, u64At_firstSeq, u32At_count, decide_eq_true_eq]
    omega
  rw [checkRecord, if_neg (by simp [byteAt_seven, u32At_twenty]),
    if_neg (by
      rintro (h | h | h)
      · exact r.first_ne (by rw [← r.u64At_firstSeq xxh3, h])
      · exact hcount h
      · exact hseq h),
    u32At_count, hops]
  simp [bind, Except.bind]

theorem headed_bytes (post : Bytes) : headed (r.bytes xxh3 ++ post) := by
  refine ⟨?_, ?_, ?_, r.u16At_tag xxh3 post, r.byteAt_commit xxh3 post⟩ <;> rw [u32At_len]
  · exact r.len_ge
  · exact r.len_le
  · simp

/-- `next_record` on a sealed record, wherever it lies in an image. -/
theorem nextRecord_sealed (pre post : Bytes) :
    nextRecord xxh3 (pre ++ (r.bytes xxh3 ++ post)) pre.length
      = .ok (.record (r.toRecord xxh3 pre.length)) := by
  have hge := r.len_ge
  have hmin : minRecord = 48 := rfl
  have htake : (r.bytes xxh3 ++ post).take (u32At (r.bytes xxh3 ++ post) 0).toNat
      = r.bytes xxh3 := by
    rw [u32At_len, ← r.length_bytes xxh3, List.take_left]
  rw [nextRecord, if_neg (by simp), List.drop_left, readRecord,
    if_neg (by simp [recordHeaderLen]; omega), dif_pos (r.headed_bytes xxh3 post)]
  simp only [htake]
  rw [if_neg (by simp [recordSum_bytes, u64At_sum]), checkRecord_bytes]
  rfl

/-- A strict prefix of a sealed record is torn, whatever the checksum: its
    length field, once readable, reaches past the end. -/
theorem nextRecord_prefix (pre : Bytes) {k : Nat} (hk : k < r.len) :
    nextRecord xxh3 (pre ++ (r.bytes xxh3).take k) pre.length = .ok .torn := by
  rw [nextRecord, if_neg (by simp), List.drop_left, readRecord]
  by_cases hshort : ((r.bytes xxh3).take k).length < recordHeaderLen
  · rw [if_pos hshort]
  · have hk32 : 32 ≤ k := by
      simp [recordHeaderLen] at hshort
      omega
    have hlen : (u32At ((r.bytes xxh3).take k) 0).toNat = r.len := by
      have h0 := r.u32At_len xxh3 []
      rw [List.append_nil] at h0
      rw [← h0]
      exact congrArg _ (u32At_congr (range_take (by omega)))
    rw [if_neg hshort, dif_neg]
    rintro ⟨-, -, hle, -⟩
    rw [hlen] at hle
    simp at hle
    omega

/-! ### Its accessors -/

@[simp] theorem toRecord_firstSeq (off : Nat) :
    (r.toRecord xxh3 off).firstSeq = r.firstSeq.toNat := by
  simp [Record.firstSeq, toRecord, u64At_firstSeq]

@[simp] theorem toRecord_opCount (off : Nat) : (r.toRecord xxh3 off).opCount = r.ops.length := by
  simp [Record.opCount, toRecord, u32At_count]

@[simp] theorem toRecord_lastSeq (off : Nat) : (r.toRecord xxh3 off).lastSeq = r.lastSeq := by
  simp [Record.lastSeq, lastSeq]

@[simp] theorem toRecord_len (off : Nat) : (r.toRecord xxh3 off).len = r.len := by
  simp [Record.len, toRecord]

/-- The ops a reader sees are the record's, numbered from its first. -/
theorem rawOps_toRecord (off : Nat) :
    (r.toRecord xxh3 off).rawOps.map (fun p => (p.1, p.2.2)) = r.seqOps := by
  have hlen : recordHeaderLen = (r.head ++ putU64 (xxh3 (r.head ++ r.ops.flatten))).length := by
    simp [recordHeaderLen]
  have hfuel : r.ops.length ≤ (r.bytes xxh3).length := by
    have := length_flatten_ge r.ops_valid
    rw [length_bytes, len]
    omega
  have hwalk := opWalk_flatten r.ops_valid
    (r.head ++ putU64 (xxh3 (r.head ++ r.ops.flatten))) hfuel
  rw [List.append_assoc, ← hlen] at hwalk
  change opWalk (r.bytes xxh3) _ recordHeaderLen = _ at hwalk
  have hzip := chunksAt_zip_range recordHeaderLen 0 r.ops
  have hcomp : (fun p : Nat × Nat × Bytes => (p.1, p.2.2)) ∘
      (fun p : (Nat × Bytes) × Nat => (r.firstSeq.toNat + p.2, off + p.1.1, p.1.2))
      = (fun q : Nat × Bytes => (r.firstSeq.toNat + q.1, q.2)) ∘ (fun p => (p.2, p.1.2)) := rfl
  rw [Record.rawOps, toRecord_opCount, toRecord_firstSeq, List.map_map]
  change List.map ((fun p : Nat × Nat × Bytes => (p.1, p.2.2)) ∘
    (fun p : (Nat × Bytes) × Nat => (r.firstSeq.toNat + p.2, off + p.1.1, p.1.2)))
    ((opWalk (r.bytes xxh3) (r.bytes xxh3).length recordHeaderLen).zip _) = _
  rw [hwalk, hcomp, List.range_eq_range', ← List.map_map, hzip, seqOps, List.map_map,
    List.zipIdx_eq_map_add (i := r.firstSeq.toNat), List.map_map]
  apply List.map_congr_left
  intro p _
  simp [Nat.add_comm]

/-- The ops a reader decodes are the views of the record's, numbered from its
    first. -/
theorem ops_toRecord (off : Nat) :
    (r.toRecord xxh3 off).ops.map (fun p => (p.1, p.2.2))
      = r.seqOps.filterMap fun q => (OpView.trusted q.2).map fun v => (q.1, v) := by
  rw [← r.rawOps_toRecord xxh3 off, List.filterMap_map, Record.ops, List.map_filterMap]
  congr 1
  funext p
  simp only [Function.comp_apply, Option.map_map]
  rfl

end SealedRecord

end GraphR.Wal
