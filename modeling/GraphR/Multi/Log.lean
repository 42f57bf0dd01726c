import GraphR.Multi.Files

/-! # A log as a list of records

    The committed history is a list of sealed records whose numbers rise. This
    module says what the byte-level reads of `Files` return on a log that holds
    such records: which ops a publication adds, where a tail read ends, where a
    torn record stops a scan. -/

namespace GraphR.Multi

open Wal ByteLib

/-! ## Ops and numbers of a run of records -/

/-- The ops of a run of records, in order. -/
def opsOf (rs : List SealedRecord) : List SeqOp := rs.flatMap SealedRecord.seqOps

/-- The last sequence number of a run of records, 0 when there is none. -/
def endSeq (rs : List SealedRecord) : Nat := (rs.getLast?.map SealedRecord.lastSeq).getD 0

/-- The length of a run of records in bytes. -/
def size (rs : List SealedRecord) : Nat := (rs.map SealedRecord.len).sum

@[simp] theorem opsOf_nil : opsOf [] = [] := rfl

@[simp] theorem opsOf_append (rs ts : List SealedRecord) :
    opsOf (rs ++ ts) = opsOf rs ++ opsOf ts := List.flatMap_append

@[simp] theorem opsOf_singleton (r : SealedRecord) : opsOf [r] = r.seqOps := by
  simp [opsOf]

@[simp] theorem endSeq_nil : endSeq [] = 0 := rfl

@[simp] theorem endSeq_concat (rs : List SealedRecord) (r : SealedRecord) :
    endSeq (rs ++ [r]) = r.lastSeq := by
  simp [endSeq]

@[simp] theorem size_nil : size [] = 0 := rfl

@[simp] theorem size_append (rs ts : List SealedRecord) : size (rs ++ ts) = size rs + size ts := by
  simp [size]

@[simp] theorem size_cons (r : SealedRecord) (rs : List SealedRecord) :
    size (r :: rs) = r.len + size rs := by
  simp [size]

theorem size_eq_zero {rs : List SealedRecord} (h : size rs = 0) : rs = [] := by
  cases rs with
  | nil => rfl
  | cons r rs =>
    have hlen := r.len_ge
    have hmin : minRecord = 48 := rfl
    rw [size_cons] at h
    omega

section record
variable (r : SealedRecord)

@[simp] theorem length_seqOps : r.seqOps.length = r.ops.length := by
  simp [SealedRecord.seqOps]

theorem seqOps_ne_nil : r.seqOps ≠ [] := by
  rw [← List.length_pos_iff, length_seqOps]
  exact r.ops_pos

theorem mem_seqOps {p : SeqOp} (h : p ∈ r.seqOps) :
    r.firstSeq.toNat ≤ p.1 ∧ p.1 ≤ r.lastSeq := by
  unfold SealedRecord.seqOps at h
  obtain ⟨q, hq, rfl⟩ := List.mem_map.mp h
  obtain ⟨hge, hlt, -⟩ := List.mem_zipIdx hq
  unfold SealedRecord.lastSeq
  simp only at hge hlt ⊢
  omega

theorem getLast?_seqOps : r.seqOps.getLast?.map Prod.fst = some r.lastSeq := by
  have hpos := r.ops_pos
  have hlen : r.seqOps.length - 1 = r.ops.length - 1 := by rw [length_seqOps]
  rw [List.getLast?_eq_getElem?, hlen]
  unfold SealedRecord.seqOps SealedRecord.lastSeq
  rw [List.getElem?_map, List.getElem?_zipIdx, List.getElem?_eq_getElem (by omega)]
  simp
  omega

end record

theorem opsOf_eq_nil {rs : List SealedRecord} (h : opsOf rs = []) : rs = [] := by
  cases rs with
  | nil => rfl
  | cons r rs =>
    have hnil : r.seqOps ++ opsOf rs = [] := h
    exact absurd (List.append_eq_nil_iff.mp hnil).1 (seqOps_ne_nil r)

theorem length_opsOf (rs : List SealedRecord) :
    (opsOf rs).length = (rs.map fun r => r.ops.length).sum := by
  unfold opsOf
  rw [List.length_flatMap]
  congr 1
  exact List.map_congr_left fun r _ => length_seqOps r

end GraphR.Multi

/-! ## Rising histories -/

namespace GraphR.Wal

open Multi

theorem Rising.pairwise {rs : List SealedRecord} (h : Rising rs) :
    rs.Pairwise fun a b => a.lastSeq < b.firstSeq.toNat := by
  have htrans : Trans (fun a b : SealedRecord => a.lastSeq < b.firstSeq.toNat)
      (fun a b : SealedRecord => a.lastSeq < b.firstSeq.toNat)
      (fun a b : SealedRecord => a.lastSeq < b.firstSeq.toNat) :=
    ⟨fun {a b c} hab hbc => by have := b.firstSeq_le_lastSeq; omega⟩
  exact List.isChain_iff_pairwise.mp h

theorem Rising.drop {rs : List SealedRecord} (h : Rising rs) (k : Nat) : Rising (rs.drop k) :=
  List.IsChain.drop h k

theorem Rising.take {rs : List SealedRecord} (h : Rising rs) (k : Nat) : Rising (rs.take k) :=
  List.IsChain.take h k

/-- Appending a record numbered above the rest keeps a history rising. -/
theorem Rising.concat {rs : List SealedRecord} (h : Rising rs) {r : SealedRecord}
    (hr : endSeq rs < r.firstSeq.toNat) : Rising (rs ++ [r]) := by
  unfold Rising at *
  rw [List.isChain_append]
  refine ⟨h, List.isChain_singleton r, ?_⟩
  intro a ha b hb
  cases hb
  have hlast : endSeq rs = a.lastSeq := by simp [endSeq, Option.mem_def.mp ha]
  omega

section rising
variable {hist : List SealedRecord}

/-- Every number of a rising run is at most its last. -/
theorem Rising.seq_le (h : Rising hist) {p : SeqOp} (hp : p ∈ opsOf hist) : p.1 ≤ endSeq hist := by
  induction hist using List.reverseRecOn with
  | nil => simp at hp
  | append_singleton rs r ih =>
    rw [endSeq_concat]
    rw [opsOf_append, opsOf_singleton] at hp
    rcases List.mem_append.mp hp with hp | hp
    · have hpair := List.pairwise_append.mp h.pairwise
      obtain ⟨a, ha, hpa⟩ := List.mem_flatMap.mp hp
      have hlt := hpair.2.2 a ha r (by simp)
      have := (mem_seqOps a hpa).2
      have := r.firstSeq_le_lastSeq
      omega
    · exact (mem_seqOps r hp).2

theorem Rising.lastSeq_le (h : Rising hist) {r : SealedRecord} (hr : r ∈ hist) :
    r.lastSeq ≤ endSeq hist := by
  obtain ⟨q, hq, hqr⟩ := Option.map_eq_some_iff.mp (getLast?_seqOps r)
  have hle := h.seq_le (List.mem_flatMap.mpr ⟨r, hr, List.mem_of_getLast? hq⟩)
  omega

/-- The ops behind the first `k` records are numbered above those records. -/
theorem Rising.endSeq_lt (h : Rising hist) {k : Nat} {r : SealedRecord} (hr : r ∈ hist.drop k) :
    endSeq (hist.take k) < r.firstSeq.toNat := by
  have hpair := h.pairwise
  rw [← List.take_append_drop k hist, List.pairwise_append] at hpair
  unfold endSeq
  cases hlast : (hist.take k).getLast? with
  | none => exact r.firstSeq_pos
  | some a => exact hpair.2.2 a (List.mem_of_getLast? hlast) r hr

theorem Rising.endSeq_mono (h : Rising hist) {j k : Nat} (hjk : j ≤ k) :
    endSeq (hist.take j) ≤ endSeq (hist.take k) := by
  unfold endSeq
  cases hlast : (hist.take j).getLast? with
  | none => exact Nat.zero_le _
  | some a =>
    simp only [Option.map_some, Option.getD_some]
    have ha : a ∈ hist.take k := by
      have := List.mem_of_getLast? hlast
      exact List.take_subset_take_left _ hjk this
    obtain ⟨q, hq, hqa⟩ := Option.map_eq_some_iff.mp (getLast?_seqOps a)
    have hle := (h.take k).seq_le (List.mem_flatMap.mpr ⟨a, ha, List.mem_of_getLast? hq⟩)
    rw [hqa] at hle
    exact hle

/-- A longer prefix ends higher. -/
theorem Rising.endSeq_lt_of_lt (h : Rising hist) {j k : Nat} (hjk : j < k) (hk : k ≤ hist.length) :
    endSeq (hist.take j) < endSeq (hist.take k) := by
  have hj : j < hist.length := by omega
  have hmem : hist.get ⟨j, hj⟩ ∈ hist.drop j := by
    rw [List.mem_iff_getElem?]
    exact ⟨0, by rw [List.getElem?_drop, Nat.add_zero, List.getElem?_eq_getElem hj]; rfl⟩
  have hin : hist.get ⟨j, hj⟩ ∈ hist.take (j + 1) := by
    rw [List.mem_iff_getElem?]
    exact ⟨j, by rw [List.getElem?_take_of_lt (by omega), List.getElem?_eq_getElem hj]; rfl⟩
  obtain ⟨q, hq, hqr⟩ := Option.map_eq_some_iff.mp (getLast?_seqOps (hist.get ⟨j, hj⟩))
  have h1 := h.endSeq_lt hmem
  have h2 := (hist.get ⟨j, hj⟩).firstSeq_le_lastSeq
  have h3 := (h.take (j + 1)).seq_le (List.mem_flatMap.mpr ⟨_, hin, List.mem_of_getLast? hq⟩)
  have h4 := h.endSeq_mono (show j + 1 ≤ k from hjk)
  omega

/-- What lies behind `a`, cut at `k`. -/
theorem drop_eq_append (hist : List SealedRecord) {a k : Nat} (hak : a ≤ k) :
    hist.drop a = (hist.take k).drop a ++ hist.drop k := by
  conv_lhs => rw [← List.take_append_drop k hist]
  rw [List.drop_append, List.length_take]
  by_cases hk : k ≤ hist.length
  · rw [Nat.min_eq_left hk, Nat.sub_eq_zero_of_le hak, List.drop_zero]
  · rw [List.drop_eq_nil_of_le (show hist.length ≤ k by omega), List.drop_nil]

/-- Dropping what is numbered at or below the first `k` records leaves the
    records behind them. -/
theorem Rising.filter_above (h : Rising hist) {a k : Nat} (hak : a ≤ k) :
    (opsOf (hist.drop a)).filter (fun p => endSeq (hist.take k) < p.1) = opsOf (hist.drop k) := by
  rw [drop_eq_append hist hak, opsOf_append, List.filter_append]
  have hbelow : (opsOf ((hist.take k).drop a)).filter (fun p => endSeq (hist.take k) < p.1) = [] := by
    rw [List.filter_eq_nil_iff]
    intro p hp
    have hmem : p ∈ opsOf (hist.take k) := by
      obtain ⟨r, hr, hp⟩ := List.mem_flatMap.mp hp
      exact List.mem_flatMap.mpr ⟨r, List.mem_of_mem_drop hr, hp⟩
    have := (h.take k).seq_le hmem
    simpa using this
  have habove : (opsOf (hist.drop k)).filter (fun p => endSeq (hist.take k) < p.1)
      = opsOf (hist.drop k) := by
    rw [List.filter_eq_self]
    intro p hp
    obtain ⟨r, hr, hp⟩ := List.mem_flatMap.mp hp
    have h1 := h.endSeq_lt hr
    have h2 := (mem_seqOps r hp).1
    simp only [decide_eq_true_eq]
    omega
  rw [hbelow, habove, List.nil_append]

/-- And keeping it leaves those records. -/
theorem Rising.filter_upto (h : Rising hist) (k : Nat) :
    (opsOf hist).filter (fun p => p.1 ≤ endSeq (hist.take k)) = opsOf (hist.take k) := by
  have hsplit : opsOf hist = opsOf (hist.take k) ++ opsOf (hist.drop k) := by
    rw [← opsOf_append, List.take_append_drop]
  rw [hsplit, List.filter_append]
  have hbelow : (opsOf (hist.take k)).filter (fun p => p.1 ≤ endSeq (hist.take k))
      = opsOf (hist.take k) := by
    rw [List.filter_eq_self]
    intro p hp
    simpa using (h.take k).seq_le hp
  have habove : (opsOf (hist.drop k)).filter (fun p => p.1 ≤ endSeq (hist.take k)) = [] := by
    rw [List.filter_eq_nil_iff]
    intro p hp
    obtain ⟨r, hr, hp⟩ := List.mem_flatMap.mp hp
    have h1 := h.endSeq_lt hr
    have h2 := (mem_seqOps r hp).1
    simp only [decide_eq_true_eq]
    omega
  rw [hbelow, habove, List.append_nil]

/-- The numbers of a rising history rise strictly. -/
theorem Rising.ops_ascending (h : Rising hist) : (opsOf hist).Pairwise fun p q => p.1 < q.1 := by
  induction hist with
  | nil => exact List.Pairwise.nil
  | cons r rs ih =>
    have hpair := List.pairwise_cons.mp h.pairwise
    show (r.seqOps ++ opsOf rs).Pairwise _
    rw [List.pairwise_append]
    refine ⟨?_, ih h.tail, ?_⟩
    · unfold SealedRecord.seqOps
      rw [List.pairwise_map]
      rw [List.pairwise_iff_getElem]
      intro i j hi hj hij
      simp only [List.getElem_zipIdx]
      omega
    · intro p hp q hq
      obtain ⟨b, hb, hq⟩ := List.mem_flatMap.mp hq
      have h1 := hpair.1 b hb
      have h2 := (mem_seqOps r hp).2
      have h3 := (mem_seqOps b hq).1
      omega

end rising

end GraphR.Wal

namespace GraphR.Multi

open Wal ByteLib

/-! ## What the reads return -/

section bytes
variable (xxh3 : Bytes → UInt64)

/-- A run of records as it lies in the log. -/
def bytesOf (rs : List SealedRecord) : Bytes := rs.flatMap fun r => r.bytes xxh3

/-- What a writer that died in mid-append leaves: a strict prefix of its
    record. -/
def Torn (tail : Bytes) : Prop :=
  tail = [] ∨ ∃ (r : SealedRecord) (k : Nat), k < r.len ∧ tail = (r.bytes xxh3).take k

@[simp] theorem bytesOf_nil : bytesOf xxh3 [] = [] := rfl

@[simp] theorem bytesOf_append (rs ts : List SealedRecord) :
    bytesOf xxh3 (rs ++ ts) = bytesOf xxh3 rs ++ bytesOf xxh3 ts := List.flatMap_append

@[simp] theorem bytesOf_singleton (r : SealedRecord) : bytesOf xxh3 [r] = r.bytes xxh3 := by
  simp [bytesOf]

@[simp] theorem length_bytesOf (rs : List SealedRecord) : (bytesOf xxh3 rs).length = size rs := by
  induction rs with
  | nil => rfl
  | cons r rs ih =>
    rw [size_cons, ← ih, ← r.length_bytes xxh3]
    simp [bytesOf]

theorem torn_nil : Torn xxh3 [] := .inl rfl

variable {xxh3}

/-- Where the first `j` records end, the others begin. -/
theorem drop_bytesOf (rs : List SealedRecord) (tail : Bytes) (j : Nat) :
    (bytesOf xxh3 rs ++ tail).drop (size (rs.take j)) = bytesOf xxh3 (rs.drop j) ++ tail := by
  conv_lhs => rw [← List.take_append_drop j rs, bytesOf_append, List.append_assoc]
  rw [List.take_append_drop, List.drop_left' (by simp)]

theorem take_bytesOf (rs : List SealedRecord) (tail : Bytes) :
    (bytesOf xxh3 rs ++ tail).take (size rs) = bytesOf xxh3 rs :=
  List.take_left' (by simp)

/-- A scan finds every record of a run and stops at the tear behind it. -/
theorem validated_run {rs : List SealedRecord} (hrise : Rising rs) {tail : Bytes}
    (htorn : Torn xxh3 tail) (pre : Bytes) (after : Option Nat)
    (hafter : ∀ r ∈ rs.head?, ∀ l ∈ after, l < r.firstSeq.toNat) :
    Validated xxh3 (pre ++ (bytesOf xxh3 rs ++ tail)) pre.length after
      ((placed pre.length rs).map fun p => p.2.toRecord xxh3 p.1) (pre.length + size rs) := by
  induction rs generalizing pre after with
  | nil =>
    apply Validated.torn
    rcases htorn with rfl | ⟨r, k, hk, rfl⟩
    · rw [nextRecord, if_neg (by simp)]
      simp [readRecord, recordHeaderLen]
    · exact r.nextRecord_prefix xxh3 pre hk
  | cons r rs ih =>
    have hlen := r.length_bytes xxh3
    have hrest := ih hrise.tail (pre ++ r.bytes xxh3) (some r.lastSeq)
      (by
        intro r' hr' l hl
        cases hl
        cases rs with
        | nil => simp at hr'
        | cons s rs =>
          cases hr'
          exact (List.isChain_cons_cons.mp hrise).1)
    rw [List.length_append, hlen, Nat.add_assoc, ← size_cons, List.append_assoc] at hrest
    have hbytes : bytesOf xxh3 (r :: rs) ++ tail = r.bytes xxh3 ++ (bytesOf xxh3 rs ++ tail) := by
      simp [bytesOf]
    rw [hbytes]
    refine .step (r.nextRecord_sealed xxh3 pre _) ?_ ?_
    · rw [r.toRecord_firstSeq]
      exact hafter r rfl
    · rwa [r.toRecord_len, r.toRecord_lastSeq]

section run
variable {rs : List SealedRecord} (hrise : Rising rs) {tail : Bytes} (htorn : Torn xxh3 tail)
include hrise htorn

theorem validated_frames :
    Validated xxh3 (bytesOf xxh3 rs ++ tail) 0 none
      ((placed 0 rs).map fun p => p.2.toRecord xxh3 p.1) (size rs) := by
  have h := validated_run hrise htorn [] none (by simp)
  simpa using h

theorem scan_frames :
    (scan xxh3 (bytesOf xxh3 rs ++ tail) 0 none).corrupt = none ∧
      (scan xxh3 (bytesOf xxh3 rs ++ tail) 0 none).stop = size rs := by
  rw [(validated_frames hrise htorn).scan_eq]
  exact ⟨rfl, rfl⟩

theorem wholeEnd_frames : wholeEnd xxh3 (bytesOf xxh3 rs ++ tail) = .ok (size rs) := by
  obtain ⟨hcorrupt, hstop⟩ := scan_frames hrise htorn
  rw [wholeEnd, hcorrupt, hstop]

theorem records_frames :
    records (bytesOf xxh3 rs ++ tail) 0 (size rs)
      = (placed 0 rs).map fun p => p.2.toRecord xxh3 p.1 :=
  (validated_frames hrise htorn).records_eq (Nat.zero_le _)

/-- The last number a scan reports. -/
theorem lastSeq_frames :
    (scan xxh3 (bytesOf xxh3 rs ++ tail) 0 none).lastSeq
      = rs.getLast?.map SealedRecord.lastSeq := by
  rw [(validated_frames hrise htorn).scan_eq]
  simp only [Validated.lastSeq]
  induction rs using List.reverseRecOn with
  | nil => rfl
  | append_singleton rs r _ =>
    have hplaced : ∀ (pos : Nat) (rs : List SealedRecord),
        ∃ q, placed pos (rs ++ [r]) = placed pos rs ++ [(q, r)] := by
      intro pos rs
      induction rs generalizing pos with
      | nil => exact ⟨pos, rfl⟩
      | cons a rs ih =>
        obtain ⟨q, hq⟩ := ih (pos + a.len)
        exact ⟨q, by simp [placed, hq]⟩
    obtain ⟨q, hq⟩ := hplaced 0 rs
    rw [hq]
    simp

end run

theorem records_bytesOf {rs : List SealedRecord} (hrise : Rising rs) :
    records (bytesOf xxh3 rs) 0 (bytesOf xxh3 rs).length
      = (placed 0 rs).map fun p => p.2.toRecord xxh3 p.1 := by
  have h := records_frames hrise (torn_nil xxh3)
  rwa [List.append_nil, ← length_bytesOf xxh3] at h

end bytes

section publish
variable {xxh3 : Bytes → UInt64} {hist : List SealedRecord}

/-- The ops a reader sees in a run of records. -/
theorem rawOps_placed (pos : Nat) (rs : List SealedRecord) :
    (((placed pos rs).map fun p => p.2.toRecord xxh3 p.1).flatMap fun r =>
      r.rawOps.map fun p => (p.1, p.2.2)) = opsOf rs := by
  induction rs generalizing pos with
  | nil => rfl
  | cons r rs ih =>
    rw [placed, List.map_cons, List.flatMap_cons, ih]
    rw [SealedRecord.rawOps_toRecord]
    simp [opsOf]

theorem newOps_placed (served pos : Nat) (rs : List SealedRecord) :
    Gen.newOps served ((placed pos rs).map fun p => p.2.toRecord xxh3 p.1)
      = (rs.map fun r => if served < r.lastSeq
          then min (r.lastSeq - served) r.ops.length else 0).sum := by
  induction rs generalizing pos with
  | nil => rfl
  | cons r rs ih =>
    have hrest := ih (pos + r.len)
    unfold Gen.newOps at hrest ⊢
    rw [placed, List.map_cons, List.map_cons, List.sum_cons, hrest, List.map_cons, List.sum_cons,
      SealedRecord.toRecord_lastSeq, SealedRecord.toRecord_opCount]

/-- How many ops `publish_above` counts: those of the records not served. -/
theorem newOps_drop (h : Rising hist) {a k : Nat} (pos : Nat) (hak : a ≤ k) :
    Gen.newOps (endSeq (hist.take k))
      ((placed pos (hist.drop a)).map fun p => p.2.toRecord xxh3 p.1)
      = (opsOf (hist.drop k)).length := by
  rw [newOps_placed, length_opsOf, drop_eq_append hist hak, List.map_append, List.sum_append]
  have hserved : (((hist.take k).drop a).map fun r => if endSeq (hist.take k) < r.lastSeq
      then min (r.lastSeq - endSeq (hist.take k)) r.ops.length else 0).sum = 0 := by
    rw [List.sum_eq_zero]
    intro n hn
    obtain ⟨r, hr, rfl⟩ := List.mem_map.mp hn
    have hle := (h.take k).lastSeq_le (List.mem_of_mem_drop hr)
    rw [if_neg (by omega)]
  have hnew : ((hist.drop k).map fun r => if endSeq (hist.take k) < r.lastSeq
      then min (r.lastSeq - endSeq (hist.take k)) r.ops.length else 0)
      = (hist.drop k).map fun r => r.ops.length := by
    apply List.map_congr_left
    intro r hr
    have hlt := h.endSeq_lt hr
    have hpos := r.ops_pos
    have hlast : r.lastSeq = r.firstSeq.toNat + r.ops.length - 1 := rfl
    rw [if_pos (by omega), Nat.min_eq_right (by omega)]
  rw [hserved, hnew, Nat.zero_add]

/-- A publication adds exactly the records not served. -/
theorem publishAbove_drop (h : Rising hist) {a k head : Nat} (hak : a ≤ k) {g g' : Gen} {c : Bool}
    (hpub : g.publishAbove (endSeq (hist.take k)) (bytesOf xxh3 (hist.drop a)) head
      = .ok (g', c)) :
    g'.base = g.base ∧ g'.log = g.log ++ opsOf (hist.drop k) ∧
      (g'.segs = 0 → opsOf (hist.drop k) = []) := by
  unfold Gen.publishAbove at hpub
  rw [records_bytesOf (h.drop a), newOps_drop h 0 hak] at hpub
  simp only at hpub
  split_ifs at hpub with hnone hroom
  · cases hpub
    have hnil : opsOf (hist.drop k) = [] := List.length_eq_zero_iff.mp hnone
    exact ⟨rfl, by rw [hnil, List.append_nil], fun _ => hnil⟩
  · cases hpub
    refine ⟨rfl, ?_, fun hseg => absurd hseg (Nat.succ_ne_zero _)⟩
    show g.log ++ _ = _
    rw [records_bytesOf (h.drop a), rawOps_placed, h.filter_above hak]

/-- It succeeds where there is room. -/
theorem publishAbove_ok (h : Rising hist) {a k head : Nat} (hak : a ≤ k) {b : DiskBase}
    (hops : (opsOf (hist.drop k)).length ≤ arenaCapacity)
    (hsize : head + size (hist.drop a) ≤ offMask) :
    ∃ g c, (Gen.mk b [] 0).publishAbove (endSeq (hist.take k)) (bytesOf xxh3 (hist.drop a)) head
      = .ok (g, c) := by
  unfold Gen.publishAbove
  rw [records_bytesOf (h.drop a), newOps_drop h 0 hak]
  simp only
  split_ifs with hnone hroom
  · exact ⟨_, _, rfl⟩
  · exact ⟨_, _, rfl⟩
  · refine absurd ?_ hroom
    simp only [Gen.reserve, List.length_nil, Nat.zero_add, length_bytesOf, decide_eq_true_eq]
    exact ⟨hops, by simp [arenaCapacity], hsize⟩

theorem find_placed (served pos : Nat) (rs : List SealedRecord) :
    match ((placed pos rs).map fun p => p.2.toRecord xxh3 p.1).find? fun r => served < r.lastSeq with
    | none => ∀ r ∈ rs, r.lastSeq ≤ served
    | some rec => ∃ i, i < rs.length ∧ rec.offset = pos + size (rs.take i) ∧
        ∀ r ∈ rs.take i, r.lastSeq ≤ served := by
  induction rs generalizing pos with
  | nil => simp [placed]
  | cons r rs ih =>
    rw [placed, List.map_cons, List.find?_cons]
    simp only [SealedRecord.toRecord_lastSeq]
    by_cases hr : served < r.lastSeq
    · simp only [hr, decide_true]
      exact ⟨0, by simp, by simp [SealedRecord.toRecord], by simp⟩
    · simp only [hr, decide_false]
      have hrest := ih (pos + r.len)
      cases hfind : ((placed (pos + r.len) rs).map fun p => p.2.toRecord xxh3 p.1).find?
          fun r => served < r.lastSeq with
      | none =>
        rw [hfind] at hrest
        intro t ht
        rcases List.mem_cons.mp ht with rfl | ht
        · omega
        · exact hrest t ht
      | some rec =>
        rw [hfind] at hrest
        obtain ⟨i, hi, hoff, hbelow⟩ := hrest
        refine ⟨i + 1, by simpa using hi, ?_, ?_⟩
        · rw [List.take_succ_cons, size_cons, hoff]
          omega
        · intro t ht
          rw [List.take_succ_cons] at ht
          rcases List.mem_cons.mp ht with rfl | ht
          · omega
          · exact hbelow t ht

/-- The first record that holds an unserved op is not past the served
    ones. -/
theorem find_unserved (h : Rising hist) {a k : Nat} (hak : a ≤ k) :
    (((placed 0 (hist.drop a)).map fun p => p.2.toRecord xxh3 p.1).find? (fun r =>
        endSeq (hist.take k) < r.lastSeq) = none → hist.drop k = []) ∧
      ∀ rec, ((placed 0 (hist.drop a)).map fun p => p.2.toRecord xxh3 p.1).find? (fun r =>
        endSeq (hist.take k) < r.lastSeq) = some rec →
      ∃ i, a + i ≤ k ∧ rec.offset = size ((hist.drop a).take i) := by
  have hfind := @find_placed xxh3 (endSeq (hist.take k)) 0 (hist.drop a)
  -- a record behind the first `k` is unserved
  have habove : ∀ r ∈ hist.drop k, ¬r.lastSeq ≤ endSeq (hist.take k) := by
    intro r hr
    have h1 := h.endSeq_lt hr
    have h2 := r.firstSeq_le_lastSeq
    omega
  refine ⟨?_, ?_⟩
  · intro hrec
    rw [hrec] at hfind
    rw [List.eq_nil_iff_forall_not_mem]
    intro r hr
    refine habove r hr (hfind r ?_)
    rw [drop_eq_append hist hak]
    exact List.mem_append_right _ hr
  · intro rec hrec
    rw [hrec] at hfind
    obtain ⟨i, hi, hoff, hbelow⟩ := hfind
    refine ⟨i, ?_, by rw [hoff, Nat.zero_add]⟩
    by_contra hlt
    have hk : k - a < (hist.drop a).length := by omega
    have hmem : (hist.drop a).get ⟨k - a, hk⟩ ∈ (hist.drop a).take i := by
      rw [List.mem_iff_getElem?]
      refine ⟨k - a, ?_⟩
      rw [List.getElem?_take_of_lt (by omega), List.getElem?_eq_getElem hk]
      rfl
    refine habove _ ?_ (hbelow _ hmem)
    rw [List.mem_iff_getElem?]
    refine ⟨0, ?_⟩
    rw [List.getElem?_drop, List.get_eq_getElem, List.getElem_drop]
    have hadd : a + (k - a) = k := by omega
    simp only [Nat.add_zero, hadd]
    rw [List.length_drop] at hk
    exact List.getElem?_eq_getElem (by omega)

end publish

end GraphR.Multi
