import GraphR.Format.Wal.OpLayout

/-! # What a scan accepts, and a log cut anywhere

    `Validated` is the run of records a scan accepts from a position, record by
    record, up to the first tear. It determines the scan (`scan_of_validated`),
    every scan that reports no corruption is one (`validated_of_scan`), and the
    trusted walk over the same bytes reads back exactly its records
    (`records_of_validated`).

    For a log made of sealed records the run is known at every cut
    (`validated_cut`): a record past the cut is recognised by its length field
    alone. -/

namespace GraphR.Wal

open ByteLib

/-! ## Runs of records -/

section validated
variable (xxh3 : Bytes → UInt64)

/-- From `pos`, with the last number seen `after`, the records `rs` lie one
    after another, each valid and numbered above the one before, and at `stop`
    the image is torn. -/
inductive Validated (bytes : Bytes) : Nat → Option Nat → List Record → Nat → Prop where
  | torn {pos : Nat} {after : Option Nat} (h : nextRecord xxh3 bytes pos = .ok .torn) :
      Validated bytes pos after [] pos
  | step {pos stop : Nat} {after : Option Nat} {r : Record} {rs : List Record}
      (h : nextRecord xxh3 bytes pos = .ok (.record r)) (hseq : ∀ l ∈ after, l < r.firstSeq)
      (hrest : Validated bytes (pos + r.len) (some r.lastSeq) rs stop) :
      Validated bytes pos after (r :: rs) stop

variable {xxh3} {bytes : Bytes}

/-- What `next_record` says of the record it returns: it lies whole inside the
    image, under its own length field. -/
theorem nextRecord_record {pos : Nat} {r : Record}
    (h : nextRecord xxh3 bytes pos = .ok (.record r)) :
    r.offset = pos ∧ r.len = (u32At bytes pos).toNat ∧ pos + r.len ≤ bytes.length ∧
    r.bytes = range bytes pos r.len := by
  unfold nextRecord readRecord at h
  split_ifs at h with hpos hshort hhead hsum
  · cases h
  · cases h
  · cases h
  · cases hc : checkRecord ((bytes.drop pos).take (u32At (bytes.drop pos) 0).toNat) pos with
    | error e => simp [hc, bind, Except.bind] at h
    | ok u =>
      simp only [hc, bind, Except.bind, Except.ok.injEq, Next.record.injEq] at h
      subst h
      have hlen : (u32At (bytes.drop pos) 0).toNat = (u32At bytes pos).toNat := by
        rw [u32At_drop, Nat.add_zero]
      have hin := hhead.2.2.1
      rw [List.length_drop, hlen] at hin
      have hrlen : ((bytes.drop pos).take (u32At (bytes.drop pos) 0).toNat).length
          = (u32At bytes pos).toNat := by
        rw [List.length_take, List.length_drop, hlen, Nat.min_eq_left hin]
      refine ⟨rfl, hrlen, ?_, ?_⟩
      · rw [Record.len, hrlen]; omega
      · rw [Record.len, hrlen]
        exact congrArg (fun n => (bytes.drop pos).take n) hlen
  · cases h

theorem Record.len_pos (r : Record) : 48 ≤ r.len := r.minLen

namespace Validated

theorem pos_le {pos stop : Nat} {after : Option Nat} {rs : List Record}
    (h : Validated xxh3 bytes pos after rs stop) : pos ≤ stop := by
  induction h with
  | torn h => exact le_rfl
  | step h hseq hrest ih => omega

theorem stop_le {pos stop : Nat} {after : Option Nat} {rs : List Record}
    (h : Validated xxh3 bytes pos after rs stop) (hpos : pos ≤ bytes.length) :
    stop ≤ bytes.length := by
  induction h with
  | torn h => exact hpos
  | step h hseq hrest ih => exact ih (nextRecord_record h).2.2.1

/-- The last number seen after a run. -/
def lastSeq (after : Option Nat) (rs : List Record) : Option Nat :=
  rs.foldl (fun _ r => some r.lastSeq) after

/-- The last number seen from none is the last record's. -/
theorem lastSeq_none (rs : List Record) :
    lastSeq none rs = rs.getLast?.map Record.lastSeq := by
  induction rs using List.reverseRecOn with
  | nil => rfl
  | append_singleton rs r ih =>
    rw [lastSeq, List.foldl_append, List.getLast?_append]
    rfl

/-- A run determines the scan, fuel permitting. -/
theorem scanGo_eq {pos stop : Nat} {after : Option Nat} {rs : List Record}
    (h : Validated xxh3 bytes pos after rs stop) (n fuel : Nat)
    (hfuel : bytes.length < pos + fuel) :
    scanGo xxh3 bytes fuel ⟨pos, after, n, none⟩
      = ⟨stop, lastSeq after rs, n + (rs.map Record.opCount).sum, none⟩ := by
  induction h generalizing n fuel with
  | @torn pos after h =>
    cases fuel with
    | zero => rfl
    | succ fuel => simp [scanGo, h, lastSeq]
  | @step pos stop after r rs h hseq hrest ih =>
    have hr := nextRecord_record h
    cases fuel with
    | zero => omega
    | succ fuel =>
      have hlen := r.len_pos
      have hasc : after.any (fun l => r.firstSeq ≤ l) = false := by
        cases after with
        | none => rfl
        | some l => simpa using hseq l rfl
      rw [scanGo, h]
      simp only [hasc, Bool.false_eq_true, if_false]
      rw [ih (n + r.opCount) fuel (by omega)]
      simp [lastSeq, Nat.add_assoc]

theorem scan_eq {pos stop : Nat} {after : Option Nat} {rs : List Record}
    (h : Validated xxh3 bytes pos after rs stop) :
    scan xxh3 bytes pos after = ⟨stop, lastSeq after rs, (rs.map Record.opCount).sum, none⟩ := by
  rw [scan, h.scanGo_eq 0 _ (by omega), Nat.zero_add]

/-- The trusted walk reads the records of a run back. -/
theorem recordsGo_eq {pos stop : Nat} {after : Option Nat} {rs : List Record}
    (h : Validated xxh3 bytes pos after rs stop) (fuel : Nat)
    (hfuel : stop ≤ pos + fuel) : recordsGo bytes stop fuel pos = rs := by
  induction h generalizing fuel with
  | @torn pos after h =>
    cases fuel with
    | zero => rfl
    | succ fuel => simp [recordsGo, nextTrusted, minRecord, recordHeaderLen]
  | @step pos stop after r rs h hseq hrest ih =>
    obtain ⟨hoff, hlen, hin, hbytes⟩ := nextRecord_record h
    have hle := hrest.pos_le
    have hpos := r.len_pos
    have hmin : minRecord = 48 := rfl
    cases fuel with
    | zero => omega
    | succ fuel =>
      have hnext : nextTrusted bytes pos stop = some r := by
        unfold nextTrusted
        rw [if_neg (by omega)]
        simp only [← hlen]
        rw [dif_pos ⟨hin, hpos, by omega⟩]
        exact congrArg some (Record.ext hbytes.symm hoff.symm)
      rw [recordsGo, hnext]
      simp only
      rw [ih fuel (by omega)]

theorem records_eq {pos stop : Nat} {after : Option Nat} {rs : List Record}
    (h : Validated xxh3 bytes pos after rs stop) (hpos : pos ≤ bytes.length) :
    records bytes pos stop = rs := by
  have hstop := h.stop_le hpos
  rw [records, Nat.min_eq_left hstop, h.recordsGo_eq _ (by omega)]

end Validated

/-- A scan that reports no corruption followed a run. -/
theorem validated_of_scanGo {fuel : Nat} (out : Scan) (hnone : out.corrupt = none)
    (hfuel : bytes.length < out.stop + fuel)
    (hok : (scanGo xxh3 bytes fuel out).corrupt = none) :
    ∃ rs, Validated xxh3 bytes out.stop out.lastSeq rs (scanGo xxh3 bytes fuel out).stop := by
  induction fuel generalizing out with
  | zero =>
    refine ⟨[], .torn ?_⟩
    rw [nextRecord, if_pos (by omega)]
  | succ fuel ih =>
    rw [scanGo] at hok ⊢
    cases hn : nextRecord xxh3 bytes out.stop with
    | error e => simp [hn] at hok
    | ok next =>
      cases next with
      | torn => exact ⟨[], .torn hn⟩
      | record r =>
        have hlen := r.len_pos
        simp only [hn] at hok ⊢
        by_cases hreg : out.lastSeq.any (fun l => r.firstSeq ≤ l) = true
        · simp [hreg] at hok
        · simp only [hreg, Bool.false_eq_true, if_false] at hok ⊢
          obtain ⟨rs, hrs⟩ :=
            ih ⟨out.stop + r.len, some r.lastSeq, out.ops + r.opCount, out.corrupt⟩ hnone
              (by simp only; omega) hok
          refine ⟨r :: rs, .step hn ?_ hrs⟩
          intro l hl
          rw [Option.mem_def.mp hl] at hreg
          simpa using hreg

theorem validated_of_scan {pos : Nat} {after : Option Nat}
    (h : (scan xxh3 bytes pos after).corrupt = none) :
    ∃ rs, Validated xxh3 bytes pos after rs (scan xxh3 bytes pos after).stop :=
  validated_of_scanGo _ rfl (by simp only; omega) h

end validated

/-! ## A log of sealed records -/

/-- Each record's numbers lie above those of the record before. -/
def Rising (rs : List SealedRecord) : Prop :=
  rs.IsChain fun a b => a.lastSeq < b.firstSeq.toNat

/-- Where each record of a run lies, the first one at `pos`. -/
def placed : Nat → List SealedRecord → List (Nat × SealedRecord)
  | _, [] => []
  | pos, r :: rs => (pos, r) :: placed (pos + r.len) rs

/-- The records that lie wholly before `cut`. -/
def wholeBefore (cut pos : Nat) (rs : List SealedRecord) : List (Nat × SealedRecord) :=
  (placed pos rs).filter fun p => p.1 + p.2.len ≤ cut

/-- Where the last of some placed records ends. -/
def endOf (pos : Nat) (ps : List (Nat × SealedRecord)) : Nat :=
  (ps.getLast?.map fun p => p.1 + p.2.len).getD pos

theorem placed_ge {pos : Nat} {rs : List SealedRecord} {p : Nat × SealedRecord}
    (h : p ∈ placed pos rs) : pos ≤ p.1 := by
  induction rs generalizing pos with
  | nil => simp [placed] at h
  | cons r rs ih =>
    rcases List.mem_cons.mp h with rfl | h
    · exact le_rfl
    · have := ih h
      omega

theorem wholeBefore_cons_of_le {cut pos : Nat} {r : SealedRecord} {rs : List SealedRecord}
    (h : pos + r.len ≤ cut) :
    wholeBefore cut pos (r :: rs) = (pos, r) :: wholeBefore cut (pos + r.len) rs := by
  simp [wholeBefore, placed, h]

/-- Past the first record that does not fit, none does. -/
theorem wholeBefore_cons_of_lt {cut pos : Nat} {r : SealedRecord} {rs : List SealedRecord}
    (h : cut < pos + r.len) : wholeBefore cut pos (r :: rs) = [] := by
  rw [wholeBefore, List.filter_eq_nil_iff]
  intro p hp
  rw [decide_eq_true_eq]
  rcases List.mem_cons.mp hp with rfl | hp
  · simpa using h
  · have := placed_ge hp
    omega

theorem endOf_cons (pos : Nat) (p : Nat × SealedRecord) (ps : List (Nat × SealedRecord)) :
    endOf pos (p :: ps) = endOf (p.1 + p.2.len) ps := by
  rw [endOf, endOf, List.getLast?_cons]
  cases ps.getLast? <;> rfl

/-- Moving a run moves its ends. -/
theorem endOf_shift (k pos cut : Nat) (rs : List SealedRecord) :
    endOf (k + pos) (wholeBefore (k + cut) (k + pos) rs)
      = k + endOf pos (wholeBefore cut pos rs) := by
  induction rs generalizing pos with
  | nil => rfl
  | cons r rs ih =>
    by_cases hfit : pos + r.len ≤ cut
    · rw [wholeBefore_cons_of_le hfit, wholeBefore_cons_of_le (by omega), endOf_cons, endOf_cons,
        Nat.add_assoc, ih]
    · rw [wholeBefore_cons_of_lt (by omega), wholeBefore_cons_of_lt (by omega)]
      rfl

section cut
variable (xxh3 : Bytes → UInt64)

/-- The records a scan finds in a run of sealed records cut after `n` bytes. -/
theorem validated_cut {rs : List SealedRecord} (hrise : Rising rs) (pre : Bytes) (n : Nat)
    (after : Option Nat) (hafter : ∀ r ∈ rs.head?, ∀ l ∈ after, l < r.firstSeq.toNat) :
    Validated xxh3 (pre ++ (rs.flatMap fun r => r.bytes xxh3).take n) pre.length after
      ((wholeBefore (pre.length + n) pre.length rs).map fun p => p.2.toRecord xxh3 p.1)
      (endOf pre.length (wholeBefore (pre.length + n) pre.length rs)) := by
  induction rs generalizing pre n after with
  | nil =>
    apply Validated.torn
    rw [nextRecord, if_neg (by simp)]
    simp [readRecord, recordHeaderLen]
  | cons r rs ih =>
    have hlen := r.length_bytes xxh3
    by_cases hfit : r.len ≤ n
    · -- the record is whole: one step, then the rest of the run after it
      have htake : ((r :: rs).flatMap fun r => r.bytes xxh3).take n
          = r.bytes xxh3 ++ (rs.flatMap fun r => r.bytes xxh3).take (n - r.len) := by
        rw [List.flatMap_cons, List.take_append, hlen, List.take_of_length_le (by omega)]
      have hrest := ih hrise.tail (pre ++ r.bytes xxh3) (n - r.len) (some r.lastSeq)
        (by
          intro r' hr' l hl
          cases hl
          cases rs with
          | nil => simp at hr'
          | cons s rs =>
            cases hr'
            exact (List.isChain_cons_cons.mp hrise).1)
      have hcut : (pre ++ r.bytes xxh3).length + (n - r.len) = pre.length + n := by
        rw [List.length_append, hlen]; omega
      rw [hcut, List.length_append, hlen, List.append_assoc] at hrest
      rw [htake, wholeBefore_cons_of_le (by omega), endOf_cons, List.map_cons]
      refine .step (r.nextRecord_sealed xxh3 pre _) ?_ ?_
      · rw [r.toRecord_firstSeq]
        exact hafter r rfl
      · rwa [r.toRecord_len, r.toRecord_lastSeq]
    · -- the cut lands in this record: torn by its length field
      have htake : ((r :: rs).flatMap fun r => r.bytes xxh3).take n = (r.bytes xxh3).take n := by
        rw [List.flatMap_cons, List.take_append_of_le_length (by omega)]
      rw [htake, wholeBefore_cons_of_lt (by omega)]
      exact .torn (r.nextRecord_prefix xxh3 pre (by omega))

/-- An image whose header parses holds a whole header. -/
theorem headerLen_le_of_parseHeader {xxh3 : Bytes → UInt64} {image : Bytes} {gen : UInt64}
    (h : parseHeader xxh3 image = .ok gen) : headerLen ≤ image.length := by
  unfold parseHeader at h
  split_ifs at h with hshort
  omega

/-- The header is read from its own 64 bytes. -/
theorem parseHeader_append {hdr : Bytes} (tail : Bytes) (hlen : hdr.length = headerLen) :
    parseHeader xxh3 (hdr ++ tail) = parseHeader xxh3 hdr := by
  have h64 : hdr.length = 64 := hlen
  unfold parseHeader
  rw [u32At_append_left (by omega), u16At_append_left (by omega), u64At_append_left (by
      unfold headerLen; omega), range_append_left (by unfold headerLen; omega),
    u64At_append_left (by omega), List.length_append]
  rw [if_neg (show ¬(hdr.length + tail.length < headerLen) by omega),
    if_neg (show ¬(hdr.length < headerLen) by omega)]

/-- What `encode_header` writes is a header. -/
theorem parseHeader_encodeHeader (gen created : UInt64) :
    (encodeHeader xxh3 gen created).length = headerLen ∧
    parseHeader xxh3 (encodeHeader xxh3 gen created) = .ok gen := by
  have hbody : (headerBody gen created).length = 56 := by simp [headerBody]
  have hlen : (encodeHeader xxh3 gen created).length = headerLen := by
    simp [encodeHeader, hbody, headerLen]
  have hmagic : u32At (encodeHeader xxh3 gen created) 0 = magic := by
    simp [encodeHeader, headerBody]
  have hversion : u16At (encodeHeader xxh3 gen created) 4 = version := by
    simp [encodeHeader, headerBody, u16At_append_right]
  have hgen : u64At (encodeHeader xxh3 gen created) 16 = gen := by
    simp [encodeHeader, headerBody, u64At_append_right]
  have hsum : u64At (encodeHeader xxh3 gen created) 56 = xxh3 (headerBody gen created) := by
    rw [encodeHeader, u64At_append_right (by omega), hbody]
    simp
  have hcovered : range (encodeHeader xxh3 gen created) 0 56 = headerBody gen created := by
    rw [encodeHeader, range_zero_append hbody]
  refine ⟨hlen, ?_⟩
  rw [parseHeader, if_neg (by omega), if_neg (by simp [hmagic]), if_neg (by simp [hversion]),
    if_neg (by simp [headerLen, hsum, hcovered]), hgen]

/-- Every op of a sealed record comes out of `ops`, none dropped. -/
theorem ops_toRecord_all (r : SealedRecord) (off : Nat) :
    ((r.toRecord xxh3 off).ops.map fun p => (p.1, some p.2.2))
      = r.seqOps.map fun q => (q.1, OpView.trusted q.2) := by
  have h := congrArg (List.map fun p : Nat × OpView => (p.1, some p.2)) (r.ops_toRecord xxh3 off)
  rw [List.map_map] at h
  refine h.trans ?_
  have hall : ∀ q ∈ r.seqOps, (OpView.trusted q.2).isSome := by
    intro q hq
    obtain ⟨p, hp, rfl⟩ := List.mem_map.mp hq
    obtain ⟨v, -, hv⟩ := (r.ops_valid p.1 (List.fst_mem_of_mem_zipIdx hp)).validateOp_eq
    simp [hv]
  clear h
  generalize r.seqOps = qs at hall
  induction qs with
  | nil => rfl
  | cons q qs ih =>
    obtain ⟨v, hv⟩ := Option.isSome_iff_exists.mp (hall q (by simp))
    simp only [List.filterMap_cons, hv, Option.map_some, List.map_cons,
      ih fun q' hq' => hall q' (by simp [hq'])]

/-- A log of sealed records with rising numbers, cut anywhere at or after its
    header: replay succeeds, and gives the records that lie wholly before the
    cut, each with all its ops; its good length is where the last of them ends,
    which is also what `committed_len` says. And on any image at all, when replay
    succeeds its trusted walk reads exactly the records the scan validated. -/
theorem replay_cut :
    (∀ (hdr : Bytes) (gen : UInt64) (rs : List SealedRecord) (cut : Nat),
      hdr.length = headerLen → parseHeader xxh3 hdr = .ok gen → Rising rs → headerLen ≤ cut →
      ∃ rep, replay xxh3 ((hdr ++ rs.flatMap fun r => r.bytes xxh3).take cut) = .ok rep ∧
        rep.baseGeneration = gen ∧
        rep.records
          = ((wholeBefore cut headerLen rs).map fun p => p.2.toRecord xxh3 p.1) ∧
        (rep.records.map fun r => r.ops.map fun p => (p.1, some p.2.2))
          = ((wholeBefore cut headerLen rs).map fun p =>
              p.2.seqOps.map fun q => (q.1, OpView.trusted q.2)) ∧
        rep.goodLen = endOf headerLen (wholeBefore cut headerLen rs) ∧
        committedLen xxh3 ((hdr ++ rs.flatMap fun r => r.bytes xxh3).take cut) = rep.goodLen) ∧
    (∀ (image : Bytes) (rep : Replay), replay xxh3 image = .ok rep →
      ∃ rs, Validated xxh3 image headerLen none rs rep.goodLen ∧ rep.records = rs) := by
  constructor
  · intro hdr gen rs cut hlen hparse hrise hcut
    have hsplit : (hdr ++ rs.flatMap fun r => r.bytes xxh3).take cut
        = hdr ++ (rs.flatMap fun r => r.bytes xxh3).take (cut - headerLen) := by
      rw [List.take_append, hlen, List.take_of_length_le (by omega)]
    have hrun := validated_cut xxh3 hrise hdr (cut - headerLen) none (by simp)
    rw [hlen, Nat.add_sub_cancel' hcut] at hrun
    have hrep : replay xxh3 (hdr ++ (rs.flatMap fun r => r.bytes xxh3).take (cut - headerLen))
        = .ok ⟨gen, endOf headerLen (wholeBefore cut headerLen rs),
            hdr ++ (rs.flatMap fun r => r.bytes xxh3).take (cut - headerLen)⟩ := by
      rw [replay, parseHeader_append xxh3 _ hlen, hparse]
      simp only [bind, Except.bind, hrun.scan_eq]
    have hrecords := hrun.records_eq (by rw [List.length_append]; omega)
    rw [hsplit]
    refine ⟨_, hrep, rfl, hrecords, ?_, rfl, ?_⟩
    · have h := congrArg (List.map fun r : Record => r.ops.map fun p => (p.1, some p.2.2)) hrecords
      refine h.trans ?_
      rw [List.map_map]
      exact List.map_congr_left fun p _ => ops_toRecord_all xxh3 p.2 p.1
    · -- the same run, read from the frames alone
      have hframes := validated_cut xxh3 hrise [] (cut - headerLen) none (by simp)
      rw [List.nil_append, List.length_nil, Nat.zero_add] at hframes
      rw [committedLen, parseHeader_append xxh3 _ hlen, hparse]
      simp only
      rw [List.drop_left' hlen, committedFramesLen, hframes.scan_eq]
      have hshift := endOf_shift headerLen 0 (cut - headerLen) rs
      rw [Nat.add_zero, Nat.add_sub_cancel' hcut] at hshift
      exact hshift.symm
  · intro image rep hrep
    rw [replay] at hrep
    cases hparse : parseHeader xxh3 image with
    | error e => simp [hparse, bind, Except.bind] at hrep
    | ok gen =>
      simp only [hparse, bind, Except.bind] at hrep
      cases hcorrupt : (scan xxh3 image headerLen none).corrupt with
      | some e => simp [hcorrupt] at hrep
      | none =>
        simp only [hcorrupt, Except.ok.injEq] at hrep
        subst hrep
        obtain ⟨rs, hrun⟩ := validated_of_scan hcorrupt
        exact ⟨rs, hrun, hrun.records_eq (headerLen_le_of_parseHeader hparse)⟩

/-- A record of one remove, numbered `seq`. -/
def removeRecord (seq : UInt64) (key : UrlKey) (h : seq ≠ 0) : SealedRecord where
  firstSeq := seq
  ops := [opBytes opRemove 0 key []]
  ops_ne := by simp
  ops_valid := by simpa using validOp_remove key
  size_le := by simp [recordHeaderLen, maxRecord]
  first_ne := h
  no_overflow := by simpa using seq.toNat_lt

/-- Two one-op records of 48 bytes, cut 18 bytes into the second. -/
theorem replay_cut_second_record :
    ∃ rep, replay (fun _ => 0) ((encodeHeader (fun _ => 0) 3 0 ++
        [removeRecord 1 8 (by decide), removeRecord 2 9 (by decide)].flatMap
          (fun r => r.bytes (fun _ => 0))).take 130) = .ok rep ∧
      rep.goodLen = 112 := by
  obtain ⟨rep, hrep, -, -, -, hgood, -⟩ := (replay_cut (fun _ => 0)).1
    (encodeHeader (fun _ => 0) 3 0) 3
    [removeRecord 1 8 (by decide), removeRecord 2 9 (by decide)] 130
    (parseHeader_encodeHeader _ 3 0).1 (parseHeader_encodeHeader _ 3 0).2
    (List.isChain_pair.mpr (by decide)) (by decide)
  exact ⟨rep, hrep, hgood.trans rfl⟩

end cut

end GraphR.Wal
