import GraphR.Format.Wal.Safe

/-! # Where the ops of a validated record lie

    The walk over a record finds as many ops as its header counts, numbered one
    after another from its first sequence number, and each lies in the image the
    record was read from, at the offset it is given with. -/

namespace GraphR.Wal

open ByteLib

/-- The walk finds the ops that were checked, each where its offset says. -/
theorem walk_of_checkOps {rec : Bytes} {pos count k i at_ stop fuel : Nat}
    (h : checkOps rec pos count k i at_ = .ok stop) (hat : at_ ≤ rec.length)
    (hstop : stop = rec.length) (hfuel : rec.length ≤ at_ + fuel) :
    (opWalk rec fuel at_).length = k ∧
      ∀ p ∈ opWalk rec fuel at_, p.1 + p.2.length ≤ rec.length ∧ range rec p.1 p.2.length = p.2 := by
  induction k generalizing i at_ fuel with
  | zero =>
    -- nothing left
    simp only [checkOps, Except.ok.injEq] at h
    cases fuel with
    | zero => simp [opWalk]
    | succ fuel =>
      have hshort : rec.length - at_ < opHeaderLen := by simp [opHeaderLen]; omega
      rw [opWalk, if_neg (by omega), if_pos hshort]
      simp
  | succ k ih =>
    unfold checkOps at h
    simp only at h
    split_ifs at h with hshort hlen
    push Not at hlen
    cases hv : validateOp (range rec at_ (u32At rec at_).toNat) with
    | error e => simp [hv] at h
    | ok v =>
      simp only [hv] at h
      have hhead : opHeaderLen = 16 := rfl
      cases fuel with
      | zero => omega
      | succ fuel =>
        obtain ⟨hcount, hplaced⟩ := @ih _ _ fuel h (by omega) (by omega)
        rw [opWalk, if_neg (by omega), if_neg hshort]
        simp only
        rw [if_pos ⟨hlen.2.2, hlen.1⟩]
        have hwhole : (range rec at_ (u32At rec at_).toNat).length = (u32At rec at_).toNat :=
          length_range_of_inBounds (show at_ + (u32At rec at_).toNat ≤ rec.length by omega)
        refine ⟨by rw [List.length_cons, hcount], ?_⟩
        intro p hp
        rcases List.mem_cons.mp hp with rfl | hp
        · refine ⟨?_, ?_⟩
          · simp only [hwhole]
            omega
          · simp only [hwhole]
        · exact hplaced p hp

/-- The record's numbers fit, and its ops lie in the image. -/
structure Placed (image : Bytes) (r : Record) : Prop where
  first : 1 ≤ r.firstSeq
  count : 1 ≤ r.opCount
  last : r.lastSeq < 2 ^ 64
  seqs : r.rawOps.map Prod.fst = (List.range r.opCount).map (r.firstSeq + ·)
  valid : ∀ p ∈ r.rawOps, ValidOp p.2.2
  inside : ∀ p ∈ r.rawOps, p.2.1 + p.2.2.length ≤ image.length
  there : ∀ p ∈ r.rawOps, range image p.2.1 p.2.2.length = p.2.2

section image
variable {xxh3 : Bytes → UInt64} {image : Bytes}

theorem placed_of_nextRecord {pos : Nat} {r : Record}
    (h : nextRecord xxh3 image pos = .ok (.record r)) : Placed image r := by
  obtain ⟨hoff, -, hin, hbytes⟩ := nextRecord_record h
  have hcheck := checkRecord_of_nextRecord h
  unfold checkRecord at hcheck
  split_ifs at hcheck with hres hseq
  push Not at hseq
  obtain ⟨hfirst, hcount, hover⟩ := hseq
  cases hops : checkOps r.bytes pos (u32At r.bytes 16).toNat (u32At r.bytes 16).toNat 0
      recordHeaderLen with
  | error e => simp [hops, bind, Except.bind] at hcheck
  | ok stop =>
    simp only [hops, bind, Except.bind] at hcheck
    split_ifs at hcheck with hstop
    push Not at hstop
    have hmin : 48 ≤ r.bytes.length := r.minLen
    have hhead : recordHeaderLen = 32 := rfl
    have hvalid := opWalk_of_checkOps hops (by omega) hstop
      (show r.bytes.length ≤ recordHeaderLen + r.bytes.length by omega)
    obtain ⟨hlen, hplaced⟩ := walk_of_checkOps hops (by omega) hstop
      (show r.bytes.length ≤ recordHeaderLen + r.bytes.length by omega)
    have hfirst' : 1 ≤ r.firstSeq := by
      have hne : (u64At r.bytes 8).toNat ≠ 0 := fun h0 => hfirst (UInt64.toNat_inj.mp h0)
      show 1 ≤ (u64At r.bytes 8).toNat
      omega
    have hcount' : 1 ≤ r.opCount := by
      have hne : (u32At r.bytes 16).toNat ≠ 0 := fun h0 => hcount (UInt32.toNat_inj.mp h0)
      show 1 ≤ (u32At r.bytes 16).toNat
      omega
    -- an op of the walk is one of the record, moved to where the record lies
    have hraw : ∀ p ∈ r.rawOps, ∃ q ∈ opWalk r.bytes r.bytes.length recordHeaderLen,
        p.2 = (r.offset + q.1, q.2) := by
      intro p hp
      obtain ⟨z, hz, rfl⟩ := List.mem_map.mp hp
      exact ⟨z.1, (List.of_mem_zip hz).1, rfl⟩
    refine ⟨hfirst', hcount', ?_, ?_, ?_, ?_, ?_⟩
    · have hover' : (u64At r.bytes 8).toNat + ((u32At r.bytes 16).toNat - 1) < 2 ^ 64 := by
        simpa [seqOverflows] using hover
      have hle : r.firstSeq + r.opCount - 1 < 2 ^ 64 := by
        show (u64At r.bytes 8).toNat + (u32At r.bytes 16).toNat - 1 < 2 ^ 64
        have : 1 ≤ (u32At r.bytes 16).toNat := hcount'
        omega
      exact hle
    · have hzip : ((opWalk r.bytes r.bytes.length recordHeaderLen).zip (List.range r.opCount)).map
          Prod.snd = List.range r.opCount := by
        rw [List.map_snd_zip]
        rw [List.length_range, hlen]
        exact le_rfl
      calc r.rawOps.map Prod.fst
          = (((opWalk r.bytes r.bytes.length recordHeaderLen).zip (List.range r.opCount)).map
              Prod.snd).map (r.firstSeq + ·) := by simp [Record.rawOps]
        _ = (List.range r.opCount).map (r.firstSeq + ·) := by rw [hzip]
    · intro p hp
      obtain ⟨q, hq, heq⟩ := hraw p hp
      rw [heq]
      exact hvalid q hq
    · intro p hp
      obtain ⟨q, hq, heq⟩ := hraw p hp
      have hle := (hplaced q hq).1
      rw [heq]
      simp only [Record.len] at hin
      simp only
      omega
    · intro p hp
      obtain ⟨q, hq, heq⟩ := hraw p hp
      obtain ⟨hle, hsame⟩ := hplaced q hq
      rw [heq]
      simp only
      have hcut : range (range image pos r.len) q.1 q.2.length = range image (pos + q.1) q.2.length :=
        range_range (by rwa [Record.len])
      rw [hoff, ← hcut, ← hbytes, hsame]

/-- Every record of a run lies in its image. -/
theorem Validated.placed {pos stop : Nat} {after : Option Nat} {rs : List Record}
    (h : Validated xxh3 image pos after rs stop) : ∀ r ∈ rs, Placed image r := by
  induction h with
  | torn h => simp
  | step h hseq hrest ih =>
    intro r hr
    rcases List.mem_cons.mp hr with rfl | hr
    · exact placed_of_nextRecord h
    · exact ih r hr

end image

namespace Placed

variable {image : Bytes} {r : Record}

/-- Every op of it is one the trusted view knows. -/
theorem ops_eq (h : Placed image r) :
    r.ops.map (fun p => (p.1, p.2.1)) = r.rawOps.map fun p => (p.1, p.2.1) := by
  unfold Record.ops
  have hvalid := h.valid
  generalize r.rawOps = raw at hvalid
  induction raw with
  | nil => rfl
  | cons p raw ih =>
    obtain ⟨v, -, hv⟩ := (hvalid p (by simp)).validateOp_eq
    rw [List.filterMap_cons, hv]
    simp only [Option.map_some, List.map_cons, List.cons.injEq, true_and]
    exact ih fun q hq => hvalid q (by simp [hq])

/-- How many numbers of a run lie above one. -/
theorem length_filter_range (first count above : Nat) (hcount : 1 ≤ count) :
    (((List.range count).map (first + ·)).filter fun n => above < n).length
      = if above < first + count - 1 then min (first + count - 1 - above) count else 0 := by
  induction count with
  | zero => omega
  | succ count ih =>
    rw [List.range_succ, List.map_append, List.filter_append, List.length_append, List.map_singleton]
    by_cases hzero : count = 0
    · subst hzero
      by_cases hlt : above < first
      · simp [hlt]
        omega
      · simp [hlt]
    · rw [ih (by omega)]
      by_cases hlt : above < first + count
      · simp only [List.filter_cons, hlt, decide_true, if_true, List.filter_nil,
          List.length_singleton]
        split_ifs <;> omega
      · simp only [List.filter_cons, hlt, decide_false, Bool.false_eq_true, if_false,
          List.filter_nil, List.length_nil]
        split_ifs <;> omega

/-- The ops of a record above a number, counted from its header. -/
theorem length_above (h : Placed image r) (above : Nat) :
    (r.rawOps.filter fun p => above < p.1).length
      = if above < r.lastSeq then min (r.lastSeq - above) r.opCount else 0 := by
  have hmap : (r.rawOps.filter fun p => above < p.1).length
      = ((r.rawOps.map Prod.fst).filter fun n => above < n).length := by
    rw [List.filter_map, List.length_map]
    rfl
  rw [hmap, h.seqs, length_filter_range _ _ _ h.count]
  rfl

end Placed

/-- A record alone is a run of one. -/
theorem SealedRecord.validated_alone {xxh3 : Bytes → UInt64} (r : SealedRecord) :
    Validated xxh3 (r.bytes xxh3) 0 none [r.toRecord xxh3 0] (r.bytes xxh3).length := by
  have hstep := r.nextRecord_sealed xxh3 [] []
  refine .step (by simpa using hstep) (by simp) ?_
  rw [r.toRecord_len, ← r.length_bytes xxh3, Nat.zero_add]
  apply Validated.torn
  rw [nextRecord, if_neg (by simp)]
  simp [readRecord, recordHeaderLen]

end GraphR.Wal
