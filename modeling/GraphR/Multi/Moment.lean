import GraphR.Multi.Frame

/-! # A log as it was at some moment

    A log read at a moment holds the records behind the base of its generation
    that were committed by then, and at most a torn one behind them. Reading it
    gives a generation that shows a prefix of the history: the longer of what it
    showed and of what the log holds. Nothing here asks that the log is the
    newest one. -/

namespace GraphR.Multi

open Wal ByteLib

/-- The log holds the records from its base's to the `n`-th. -/
structure LogAt (xxh3 : Bytes → UInt64) (hist : List SealedRecord) (fold : Nat → Nat) (n : Nat)
    (l : DiskLog) : Prop where
  ge : fold l.generation ≤ n
  le : n ≤ hist.length
  frames : ∃ tail, Torn xxh3 tail ∧
    l.frames = bytesOf xxh3 ((hist.take n).drop (fold l.generation)) ++ tail

/-- What of two runs of records from one place on is the longer. -/
theorem take_drop_max (hist : List SealedRecord) {a k : Nat} (hak : a ≤ k) (n : Nat) :
    (hist.take k).drop a ++ (hist.take n).drop k = (hist.take (max k n)).drop a := by
  rcases Nat.le_total k n with h | h
  · rw [Nat.max_eq_right h, drop_eq_append (hist.take n) hak, List.take_take, Nat.min_eq_left h]
  · have hnil : (hist.take n).drop k = [] := List.drop_eq_nil_of_le (by simp; omega)
    rw [Nat.max_eq_left h, hnil, List.append_nil]

/-- The bytes of a run of records from the `i`-th on. -/
theorem range_frames {xxh3 : Bytes → UInt64} (rs : List SealedRecord) (tail : Bytes) (i : Nat) :
    range (bytesOf xxh3 rs ++ tail) (size (rs.take i)) (size rs - size (rs.take i))
      = bytesOf xxh3 (rs.drop i) := by
  have hsize : size rs - size (rs.take i) = size (rs.drop i) := by
    conv_lhs => rw [← List.take_append_drop i rs, size_append]
    rw [List.take_append_drop]
    omega
  show ((bytesOf xxh3 rs ++ tail).drop (size (rs.take i))).take (size rs - size (rs.take i)) = _
  rw [drop_bytesOf, hsize, take_bytesOf]

section moment
variable {xxh3 : Bytes → UInt64} {hist : List SealedRecord} {fold : Nat → Nat}
  (hrise : Rising hist)
include hrise

/-- A publication of records up to the `n`-th adds those not served. -/
theorem publishAbove_upto {a k n head : Nat} (hak : a ≤ k) {g g' : Gen} {c : Bool}
    (hpub : g.publishAbove (endSeq (hist.take k)) (bytesOf xxh3 ((hist.take n).drop a)) head
      = .ok (g', c)) :
    g'.base = g.base ∧ g'.log = g.log ++ opsOf ((hist.take n).drop k) ∧
      (g'.segs = 0 → opsOf ((hist.take n).drop k) = []) := by
  rcases Nat.le_total k n with h | h
  · have htake : hist.take k = (hist.take n).take k := by rw [List.take_take, Nat.min_eq_left h]
    rw [htake] at hpub
    exact publishAbove_drop (hrise.take n) hak hpub
  · -- everything is served
    have hnil : (hist.take n).drop k = [] := List.drop_eq_nil_of_le (by simp; omega)
    have hnone : Gen.newOps (endSeq (hist.take k))
        (records (bytesOf xxh3 ((hist.take n).drop a)) 0 (bytesOf xxh3 ((hist.take n).drop a)).length)
        = 0 := by
      rw [records_bytesOf ((hrise.take n).drop a), newOps_placed, List.sum_eq_zero]
      intro m hm
      obtain ⟨r, hr, rfl⟩ := List.mem_map.mp hm
      have hmem : r ∈ hist.take k :=
        (List.take_sublist_take_left h).subset (List.mem_of_mem_drop hr)
      rw [if_neg (Nat.not_lt.mpr ((hrise.take k).lastSeq_le hmem))]
    unfold Gen.publishAbove at hpub
    simp only [hnone, if_true] at hpub
    cases hpub
    simp [hnil]

/-- The last number up to the `n`-th record, from the records behind the
    `a`-th. -/
theorem max_endSeq {a n : Nat} (han : a ≤ n) :
    ((((hist.take n).drop a).getLast?.map SealedRecord.lastSeq).map
        fun s => max s (endSeq (hist.take a))).getD (endSeq (hist.take a)) = endSeq (hist.take n) := by
  have hmono := hrise.endSeq_mono han
  have hsplit : hist.take n = hist.take a ++ (hist.take n).drop a := by
    conv_lhs => rw [← List.take_append_drop a (hist.take n)]
    rw [List.take_take, Nat.min_eq_left han]
  have hend : endSeq (hist.take n) = (((hist.take n).drop a).getLast?.map SealedRecord.lastSeq).getD
      (endSeq (hist.take a)) := by
    unfold endSeq
    conv_lhs => rw [hsplit, List.getLast?_append]
    cases ((hist.take n).drop a).getLast? <;> rfl
  cases hlast : ((hist.take n).drop a).getLast? with
  | none => simp [hend, hlast]
  | some r =>
    rw [hlast] at hend
    rw [hend] at hmono ⊢
    simp only [Option.map_some, Option.getD_some] at hmono ⊢
    exact Nat.max_eq_left hmono

/-- The first record that holds an unserved op, of those up to the `n`-th. -/
theorem find_upto {a k : Nat} (hak : a ≤ k) (n : Nat) :
    (((placed 0 ((hist.take n).drop a)).map fun p => p.2.toRecord xxh3 p.1).find? (fun r =>
        endSeq (hist.take k) < r.lastSeq) = none → (hist.take n).drop k = []) ∧
      ∀ rec, ((placed 0 ((hist.take n).drop a)).map fun p => p.2.toRecord xxh3 p.1).find? (fun r =>
        endSeq (hist.take k) < r.lastSeq) = some rec →
      ∃ i, a + i ≤ k ∧ rec.offset = size (((hist.take n).drop a).take i) := by
  rcases Nat.le_total k n with h | h
  · have htake : hist.take k = (hist.take n).take k := by rw [List.take_take, Nat.min_eq_left h]
    rw [htake]
    exact find_unserved (hrise.take n) hak
  · refine ⟨fun _ => List.drop_eq_nil_of_le (by simp; omega), ?_⟩
    intro rec hrec
    have hfind := @find_placed xxh3 (endSeq (hist.take k)) 0 ((hist.take n).drop a)
    rw [hrec] at hfind
    obtain ⟨i, hi, hoff, -⟩ := hfind
    simp only [List.length_drop, List.length_take] at hi
    exact ⟨i, by omega, by rw [hoff, Nat.zero_add]⟩

section reads
variable {l : DiskLog} {n : Nat} (hl : LogAt xxh3 hist fold n l)
include hl

/-- Publishing the records of the log from the `i`-th on, none of them past the
    `k` served ones. -/
theorem LogAt.publishNew {g g' : Gen} {k i head : Nat} {c : Bool} (hs : g.Serves hist fold k)
    (hf : Folds hist fold g.base) (hik : fold l.generation + i ≤ k)
    (hpub : g.publishNew (bytesOf xxh3 (((hist.take n).drop (fold l.generation)).drop i)) head
      = .ok (g', c)) :
    g'.base = g.base ∧ g'.Serves hist fold (max k n) := by
  unfold Gen.publishNew at hpub
  rw [hs.servedSeq hf hrise, List.drop_drop] at hpub
  obtain ⟨hbase, hlog, -⟩ := publishAbove_upto hrise hik hpub
  refine ⟨hbase, ?_, ?_, ?_⟩
  · rw [hbase]
    exact hs.ge.trans (Nat.le_max_left k n)
  · exact Nat.max_le.mpr ⟨hs.le, hl.le⟩
  · rw [hlog, hs.log, hbase, ← opsOf_append, take_drop_max hist hs.ge]

/-- `apply_log` on a log of the served generation, older or newer than what is
    served. -/
theorem LogAt.applyLog {r r' : Ring} {k pos : Nat} (hs : r.served.Serves hist fold k)
    (hf : Folds hist fold r.served.base)
    (hr : applyLog xxh3 r (some l) = .ok (some (r', pos))) :
    l.generation = r.served.base.generation ∧ r'.served.base = r.served.base ∧
      r'.served.Serves hist fold (max k n) ∧
      pos = headerLen + size ((hist.take n).drop (fold l.generation)) := by
  obtain ⟨tail, htorn, hframes⟩ := hl.frames
  have hrun := (hrise.take n).drop (fold l.generation)
  unfold Multi.applyLog at hr
  simp only at hr
  by_cases hgen : l.generation = r.served.base.generation
  swap
  · rw [if_pos hgen] at hr
    cases hr
  rw [if_neg fun hne => hne hgen, hframes, wholeEnd_frames hrun htorn, FaultLib.bind_ok] at hr
  obtain ⟨stop, hstop, hr⟩ := hr
  cases hstop
  rw [records_frames hrun htorn, hs.servedSeq hf hrise] at hr
  have hstart : fold l.generation ≤ k := by
    rw [hgen]
    exact hs.ge
  obtain ⟨hnone, hsome⟩ := @find_upto xxh3 hist hrise _ _ hstart n
  refine ⟨hgen, ?_⟩
  cases hrec : ((placed 0 ((hist.take n).drop (fold l.generation))).map
      fun p => p.2.toRecord xxh3 p.1).find? fun r => endSeq (hist.take k) < r.lastSeq with
  | none =>
    rw [hrec] at hr
    cases hr
    -- nothing past what is served
    have hle : n ≤ k := by
      have hnil := List.drop_eq_nil_iff.mp (hnone hrec)
      rwa [List.length_take, Nat.min_eq_left hl.le] at hnil
    rw [Nat.max_eq_left hle]
    exact ⟨rfl, hs, rfl⟩
  | some rec =>
    rw [hrec] at hr
    simp only at hr
    obtain ⟨i, hi, hoff⟩ := hsome rec hrec
    rw [FaultLib.bind_ok] at hr
    obtain ⟨⟨g, c⟩, hpub, hr⟩ := hr
    cases hr
    rw [hoff, range_frames] at hpub
    obtain ⟨hbase, hserves⟩ := hl.publishNew hrise hs hf hi hpub
    rw [Ring.served_serve]
    exact ⟨hbase, hserves, rfl⟩

/-- `build_generation` from a base that folded its part and a log: the records
    the log has up to its moment, or none where it is not the base's. -/
theorem LogAt.buildGeneration {b : DiskBase} {built : Built} (hb : Folds hist fold b)
    (hr : buildGeneration xxh3 b (some l) = .ok built) (hlog : built.log ≠ .newer) :
    built.gen.base = b ∧
      ((l.generation = b.generation ∧ built.gen.Serves hist fold n ∧
          (built.gen.segs = 0 → n = fold b.generation) ∧ isCurrent built.log = true ∧
          built.nextSeq = endSeq (hist.take n) + 1 ∧
          built.goodLen = headerLen + size ((hist.take n).drop (fold l.generation))) ∨
        (l.generation < b.generation ∧ built.gen.Serves hist fold (fold b.generation) ∧
          built.gen.segs = 0 ∧ isCurrent built.log = false ∧ built.nextSeq = endSeq (hist.take (fold b.generation)) + 1 ∧
          built.goodLen = headerLen)) := by
  unfold Multi.buildGeneration at hr
  simp only at hr
  split_ifs at hr with hnewer hstale
  · cases hr
    exact absurd rfl hlog
  · cases hr
    refine ⟨rfl, .inr ⟨hstale, ⟨le_rfl, hb.le, ?_⟩, rfl, rfl, ?_, rfl⟩⟩
    · simp
    · show b.applied + 1 = _
      rw [hb.applied]
  · have hgen : l.generation = b.generation := by omega
    obtain ⟨tail, htorn, hframes⟩ := hl.frames
    have hrun := (hrise.take n).drop (fold l.generation)
    have hlast := lastSeq_frames hrun htorn
    rw [hframes, wholeEnd_frames hrun htorn, FaultLib.bind_ok] at hr
    obtain ⟨stop, hstop, hr⟩ := hr
    cases hstop
    simp only [take_bytesOf] at hr
    cases hpub : (Gen.mk b [] 0).publishAbove b.applied
        (bytesOf xxh3 ((hist.take n).drop (fold l.generation))) headerLen with
    | error e => simp [hpub] at hr
    | ok gc =>
      obtain ⟨g, c⟩ := gc
      rw [hpub] at hr
      simp only [Except.ok.injEq] at hr
      subst hr
      have hge := hl.ge
      rw [hgen] at hge
      rw [hb.applied, hgen] at hpub
      obtain ⟨hbase, hglog, hsegs⟩ := publishAbove_upto hrise le_rfl hpub
      refine ⟨hbase, .inl ⟨hgen, ⟨?_, hl.le, ?_⟩, ?_, rfl, ?_, rfl⟩⟩
      · rw [hbase]
        exact hge
      · rw [hglog, hbase]
        rfl
      · intro hseg
        have hnil := List.drop_eq_nil_iff.mp (opsOf_eq_nil (hsegs hseg))
        rw [List.length_take, Nat.min_eq_left hl.le] at hnil
        omega
      · -- the next number: above the last record's, or above the base's
        simp only [hlast]
        rw [hb.applied, hgen]
        exact congrArg (· + 1) (max_endSeq hrise hge)

end reads

end moment

end GraphR.Multi
