import GraphR.Format.Wal.Cut

/-! # The frames of a log

    The records of a log under its header, all of them whole or the last one torn:
    what a scan finds, where it stops, and the ops an overlay publishes from it. -/

namespace GraphR.Wal

open ByteLib

/-! ## The ops of a record -/

namespace SealedRecord

variable (r : SealedRecord)

/-- The ops as an overlay publishes them. -/
def views : List (Nat × OpView) :=
  r.seqOps.filterMap fun q => (OpView.trusted q.2).map fun v => (q.1, v)

/-- None is dropped, and they are numbered from the first. -/
theorem numbers_views : r.views.map Prod.fst = List.range' r.firstSeq.toNat r.ops.length := by
  have hall : ∀ q ∈ r.seqOps, (OpView.trusted q.2).isSome := by
    intro q hq
    obtain ⟨p, hp, rfl⟩ := List.mem_map.mp hq
    obtain ⟨v, -, hv⟩ := (r.ops_valid p.1 (List.fst_mem_of_mem_zipIdx hp)).validateOp_eq
    simp [hv]
  have hfst : r.views.map Prod.fst = r.seqOps.map Prod.fst := by
    unfold views
    generalize r.seqOps = qs at hall
    induction qs with
    | nil => rfl
    | cons q qs ih =>
      obtain ⟨v, hv⟩ := Option.isSome_iff_exists.mp (hall q List.mem_cons_self)
      simp only [List.filterMap_cons, hv, Option.map_some, List.map_cons,
        ih fun q' hq' => hall q' (List.mem_cons_of_mem _ hq')]
  rw [hfst, seqOps, List.map_map]
  exact List.zipIdx_map_snd _ _

theorem mem_views {r : SealedRecord} {e : Nat × OpView} (he : e ∈ r.views) :
    r.firstSeq.toNat ≤ e.1 ∧ e.1 ≤ r.lastSeq := by
  have hmem := List.mem_map_of_mem (f := Prod.fst) he
  rw [numbers_views, List.mem_range'_1] at hmem
  unfold lastSeq
  omega

end SealedRecord

/-! ## Records one after the other -/

section frames
variable {xxh3 : Bytes → UInt64} {rs : List SealedRecord}

/-- The frames of a log. -/
def frames (xxh3 : Bytes → UInt64) (rs : List SealedRecord) : Bytes :=
  rs.flatMap fun r => r.bytes xxh3

/-- Whatever their offsets, the records of a log have these ops. -/
theorem flatMap_ops_placed (pos : Nat) (rs : List SealedRecord) :
    (((placed pos rs).map fun p => p.2.toRecord xxh3 p.1).flatMap fun r =>
      r.ops.map fun p => (p.1, p.2.2)) = rs.flatMap SealedRecord.views := by
  induction rs generalizing pos with
  | nil => rfl
  | cons r rs ih =>
    simp only [placed, List.map_cons, List.flatMap_cons, ih, r.ops_toRecord]
    rfl

theorem length_frames_cons (r : SealedRecord) (rs : List SealedRecord) :
    (frames xxh3 (r :: rs)).length = r.len + (frames xxh3 rs).length := by
  rw [frames, List.flatMap_cons, List.length_append, r.length_bytes]
  rfl

/-- With less than the next record behind them, they are the whole ones. -/
theorem wholeBefore_frames {rest : List SealedRecord} {pos kept : Nat}
    (hrest : ∀ r ∈ rest.head?, kept < r.len) :
    wholeBefore (pos + (frames xxh3 rs).length + kept) pos (rs ++ rest) = placed pos rs := by
  induction rs generalizing pos with
  | nil =>
    cases rest with
    | nil => rfl
    | cons r rest =>
      have hlt := hrest r rfl
      exact wholeBefore_cons_of_lt (by simpa [frames] using hlt)
  | cons r rs ih =>
    have hlen := @length_frames_cons xxh3 r rs
    rw [List.cons_append, wholeBefore_cons_of_le (by omega)]
    have hnext := @ih (pos + r.len)
    rw [show pos + r.len + (frames xxh3 rs).length + kept
      = pos + (frames xxh3 (r :: rs)).length + kept by omega] at hnext
    rw [hnext]
    rfl

theorem endOf_placed (pos : Nat) (rs : List SealedRecord) :
    endOf pos (placed pos rs) = pos + (frames xxh3 rs).length := by
  induction rs generalizing pos with
  | nil => rfl
  | cons r rs ih =>
    rw [placed, endOf_cons, ih, length_frames_cons]
    exact Nat.add_assoc _ _ _

/-- A scan of the frames finds the records, and stops behind the last of them whatever
    part of another record follows. -/
theorem validated_frames {rest : List SealedRecord} (hrise : Rising (rs ++ rest)) (pre : Bytes)
    {kept : Nat} (hrest : ∀ r ∈ rest.head?, kept < r.len) :
    Validated xxh3 (pre ++ (frames xxh3 rs ++ (frames xxh3 rest).take kept)) pre.length none
      ((placed pre.length rs).map fun p => p.2.toRecord xxh3 p.1)
      (pre.length + (frames xxh3 rs).length) := by
  -- a cut inside the next record leaves the records before it
  have h := validated_cut xxh3 hrise pre ((frames xxh3 rs).length + kept) none (by simp)
  rw [← Nat.add_assoc, wholeBefore_frames hrest, @endOf_placed xxh3] at h
  have htake : ((rs ++ rest).flatMap fun r => r.bytes xxh3).take ((frames xxh3 rs).length + kept)
      = frames xxh3 rs ++ (frames xxh3 rest).take kept := by
    rw [List.flatMap_append]
    exact List.take_length_add_append kept
  rwa [htake] at h

end frames

end GraphR.Wal
