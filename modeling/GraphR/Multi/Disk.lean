import GraphR.Multi.Frame

/-! # What the writes do to the files

    Each write of the protocol, on files that hold the history: bytes behind the
    last record, a whole record, a cut, a fresh log, a newer base. -/

namespace GraphR.Multi

open Wal ByteLib

section disk
variable {xxh3 : Bytes → UInt64} {w : World} (hd : DiskOk xxh3 w)
include hd

/-- Only what lies behind the last record changes. -/
theorem DiskOk.withTail {frames tail : Bytes} (htorn : Torn xxh3 tail)
    (hframes : frames = bytesOf xxh3 w.logged ++ tail) :
    DiskOk xxh3 { w with log := { w.log with frames := frames } } :=
  { hd with frames := ⟨tail, htorn, hframes⟩ }

/-- A record is appended whole to a log that is current. -/
theorem DiskOk.append {r : SealedRecord} (hgen : w.log.generation = w.base.generation)
    (hseq : endSeq w.hist < r.firstSeq.toNat)
    (hroom : (opsOf w.logged).length + r.ops.length ≤ arenaCapacity) :
    DiskOk xxh3 { w with
      hist := w.hist ++ [r]
      log := { w.log with frames := bytesOf xxh3 w.logged ++ r.bytes xxh3 } } := by
  have hlogged : (w.hist ++ [r]).drop w.start = w.logged ++ [r] :=
    List.drop_append_of_le_length hd.start_le
  have hlen : (w.hist ++ [r]).length = w.hist.length + 1 := by simp
  exact
    { rising := hd.rising.concat hseq
      mem := hd.mem
      newest := hd.newest
      ascending := hd.ascending
      folds := by
        intro b hb
        obtain ⟨hle, hops, happlied⟩ := hd.folds b hb
        refine ⟨?_, ?_, ?_⟩
        · show w.fold b.generation ≤ (w.hist ++ [r]).length
          omega
        · rw [List.take_append_of_le_length hle]
          exact hops
        · rw [List.take_append_of_le_length hle]
          exact happlied
      fold_le := hd.fold_le
      base_fresh := hd.base_fresh
      log_fresh := hd.log_fresh
      log_le := hd.log_le
      behind := hd.behind
      folded_all := by
        intro hlt
        exact absurd hgen (Nat.ne_of_lt hlt)
      start_le := by
        show w.start ≤ (w.hist ++ [r]).length
        have := hd.start_le
        omega
      frames := by
        refine ⟨[], torn_nil xxh3, ?_⟩
        show bytesOf xxh3 w.logged ++ r.bytes xxh3 = bytesOf xxh3 ((w.hist ++ [r]).drop w.start) ++ []
        rw [hlogged, bytesOf_append, bytesOf_singleton, List.append_nil]
      room := by
        show (opsOf ((w.hist ++ [r]).drop w.start)).length ≤ arenaCapacity
        rw [hlogged, opsOf_append, opsOf_singleton, List.length_append, length_seqOps]
        exact hroom }

/-- The last record is taken back, a record no base has folded. -/
theorem DiskOk.cutBack {before : List SealedRecord} {r : SealedRecord}
    (hhist : w.hist = before ++ [r]) (hgen : w.log.generation = w.base.generation)
    (hfolds : ∀ b ∈ w.written, w.fold b.generation ≤ before.length) (hstart : w.start ≤ before.length) :
    DiskOk xxh3 { w with
      hist := before
      log := { w.log with frames := bytesOf xxh3 (before.drop w.start) } } := by
  have hlogged : w.logged = before.drop w.start ++ [r] := by
    rw [World.logged, hhist]
    exact List.drop_append_of_le_length hstart
  have hrise := hd.rising
  rw [hhist] at hrise
  exact
    { rising := (List.isChain_append.mp hrise).1
      mem := hd.mem
      newest := hd.newest
      ascending := hd.ascending
      folds := by
        intro b hb
        have hle := hfolds b hb
        obtain ⟨-, hops, happlied⟩ := hd.folds b hb
        rw [hhist, List.take_append_of_le_length hle] at hops happlied
        exact ⟨hle, hops, happlied⟩
      fold_le := hd.fold_le
      base_fresh := hd.base_fresh
      log_fresh := hd.log_fresh
      log_le := hd.log_le
      behind := hd.behind
      folded_all := by
        intro hlt
        exact absurd hgen (Nat.ne_of_lt hlt)
      start_le := hstart
      frames := ⟨[], torn_nil xxh3, (List.append_nil _).symm⟩
      room := by
        have := hd.room
        rw [hlogged, opsOf_append, List.length_append] at this
        show (opsOf (before.drop w.start)).length ≤ _
        omega }

/-- A fresh log for a base that has folded everything. -/
theorem DiskOk.newLog (hall : w.fold w.base.generation = w.hist.length) :
    DiskOk xxh3 { w with log := ⟨w.fresh, w.base.generation, []⟩, fresh := w.fresh + 1 } := by
  have hlogged : w.hist.drop (w.fold w.base.generation) = [] := by rw [hall, List.drop_length]
  exact
    { rising := hd.rising
      mem := hd.mem
      newest := hd.newest
      ascending := hd.ascending
      folds := hd.folds
      fold_le := hd.fold_le
      base_fresh := Nat.lt_succ_of_lt hd.base_fresh
      log_fresh := Nat.lt_succ_self _
      log_le := le_rfl
      behind := by
        intro b hb hlt
        have := hd.newest b hb
        simp only at hlt
        omega
      folded_all := fun hlt => absurd hlt (Nat.lt_irrefl _)
      start_le := hall.le
      frames := by
        refine ⟨[], torn_nil xxh3, ?_⟩
        show [] = bytesOf xxh3 (w.hist.drop (w.fold w.base.generation)) ++ []
        rw [hlogged]
        rfl
      room := by
        show (opsOf (w.hist.drop (w.fold w.base.generation))).length ≤ _
        rw [hlogged]
        exact Nat.zero_le _ }

/-- A newer base that has folded everything, before its log is there. -/
theorem DiskOk.newBase {b : DiskBase} (hid : b.ident = w.fresh)
    (hgen : b.generation = w.base.generation + 1) (hlog : w.log.generation = w.base.generation)
    (hops : b.folded.flatten = opsOf w.hist) (happlied : b.applied = endSeq w.hist) :
    DiskOk xxh3 { w with
      base := b
      fold := Function.update w.fold b.generation w.hist.length
      fresh := w.fresh + 1
      written := w.written ++ [b] } := by
  -- what older generations had folded stays as it was
  have hold : ∀ g, g ≤ w.base.generation →
      Function.update w.fold b.generation w.hist.length g = w.fold g := by
    intro g hg
    exact Function.update_of_ne (by omega) _ _
  have hstart : Function.update w.fold b.generation w.hist.length w.log.generation = w.start :=
    hold _ hd.log_le
  exact
    { rising := hd.rising
      mem := by simp
      newest := by
        intro b' hb'
        rcases List.mem_append.mp hb' with hb' | hb'
        · have := hd.newest b' hb'
          simp only
          omega
        · rw [List.mem_singleton.mp hb']
      ascending := by
        rw [List.pairwise_append]
        refine ⟨hd.ascending, List.pairwise_singleton _ _, ?_⟩
        intro a ha c hc
        rw [List.mem_singleton.mp hc]
        have := hd.newest a ha
        omega
      folds := by
        intro b' hb'
        rcases List.mem_append.mp hb' with hb' | hb'
        · obtain ⟨hle, hops', happ'⟩ := hd.folds b' hb'
          rw [← hold _ (hd.newest b' hb')] at hle hops' happ'
          exact ⟨hle, hops', happ'⟩
        · rw [List.mem_singleton.mp hb']
          refine ⟨?_, ?_, ?_⟩
          · simp only [Function.update_self, le_refl]
          · simp only [Function.update_self, List.take_length]
            exact hops
          · simp only [Function.update_self, List.take_length]
            exact happlied
      fold_le := by
        intro b' hb'
        simp only [Function.update_self]
        rcases List.mem_append.mp hb' with hb' | hb'
        · rw [hold _ (hd.newest b' hb')]
          exact (hd.folds b' hb').le
        · rw [List.mem_singleton.mp hb', Function.update_self]
      base_fresh := by simp only; omega
      log_fresh := Nat.lt_succ_of_lt hd.log_fresh
      log_le := by simp only; omega
      behind := by
        intro b' hb' hlt
        rcases List.mem_append.mp hb' with hb' | hb'
        · have := hd.newest b' hb'
          simp only at hlt
          omega
        · exact List.mem_singleton.mp hb'
      folded_all := fun _ => by simp only [Function.update_self]
      start_le := by
        show Function.update w.fold b.generation w.hist.length w.log.generation ≤ _
        rw [hstart]
        exact hd.start_le
      frames := by
        show ∃ tail, Torn xxh3 tail ∧ w.log.frames = bytesOf xxh3
          (w.hist.drop (Function.update w.fold b.generation w.hist.length w.log.generation)) ++ tail
        rw [hstart]
        exact hd.frames
      room := by
        show (opsOf (w.hist.drop (Function.update w.fold b.generation w.hist.length
          w.log.generation))).length ≤ _
        rw [hstart]
        exact hd.room }

end disk

end GraphR.Multi
