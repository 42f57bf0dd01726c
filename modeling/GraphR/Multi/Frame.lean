import GraphR.Multi.Invariant

/-! # What a step leaves alone

    A step of one party changes the shared part in few ways: the log grows, is
    cut or is replaced, the base is replaced. `Frame w w' k` says that such a
    change keeps the first `k` records and replaces files by fresh ones only;
    then every party but the one that took the step is as it was. -/

namespace GraphR.Multi

open Wal ByteLib

/-- From `w` to `w'` the first `k` records stay, and a file that is another one
    is a new one. -/
structure Frame (w w' : World) (k : Nat) : Prop where
  take : w'.hist.take k = w.hist.take k
  len : k ≤ w.hist.length → k ≤ w'.hist.length
  fold : ∀ b ∈ w.written, w'.fold b.generation = w.fold b.generation
  written : ∀ b ∈ w.written, b ∈ w'.written
  fresh : w.fresh ≤ w'.fresh
  base : w'.base = w.base ∨ w.fresh ≤ w'.base.ident
  base_le : w.base.generation ≤ w'.base.generation
  log : (w'.log.ident = w.log.ident ∧ w'.log.generation = w.log.generation ∧
    w'.start = w.start) ∨ w.fresh ≤ w'.log.ident

theorem Stamp.Below.mono {fresh fresh' : Nat} {st : Stamp} (h : st.Below fresh)
    (hle : fresh ≤ fresh') : st.Below fresh' :=
  ⟨h.1.trans_le hle, fun v hv => (h.2 v hv).trans_le hle⟩

/-- Boundaries among the first `k` records stay boundaries. -/
theorem AtRecord.congr {hist hist' : List SealedRecord} {start pos k : Nat}
    (h : AtRecord hist start pos k) (htake : hist'.take k = hist.take k) :
    AtRecord hist' start pos k := by
  obtain ⟨j, hj, hpos⟩ := h
  refine ⟨j, hj, ?_⟩
  have hcut : ∀ l : List SealedRecord, (l.drop start).take j = ((l.take k).drop start).take j := by
    intro l
    rw [List.drop_take, List.take_take, Nat.min_eq_left (by omega)]
  rw [hpos, hcut hist', hcut hist, htake]

theorem HandleOk.frame {w w' : World} {h : Handle} {k : Nat} (hok : HandleOk w h k)
    (hbase : w.base ∈ w.written) (hf : Frame w w' k) : HandleOk w' h k := by
  -- a stamp that names a file of `w'` names a file of `w`
  have hold_base : ∀ v, h.seen.stamp = some ⟨w'.base.ident, v⟩ → w'.base = w.base := by
    intro v hv
    rcases hf.base with heq | hnew
    · exact heq
    · have := (hok.below _ hv).1
      simp only at this
      omega
  have hold_log : ∀ b len, h.seen.stamp = some ⟨b, some (w'.log.ident, len)⟩ →
      w'.log.ident = w.log.ident ∧ w'.log.generation = w.log.generation ∧ w'.start = w.start := by
    intro b len hv
    rcases hf.log with heq | hnew
    · exact heq
    · have := (hok.below _ hv).2 _ rfl
      simp only at this
      omega
  refine
    { served_mem := hf.written _ hok.served_mem
      serves := ⟨?_, hf.len hok.serves.le, ?_⟩
      next_pos := hok.next_pos
      next_le := by rw [hf.take]; exact hok.next_le
      disk_le := hok.disk_le.trans hf.base_le
      seen_le := hok.seen_le.trans hf.base_le
      below := fun st hst => (hok.below st hst).mono hf.fresh
      pos := ?_
      source_below := fun id hid => (hok.source_below id hid).trans_le hf.fresh
      source_seen := ?_
      onBase := ?_
      current := ?_
      wal_seen := hok.wal_seen }
  · rw [hf.fold _ hok.served_mem]
    exact hok.serves.ge
  · rw [hf.fold _ hok.served_mem, hf.take]
    exact hok.serves.log
  · intro hsource
    rcases hf.log with ⟨hid, -, hstart⟩ | hnew
    · rw [hstart]
      rw [hid] at hsource
      exact (hok.pos hsource).congr hf.take
    · have := hok.source_below _ hsource
      omega
  · intro b len hst
    obtain ⟨hid, -, -⟩ := hold_log b len hst
    rw [hid] at hst ⊢
    exact hok.source_seen b len hst
  · intro v hst
    have heq := hold_base v hst
    rw [heq] at hst ⊢
    rw [hf.fold _ hbase]
    exact hok.onBase v hst
  · intro len hst
    have heq := hold_base _ hst
    obtain ⟨hid, hgen, -⟩ := hold_log _ len hst
    rw [heq, hid] at hst
    rw [heq, hgen]
    exact hok.current len hst

theorem MappedOk.frame {w w' : World} {k : Nat} {now : Option Stamp} {b : DiskBase}
    (h : MappedOk w now b) (hf : Frame w w' k) : MappedOk w' now b := by
  refine ⟨hf.written _ h.mem, fun st hst => (h.below st hst).mono hf.fresh, ?_⟩
  intro v hv
  rcases hf.base with heq | hnew
  · rw [heq] at hv ⊢
    exact h.same v hv
  · have := (h.below _ hv).1
    simp only at this
    omega

theorem LooseOk.frame {w w' : World} {k : Nat} {h : Handle} {phase : Phase}
    (hok : LooseOk w h phase) (hf : Frame w w' k) : LooseOk w' h phase := by
  cases phase with
  | based b => exact fun x hx => (hok x hx).trans_le hf.fresh
  | tail now => exact hok
  | full now => exact fun st hst => (hok st hst).mono hf.fresh
  | mapped now b => exact MappedOk.frame hok hf
  | _ => trivial

/-- A party that does not hold the lock is as it was. -/
theorem PartyOk.frame {xxh3 : Bytes → UInt64} {w w' : World} {lock lock' : Lock}
    {acked acked' : List SealedRecord} {q : Nat} {x : Party}
    (hok : PartyOk xxh3 w lock acked q x) (hlock : lock ≠ .held (some q))
    (hbase : w.base ∈ w.written) (hframe : Frame w w' 0)
    (hf : ∀ h k, x = .live h → HandleOk w h k → Frame w w' k) :
    PartyOk xxh3 w' lock' acked' q x := by
  cases x with
  | out => trivial
  | creating => exact hok
  | opening phase =>
    cases phase with
    | based b => exact fun x hx => (hok x hx).trans_le hframe.fresh
    | full now => exact fun st hst => (hok st hst).mono hframe.fresh
    | mapped now b => exact MappedOk.frame hok hframe
    | _ => exact hok
  | live h =>
    obtain ⟨hheld, hloose, k, hh, -⟩ := hok
    have hframe := hf h k rfl hh
    have hfree : h.phase.isLocked = false := by
      by_contra hl
      exact hlock (hheld (by simpa using hl))
    refine ⟨by simp [hfree], LooseOk.frame hloose hframe, k, hh.frame hbase hframe, ?_⟩
    cases hphase : h.phase with
    | locked | synced | appending _ _ _ _ | compacting _ | done => simp [hphase, Phase.isLocked] at hfree
    | _ => trivial

/-! ## The kinds of change -/

section kinds
variable {xxh3 : Bytes → UInt64} {w : World}

theorem Frame.refl (w : World) (k : Nat) : Frame w w k :=
  ⟨rfl, id, fun _ _ => rfl, fun _ hb => hb, le_rfl, .inl rfl, le_rfl, .inl ⟨rfl, rfl, rfl⟩⟩

/-- The log's bytes change. -/
theorem Frame.rewrite (w : World) (frames : Bytes) (k : Nat) :
    Frame w { w with log := { w.log with frames := frames } } k :=
  ⟨rfl, id, fun _ _ => rfl, fun _ hb => hb, le_rfl, .inl rfl, le_rfl, .inl ⟨rfl, rfl, rfl⟩⟩

/-- Records are appended. -/
theorem Frame.append (w : World) (ext : List SealedRecord) (frames : Bytes) {k : Nat}
    (hk : k ≤ w.hist.length) :
    Frame w { w with hist := w.hist ++ ext, log := { w.log with frames := frames } } k where
  take := List.take_append_of_le_length hk
  len := by
    intro h
    simp only [List.length_append]
    omega
  fold := fun _ _ => rfl
  written := fun _ hb => hb
  fresh := le_rfl
  base := .inl rfl
  base_le := le_rfl
  log := .inl ⟨rfl, rfl, rfl⟩

/-- The last record, unseen by a party, is taken back. -/
theorem Frame.cutBack {w : World} {before : List SealedRecord} {r : SealedRecord}
    (hhist : w.hist = before ++ [r]) (frames : Bytes) {k : Nat} (hk : k ≤ before.length) :
    Frame w { w with hist := before, log := { w.log with frames := frames } } k where
  take := by
    rw [hhist]
    exact (List.take_append_of_le_length hk).symm
  len := fun _ => hk
  fold := fun _ _ => rfl
  written := fun _ hb => hb
  fresh := le_rfl
  base := .inl rfl
  base_le := le_rfl
  log := .inl ⟨rfl, rfl, rfl⟩

/-- A fresh log replaces the log. -/
theorem Frame.newLog (w : World) (generation k : Nat) :
    Frame w { w with log := ⟨w.fresh, generation, []⟩, fresh := w.fresh + 1 } k where
  take := rfl
  len := id
  fold := fun _ _ => rfl
  written := fun _ hb => hb
  fresh := Nat.le_succ _
  base := .inl rfl
  base_le := le_rfl
  log := .inr le_rfl

/-- A newer base replaces the base. -/
theorem Frame.newBase (hd : DiskOk xxh3 w) {b : DiskBase} (hid : b.ident = w.fresh)
    (hgen : w.base.generation < b.generation) (n k : Nat) :
    Frame w { w with base := b, fold := Function.update w.fold b.generation n
                     fresh := w.fresh + 1, written := w.written ++ [b] } k where
  take := rfl
  len := id
  fold := by
    intro b' hb'
    have := hd.newest b' hb'
    exact Function.update_of_ne (by omega) _ _
  written := fun _ hb => List.mem_append_left _ hb
  fresh := Nat.le_succ _
  base := .inr (by rw [hid])
  base_le := hgen.le
  log := by
    refine .inl ⟨rfl, rfl, ?_⟩
    have := hd.log_le
    show Function.update w.fold b.generation n w.log.generation = w.fold w.log.generation
    exact Function.update_of_ne (by omega) _ _

end kinds

end GraphR.Multi
