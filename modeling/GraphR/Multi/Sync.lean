import GraphR.Multi.CatchUp
import GraphR.Multi.Disk

/-! # `sync` under the commit lock

    A locked `sync` catches up and repairs the log. It relies on the stamp: when
    the stamp is unchanged nothing is read, and whatever lies behind the
    consumed offset is taken for a torn record and cut off. `NothingUnread` is
    what that needs: no whole record lies there. -/

namespace GraphR.Multi

open Wal ByteLib

section sync
variable (xxh3 : Bytes → UInt64)

/-- Where a handle's stamp is that of the files, no whole record of its log
    lies behind the offset it has consumed. -/
def NothingUnread (s : Sys) (h : Handle) : Prop :=
  h.seen.stamp = s.stamp → h.seen.logCurrent = true → ∀ l, s.log = some l →
    (scan xxh3 (l.tail h.seen.walPos) 0 none).stop = 0

variable {xxh3} {s : Sys} {fold : Nat → Nat} {b : DiskBase} {l : DiskLog}
  (hd : DiskOk xxh3 (s.world fold b l)) (hbase : s.base = some b) (hlog : s.log = some l)
include hd hbase hlog

omit hd in
theorem stamp_eq : s.stamp = some (s.world fold b l).stamp := by
  simp [Sys.stamp, hbase, hlog, World.stamp, Sys.world]

omit hbase hlog in
theorem stamp_below : (s.world fold b l).stamp.Below s.fresh := by
  refine ⟨hd.base_fresh, ?_⟩
  rintro v ⟨⟩
  exact hd.log_fresh

/-- A successful catch-up under the lock: the whole history is served, and the
    stamp and the offset are those of the log as it is. -/
theorem catchUp_spec {h h' : Handle} {k : Nat} (hh : HandleOk (s.world fold b l) h k)
    (hunread : NothingUnread xxh3 s h) (hr : h.catchUp xxh3 s = .ok h') :
    HandleOk (s.world fold b l) h' s.hist.length ∧
      h'.seen.stamp = some (s.world fold b l).stamp ∧
      (h'.seen.logCurrent = true →
        h'.seen.walPos = headerLen + size (s.world fold b l).logged) := by
  have hstamp : s.stamp = some (s.world fold b l).stamp := stamp_eq hbase hlog
  have hbelow := stamp_below hd
  unfold Handle.catchUp at hr
  cases hcaught : h.seen.caught s.stamp with
  | nothing =>
    -- the stamp is unchanged: nothing is read
    rw [hcaught] at hr
    simp only at hr
    cases hr
    have hsame : h.seen.stamp = some (s.world fold b l).stamp := by
      rw [(caught_nothing hcaught).1, hstamp]
    have hle := hh.serves.le
    by_cases hcur : h.seen.logCurrent = true
    · -- the log is current and read to its end
      obtain ⟨j, hj, hpos⟩ := hh.pos (hh.source_seen _ _ hsame)
      obtain ⟨tail, htorn, hframes⟩ := hd.frames
      have hstop := hunread (by rw [hsame, hstamp]) hcur l hlog
      have htail := tail_at hframes hpos
      change l.tail h.seen.walPos = _ at htail
      rw [htail, (scan_frames (hd.rising.drop _) htorn).2] at hstop
      have hnil := List.drop_eq_nil_iff.mp (size_eq_zero hstop)
      have hk : k = s.hist.length := by
        have h1 : (s.world fold b l).hist = s.hist := rfl
        rw [h1] at hnil hle
        omega
      refine ⟨by rw [← hk]; exact hh, hsame, fun _ => ?_⟩
      rw [hpos]
      have hall : (s.world fold b l).logged.length ≤ j := by
        simp only [World.logged, List.length_drop]
        omega
      show headerLen + size ((s.world fold b l).logged.take j) = _
      rw [List.take_of_length_le hall]
    · -- the log is stale: the base has everything
      have hstale : (s.world fold b l).log.generation < (s.world fold b l).base.generation := by
        have hne : ¬(s.world fold b l).log.generation = (s.world fold b l).base.generation :=
          fun heq => hcur ((hh.current _ hsame).mpr heq)
        have := hd.log_le
        omega
      have hall := hd.folded_all hstale
      have hfold := (hh.onBase _ hsame).2
      have hk : k = s.hist.length := by
        have h1 : (s.world fold b l).hist = s.hist := rfl
        rw [h1] at hall hle
        omega
      exact ⟨by rw [← hk]; exact hh, hsame, fun h => absurd h hcur⟩
  | tail =>
    rw [hcaught, hstamp, hlog] at hr
    simp only at hr
    obtain ⟨n, id, len, len', hn, hwal, hs, -⟩ := caught_tail hcaught
    rw [hstamp] at hn
    cases hn
    cases hwal
    obtain ⟨hok, hst, hpos, -, -⟩ := readTail_spec hd hh rfl hbelow hs hr
    exact ⟨hok, hst, fun _ => hpos⟩
  | full =>
    rw [hcaught, hbase, hstamp, hlog] at hr
    simp only at hr
    rw [FaultLib.bind_ok] at hr
    obtain ⟨res, hread, hr⟩ := hr
    cases res with
    | none => cases hr
    | some h'' =>
      cases hr
      have hmapped : MappedOk (s.world fold b l) (some (s.world fold b l).stamp) b := by
        refine ⟨hd.mem, ?_, fun _ _ => rfl⟩
        rintro st ⟨⟩
        exact hbelow
      obtain ⟨hok, hst, hpos, -⟩ := readFull_spec hd hh hmapped hread
      exact ⟨hok, hst, hpos⟩

end sync

/-! ## Repair -/

section synced
variable {xxh3 : Bytes → UInt64} {w : World} (hd : DiskOk xxh3 w) {h : Handle}

/-- The stamp and the offset of a handle that has seen the files as they
    are. -/
def Handle.UpToDate (w : World) (h : Handle) : Prop :=
  h.seen = ⟨some w.stamp, w.log.len, true, w.base.generation⟩ ∧
    (∀ id, h.wal = some id → id = w.log.ident) ∧ h.source = some w.log.ident

include hd

/-- A handle that serves everything and has seen the files as they are. -/
theorem HandleOk.ofUpToDate (hmem : h.served.base ∈ w.written)
    (hserves : h.served.Serves w.hist w.fold w.hist.length) (hpos : 1 ≤ h.nextSeq)
    (hle : h.nextSeq ≤ endSeq w.hist + 1) (hdisk : h.diskGeneration ≤ w.base.generation)
    (hgen : w.log.generation = w.base.generation) (hframes : w.log.frames = bytesOf xxh3 w.logged)
    (hseen : h.UpToDate w) : HandleOk w h w.hist.length := by
  obtain ⟨hseen, hwal, hsource⟩ := hseen
  exact
    { served_mem := hmem
      serves := hserves
      next_pos := hpos
      next_le := by rw [List.take_length]; exact hle
      disk_le := hdisk
      seen_le := by rw [hseen]
      below := by
        intro st hst
        rw [hseen] at hst
        cases hst
        refine ⟨hd.base_fresh, ?_⟩
        rintro v ⟨⟩
        exact hd.log_fresh
      pos := by
        intro _
        refine ⟨w.logged.length, ?_, ?_⟩
        · have := hd.start_le
          simp only [World.logged, List.length_drop]
          omega
        · rw [hseen]
          show headerLen + w.log.frames.length = _
          rw [hframes, length_bytesOf]
          unfold World.logged
          rw [List.take_length]
      source_below := by
        intro id hid
        rw [hsource] at hid
        cases hid
        exact hd.log_fresh
      source_seen := fun _ _ _ => hsource
      onBase := by
        intro v _
        exact ⟨by rw [hseen], (hd.folds _ hd.mem).le⟩
      current := by
        intro len _
        rw [hseen]
        simp [hgen]
      wal_seen := by
        intro id hid
        rw [hwal id hid, hseen]
        exact ⟨_, _, rfl⟩ }

/-- Adopting makes such a handle ready to append. -/
theorem Synced.ofUpToDate (hh : HandleOk w h w.hist.length)
    (hgen : w.log.generation = w.base.generation) (hframes : w.log.frames = bytesOf xxh3 w.logged)
    (hseen : h.UpToDate w) : Synced xxh3 w h.adopt where
  generation := hgen
  frames := hframes
  next := by rw [(hh.adopt hd).2, List.take_length]
  disk := by
    show max h.diskGeneration h.seen.baseGen = _
    rw [hseen.1]
    exact Nat.max_eq_right hh.disk_le
  seen := hseen.1

end synced

section repair
variable {xxh3 : Bytes → UInt64} {s : Sys} {fold : Nat → Nat} {b : DiskBase} {l : DiskLog}
  (hd : DiskOk xxh3 (s.world fold b l)) (hbase : s.base = some b) (hlog : s.log = some l)

/-- What a locked `sync` leaves: a log with nothing behind its last record, and
    a handle caught up with it. -/
structure SyncedTo (xxh3 : Bytes → UInt64) (s s' : Sys) (fold : Nat → Nat) (b : DiskBase) (l l' : DiskLog) (h : Handle) :
    Prop where
  sys : s' = { s with log := some l', fresh := s'.fresh }
  disk : DiskOk xxh3 (s'.world fold b l')
  handle : HandleOk (s'.world fold b l') h s.hist.length
  synced : Synced xxh3 (s'.world fold b l') h
  frame : ∀ k, Frame (s.world fold b l) (s'.world fold b l') k

include hd hbase hlog

/-- `repair`, of a log read to its end. -/
theorem repair_spec {h : Handle} (hh : HandleOk (s.world fold b l) h s.hist.length)
    (hst : h.seen.stamp = some (s.world fold b l).stamp)
    (hpos : h.seen.logCurrent = true →
      h.seen.walPos = headerLen + size (s.world fold b l).logged) :
    ∃ l', SyncedTo xxh3 s (s.repair h).1 fold b l l'
      { (s.repair h).2.adopt with phase := .synced } := by
  have hbgen : h.seen.baseGen = b.generation := (hh.onBase _ hst).1
  have hwal : ∀ id, h.wal = some id → id = l.ident := by
    intro id hid
    obtain ⟨b', len, hb'⟩ := hh.wal_seen id hid
    rw [hst] at hb'
    cases hb'
    rfl
  have hnext : h.nextSeq ≤ endSeq s.hist + 1 := hh.next_le_all hd
  -- any handle that differs in `seen` and `wal` only
  have hfinish : ∀ (s' : Sys) (l' : DiskLog) (h' : Handle),
      s' = { s with log := some l', fresh := s'.fresh } →
      DiskOk xxh3 (s'.world fold b l') → l'.generation = b.generation →
      l'.frames = bytesOf xxh3 (s'.world fold b l').logged →
      (∀ k, Frame (s.world fold b l) (s'.world fold b l') k) →
      h'.ring = h.ring → h'.nextSeq = h.nextSeq → h'.diskGeneration = h.diskGeneration →
      h'.UpToDate (s'.world fold b l') →
      SyncedTo xxh3 s s' fold b l l' { h'.adopt with phase := .synced } := by
    intro s' l' h' hs' hd' hgen hframes hframe hring hnx hdk hseen
    have hhist : (s'.world fold b l').hist = s.hist := by rw [hs']; rfl
    have hwritten : (s'.world fold b l').written = s.written := by rw [hs']; rfl
    have hok : HandleOk (s'.world fold b l') h' (s'.world fold b l').hist.length := by
      refine HandleOk.ofUpToDate hd' ?_ ?_ (by rw [hnx]; exact hh.next_pos) ?_ ?_ hgen hframes hseen
      · show h'.ring.served.base ∈ _
        rw [hring, hwritten]
        exact hh.served_mem
      · show h'.ring.served.Serves _ _ _
        rw [hring, hhist]
        exact hh.serves
      · rw [hnx, hhist]
        exact hnext
      · rw [hdk]
        exact hh.disk_le
    refine ⟨hs', hd', ?_, ?_, hframe⟩
    · rw [← hhist]
      exact ((hok.adopt hd').1).withPhase _
    · have hsync := Synced.ofUpToDate hd' hok hgen hframes hseen
      exact ⟨hsync.generation, hsync.frames, hsync.next, hsync.disk, hsync.seen⟩
  unfold Sys.repair
  by_cases hcur : h.seen.logCurrent = true
  · -- the log is the base's: what follows its last record is cut off
    have hgen : l.generation = b.generation := (hh.current _ hst).mp hcur
    have hposn : h.seen.walPos = headerLen + size (s.world fold b l).logged := hpos hcur
    obtain ⟨tail, htorn, hframes⟩ := hd.frames
    change l.frames = _ at hframes
    rw [if_neg (by simpa using hcur), hst]
    simp only [World.stamp, DiskLog.stamp]
    by_cases hlonger : h.seen.walPos < (s.world fold b l).log.len
    · rw [if_pos hlonger]
      have hcut : l.frames.take (h.seen.walPos - headerLen)
          = bytesOf xxh3 (s.world fold b l).logged := by
        rw [hposn, Nat.add_sub_cancel_left, hframes, take_bytesOf]
      refine ⟨l.cut h.seen.walPos, hfinish _ _ _ ?_ ?_ hgen hcut ?_ rfl rfl rfl ?_⟩
      · simp [hlog]
      · exact hd.withTail (torn_nil xxh3) (by rw [hcut, List.append_nil])
      · exact Frame.rewrite _ _
      · refine ⟨?_, hwal, hh.source_seen _ _ hst⟩
        have hlen : (l.cut h.seen.walPos).len = h.seen.walPos := by
          show headerLen + (l.frames.take (h.seen.walPos - headerLen)).length = _
          rw [hcut, length_bytesOf, hposn]
        show Seen.mk (some ⟨b.ident, some (l.ident, h.seen.walPos)⟩) h.seen.walPos
            h.seen.logCurrent h.seen.baseGen
          = ⟨some ⟨b.ident, some (l.ident, (l.cut h.seen.walPos).len)⟩,
              (l.cut h.seen.walPos).len, true, b.generation⟩
        rw [hlen, hcur, hbgen]
    · rw [if_neg hlonger]
      have hwhole : l.frames = bytesOf xxh3 (s.world fold b l).logged := by
        have htail : tail = [] := by
          have hl : (s.world fold b l).log.len = headerLen + l.frames.length := rfl
          rw [hl, hframes, List.length_append, length_bytesOf] at hlonger
          exact List.length_eq_zero_iff.mp (by omega)
        rw [hframes, htail, List.append_nil]
      have hlen : l.len = h.seen.walPos := by
        show headerLen + l.frames.length = _
        rw [hwhole, length_bytesOf, hposn]
      refine ⟨l, hfinish s l h ?_ hd hgen hwhole (Frame.refl _) rfl rfl rfl
        ⟨?_, hwal, hh.source_seen _ _ hst⟩⟩
      · rw [← hlog]
      · have hseen : h.seen
            = ⟨h.seen.stamp, h.seen.walPos, h.seen.logCurrent, h.seen.baseGen⟩ := rfl
        rw [hseen, hst, hcur, hbgen, ← hlen]
        rfl
  · -- a log older than its base is replaced
    have hstale : l.generation < b.generation := by
      have hne : ¬l.generation = b.generation := fun heq => hcur ((hh.current _ hst).mpr heq)
      have hle : l.generation ≤ b.generation := hd.log_le
      omega
    have hall := hd.folded_all hstale
    rw [if_pos (by simpa using hcur)]
    simp only [hbgen]
    refine ⟨⟨s.fresh, b.generation, []⟩, hfinish _ _ _ rfl (hd.newLog hall) rfl ?_
      (Frame.newLog _ _) rfl rfl rfl ⟨?_, by rintro id ⟨⟩, rfl⟩⟩
    · show [] = bytesOf xxh3 (s.hist.drop (fold b.generation))
      have hnil : s.hist.drop (fold b.generation) = [] :=
        List.drop_eq_nil_iff.mpr (le_of_eq hall.symm)
      rw [hnil]
      rfl
    · simp [Sys.stamp, hbase, World.stamp, Sys.world, DiskLog.stamp, DiskLog.len]

/-- A locked `sync` that meets its condition fails with nothing changed, or
    catches up. -/
theorem stepSync_spec {h : Handle} {k : Nat} (hh : HandleOk (s.world fold b l) h k)
    (hunread : NothingUnread xxh3 s h) :
    s.stepSync xxh3 h = (s, { h with phase := .done }) ∨
      ∃ l', SyncedTo xxh3 s (s.stepSync xxh3 h).1 fold b l l' (s.stepSync xxh3 h).2 ∧
        (s.stepSync xxh3 h).2.phase = .synced := by
  unfold Sys.stepSync
  cases hc : h.catchUp xxh3 s with
  | error e => exact .inl rfl
  | ok h' =>
    obtain ⟨hok, hst, hpos⟩ := catchUp_spec hd hbase hlog hh hunread hc
    obtain ⟨l', hl'⟩ := repair_spec hd hbase hlog hok hst hpos
    exact .inr ⟨l', hl', rfl⟩

end repair

end GraphR.Multi
