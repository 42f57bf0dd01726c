import GraphR.Multi.Loose

/-! # Steps under the commit lock

    The steps that write: the repair of a `sync`, the bytes of an append, its
    completion or cut-back, and the two renames of a compaction. -/

namespace GraphR.Multi

open Wal ByteLib

section born
variable {xxh3 : Bytes → UInt64} {s : Sys} {fold : Nat → Nat} {b : DiskBase} {l : DiskLog}

/-- The lock's user changes the files; every other party is framed. -/
theorem Born.update (hB : Born xxh3 s fold b l) {s' : Sys} {fold' : Nat → Nat} {b' : DiskBase}
    {l' : DiskLog} {p : Nat} (hfree : ∀ q, q ≠ p → s.lock ≠ .held (some q))
    (hparties : ∀ q, q ≠ p → s'.parties q = s.parties q)
    (hbase : s'.base = some b') (hlog : s'.log = some l')
    (hdisk : DiskOk xxh3 (s'.world fold' b' l')) (hserial : Serial s'.origins s'.hist)
    (hacked : s'.acked.Sublist s'.hist)
    (hself : PartyOk xxh3 (s'.world fold' b' l') s'.lock s'.acked p (s'.parties p))
    (hframe : Frame (s.world fold b l) (s'.world fold' b' l') 0)
    (hframes : ∀ q, q ≠ p → ∀ h k, s.parties q = .live h → HandleOk (s.world fold b l) h k →
      Frame (s.world fold b l) (s'.world fold' b' l') k) :
    Born xxh3 s' fold' b' l' where
  base := hbase
  log := hlog
  disk := hdisk
  serial := hserial
  acked := hacked
  parties := by
    intro q
    by_cases hq : q = p
    · subst hq
      exact hself
    · rw [hparties q hq]
      exact (hB.parties q).frame (hfree q hq) hB.disk.mem hframe (hframes q hq)

/-! ## `sync` -/

theorem Born.stepSync (hB : Born xxh3 s fold b l) {p : Nat} {h : Handle}
    (hp : s.parties p = .live h) (hphase : h.phase = .locked)
    (hunread : NothingUnread xxh3 s h) :
    (∃ l', Born xxh3 ((s.stepSync xxh3 h).1.setParty p (.live (s.stepSync xxh3 h).2)) fold b l') ∧
      h.served.servedSeq ≤ (s.stepSync xxh3 h).2.served.servedSeq := by
  obtain ⟨hheld, -, k, hh, -⟩ := hB.live hp
  have hlocked : h.phase.isLocked = true := by rw [hphase]; rfl
  have hlock := hheld hlocked
  rcases stepSync_spec hB.disk hB.base hB.log hh hunread with herr | ⟨l', hsync, hphase'⟩
  · rw [herr]
    exact ⟨⟨l, hB.setParty ⟨fun _ => hlock, trivial, k, hh.withPhase _, trivial⟩⟩, le_rfl⟩
  · generalize s.stepSync xxh3 h = sh at hsync hphase'
    obtain ⟨s', h'⟩ := sh
    simp only at hsync hphase' ⊢
    have hsys := hsync.sys
    refine ⟨⟨l', hB.update (p := p) (hB.others_free hp hlocked)
      ?_ ?_ ?_ hsync.disk ?_ ?_ ?_ (hsync.frame 0) fun _ _ _ k _ _ => hsync.frame k⟩, ?_⟩
    · intro q hq
      rw [setParty_ne _ _ hq, hsys]
    · rw [setParty_base, hsys]
      exact hB.base
    · rw [setParty_log, hsys]
    · rw [hsys]
      exact hB.serial
    · rw [hsys]
      exact hB.acked
    · rw [setParty_self, setParty_lock]
      have hhist : (s'.world fold b l').hist = s.hist := by rw [hsys]; rfl
      refine ⟨fun _ => by rw [hsys]; exact hlock, by rw [hphase']; trivial, s.hist.length,
        hsync.handle, ?_⟩
      rw [hphase']
      exact ⟨congrArg List.length hhist.symm, hsync.synced⟩
    · have hhist : (s'.world fold b l').hist = s.hist := by rw [hsys]; rfl
      rw [hh.servedSeq hB.disk, hsync.handle.servedSeq hsync.disk, hhist]
      exact hB.disk.rising.endSeq_mono hh.serves.le

/-! ## Appends -/

theorem sealOps_spec {staged : List OpBytes} {n : Nat} {r : SealedRecord}
    (h : sealOps staged n = some r) :
    r.ops = staged.map Subtype.val ∧ r.firstSeq.toNat = n := by
  unfold sealOps at h
  split_ifs at h with hc
  cases h
  refine ⟨rfl, ?_⟩
  exact UInt64.toNat_ofNat_of_lt' (by simp only [UInt64.size]; omega)

/-- An append that starts. -/
theorem Born.startAppend (hB : Born xxh3 s fold b l) {p : Nat} {h h' : Handle}
    (hp : s.parties p = .live h) (hphase : h.phase = .synced) {staged : List OpBytes}
    {origin : Origin} (hstart : s.startAppend h staged origin = some h')
    (hmakes : ∀ r : SealedRecord, r.ops = staged.map Subtype.val → origin.Makes s.hist r) :
    PartyOk xxh3 (s.world fold b l) s.lock s.acked p (.live h') ∧
      h'.served = h.served := by
  obtain ⟨hheld, -, k, hh, hlk⟩ := hB.live hp
  have hlock := hheld (by rw [hphase]; rfl)
  rw [hphase] at hlk
  obtain ⟨hk, hsync⟩ := hlk
  unfold Sys.startAppend at hstart
  simp only [Option.bind_eq_bind, Option.bind_eq_some_iff] at hstart
  obtain ⟨r, hseal, hstart⟩ := hstart
  obtain ⟨hops, hfirst⟩ := sealOps_spec hseal
  by_cases hres : h.served.reserve r.ops.length r.len = true
  · rw [if_pos hres, hB.log, Option.bind_some] at hstart
    cases hstart
    refine ⟨⟨fun _ => hlock, trivial, k, ?_, s.hist, hk, ?_, hB.acked⟩, rfl⟩
    · -- the handle serves what it did; its descriptor is open on the log
      have hwal : h.wal.getD l.ident = l.ident := by
        cases hw : h.wal with
        | none => rfl
        | some id =>
          obtain ⟨b', len, hb'⟩ := hh.wal_seen id hw
          rw [hsync.seen] at hb'
          cases hb'
          rfl
      exact
        { served_mem := hh.served_mem
          serves := hh.serves
          next_pos := hh.next_pos
          next_le := hh.next_le
          disk_le := hh.disk_le
          seen_le := hh.seen_le
          below := hh.below
          pos := hh.pos
          source_below := hh.source_below
          source_seen := hh.source_seen
          onBase := hh.onBase
          current := hh.current
          wal_seen := by
            rintro id ⟨⟩
            rw [hwal]
            show ∃ b' len, h.seen.stamp = _
            rw [hsync.seen]
            exact ⟨_, _, rfl⟩ }
    · have hlen : (s.world fold b l).log.len
          = headerLen + size (s.hist.drop (s.world fold b l).start) := by
        show headerLen + (s.world fold b l).log.frames.length = _
        rw [hsync.frames, length_bytesOf]
        rfl
      exact
        { generation := hsync.generation
          next := hsync.next
          first := by rw [hfirst, hsync.next]; rfl
          disk := hsync.disk
          seen := by
            show h.seen = _
            rw [hsync.seen, ← hlen]
            rfl
          wal := by
            show some (h.wal.getD l.ident) = some l.ident
            cases hw : h.wal with
            | none => rfl
            | some id =>
              obtain ⟨b', len, hb'⟩ := hh.wal_seen id hw
              rw [hsync.seen] at hb'
              cases hb'
              rfl
          room := by
            -- the overlay holds at least the records of the log
            have hcap : h.served.log.length + r.ops.length ≤ arenaCapacity := by
              unfold Gen.reserve at hres
              exact (of_decide_eq_true hres).1
            have hstartge : fold h.served.base.generation ≤ (s.world fold b l).start := by
              show fold h.served.base.generation ≤ fold l.generation
              have hg : l.generation = b.generation := hsync.generation
              rw [hg]
              exact hB.disk.fold_le _ hh.served_mem
            have hlog := hh.serves.log
            have htake : (s.world fold b l).hist.take k = s.hist := by
              rw [hk]
              exact List.take_length
            rw [htake] at hlog
            have hsplit : h.served.log.length
                ≥ (opsOf (s.hist.drop (s.world fold b l).start)).length := by
              have hle := drop_eq_append s.hist hstartge
              change s.hist.drop (fold h.served.base.generation) = _ at hle
              change h.served.log = opsOf (s.hist.drop (fold h.served.base.generation)) at hlog
              rw [hlog, hle, opsOf_append, List.length_append]
              omega
            omega
          makes := hmakes r hops
          written := by
            refine .inl ⟨?_, rfl, ?_⟩
            · have := r.len_ge
              have hmin : minRecord = 48 := rfl
              omega
            · rw [hsync.frames, List.take_zero, List.append_nil] }
  · rw [if_neg hres] at hstart
    cases hstart

/-- Bytes of an append reach the log. -/
theorem Born.stepWrite (hB : Born xxh3 s fold b l) {p n k : Nat} {h : Handle} {r : SealedRecord}
    {origin : Origin} {undo : List OpBytes} (hp : s.parties p = .live h)
    (hphase : h.phase = .appending r k origin undo) (hn : 0 < n) (hkn : k + n ≤ r.len) :
    ∃ l', Born xxh3 (s.stepWrite xxh3 p h r k origin undo n) fold b l' := by
  obtain ⟨hheld, -, k₀, hh, hlk⟩ := hB.live hp
  have hlocked : h.phase.isLocked = true := by rw [hphase]; rfl
  have hlock := hheld hlocked
  rw [hphase] at hlk
  obtain ⟨before, hk₀, happ, hacked⟩ := hlk
  -- the record is not whole yet, so the history ends before it
  obtain ⟨hbefore, hframes⟩ : s.hist = before ∧
      l.frames = bytesOf xxh3 (s.world fold b l).logged ++ (r.bytes xxh3).take k := by
    rcases happ.written with ⟨-, hhist, hframes⟩ | ⟨hfull, -, -⟩
    · exact ⟨hhist, hframes⟩
    · omega
  subst hbefore
  have hchunk : l.frames ++ range (r.bytes xxh3) k n
      = bytesOf xxh3 (s.world fold b l).logged ++ (r.bytes xxh3).take (k + n) := by
    rw [hframes, List.append_assoc, List.take_add]
    rfl
  have hwal : h.wal = some l.ident := happ.wal
  have hlog : (s.log.map fun l : DiskLog => if h.wal = some l.ident
      then { l with frames := l.frames ++ range (r.bytes xxh3) k n } else l)
      = some { l with frames := bytesOf xxh3 (s.world fold b l).logged
                ++ (r.bytes xxh3).take (k + n) } := by
    rw [hB.log, Option.map_some, if_pos hwal, hchunk]
  unfold Sys.stepWrite
  simp only [hlog]
  by_cases hfull : k + n = r.len
  · -- the last byte: the record is committed
    rw [if_pos hfull]
    have hwhole : (r.bytes xxh3).take (k + n) = r.bytes xxh3 := by
      rw [hfull]
      exact List.take_of_length_le (by rw [SealedRecord.length_bytes])
    rw [hwhole]
    have hd' := hB.disk.append (r := r) happ.generation
      (by have := happ.first; show endSeq s.hist < _; omega) happ.room
    have hframe : ∀ k', k' ≤ s.hist.length → Frame (s.world fold b l) _ k' :=
      fun k' hk' => Frame.append (s.world fold b l) [r]
        (bytesOf xxh3 (s.world fold b l).logged ++ r.bytes xxh3) hk'
    refine ⟨_, hB.update (p := p) (hB.others_free hp hlocked)
      ?_ hB.base rfl hd' (.snoc hB.serial happ.makes happ.first)
      (hB.acked.trans (List.sublist_append_left _ _)) ?_ ?_ ?_⟩
    · intro q hq
      exact setParty_ne _ _ hq
    · rw [setParty_self]
      refine ⟨fun _ => hlock, trivial, k₀, (hh.frame hB.disk.mem (hframe k₀ ?_)).withPhase _,
        s.hist, hk₀, ?_, hacked⟩
      · rw [hk₀]
      · exact
          { generation := happ.generation
            next := happ.next
            first := happ.first
            disk := happ.disk
            seen := happ.seen
            wal := happ.wal
            room := happ.room
            makes := happ.makes
            written := by
              refine .inr ⟨hfull, rfl, ?_⟩
              show bytesOf xxh3 (s.world fold b l).logged ++ r.bytes xxh3
                = bytesOf xxh3 ((s.hist ++ [r]).drop (s.world fold b l).start)
              have hdrop : (s.hist ++ [r]).drop (s.world fold b l).start
                  = (s.world fold b l).logged ++ [r] :=
                List.drop_append_of_le_length hB.disk.start_le
              rw [hdrop, bytesOf_append, bytesOf_singleton] }
    · exact hframe 0 (Nat.zero_le _)
    · intro q _ _ k' _ hok
      exact hframe k' hok.serves.le
  · -- a strict prefix so far: torn for everyone who looks
    rw [if_neg hfull]
    have hlt : k + n < r.len := by omega
    have htorn : Torn xxh3 ((r.bytes xxh3).take (k + n)) := .inr ⟨r, k + n, hlt, rfl⟩
    have hd' := hB.disk.withTail htorn rfl
    have hframe : ∀ k', Frame (s.world fold b l) _ k' := Frame.rewrite (s.world fold b l)
      (bytesOf xxh3 (s.world fold b l).logged ++ (r.bytes xxh3).take (k + n))
    refine ⟨_, hB.update (p := p) (hB.others_free hp hlocked)
      ?_ hB.base rfl hd' hB.serial hB.acked ?_ (hframe 0) fun _ _ _ k' _ _ => hframe k'⟩
    · intro q hq
      exact setParty_ne _ _ hq
    rw [setParty_self]
    refine ⟨fun _ => hlock, trivial, k₀, (hh.frame hB.disk.mem (hframe k₀)).withPhase _,
      s.hist, hk₀, ?_, hacked⟩
    exact
      { generation := happ.generation
        next := happ.next
        first := happ.first
        disk := happ.disk
        seen := happ.seen
        wal := happ.wal
        room := happ.room
        makes := happ.makes
        written := .inl ⟨hlt, rfl, rfl⟩ }

/-- What `publish_records` adds for the handle's own record. -/
theorem publishRecords_own (g : Gen) (r : SealedRecord) :
    (g.publishRecords (r.bytes xxh3) (r.firstSeq.toNat - 1)).log = g.log ++ r.seqOps := by
  have hone : r.bytes xxh3 = bytesOf xxh3 [r] := by rw [bytesOf_singleton]
  have hrise : Rising [r] := List.isChain_singleton r
  show g.log ++ _ = _
  rw [hone, records_bytesOf hrise, rawOps_placed, opsOf_singleton]
  congr 1
  rw [List.filter_eq_self]
  intro q hq
  have hfirst := (mem_seqOps r hq).1
  have hpos := r.firstSeq_pos
  simp only [decide_eq_true_eq]
  omega

/-- A durable append is accounted for and published. -/
theorem Born.stepComplete (hB : Born xxh3 s fold b l) {p : Nat} {h : Handle} {r : SealedRecord}
    {origin : Origin} {undo : List OpBytes} (hp : s.parties p = .live h)
    (hphase : h.phase = .appending r r.len origin undo) :
    Born xxh3 (s.stepComplete xxh3 p h r) fold b l ∧ h.served.servedSeq ≤ endSeq s.hist := by
  obtain ⟨hheld, -, k₀, hh, hlk⟩ := hB.live hp
  have hlocked : h.phase.isLocked = true := by rw [hphase]; rfl
  have hlock := hheld hlocked
  rw [hphase] at hlk
  obtain ⟨before, hk₀, happ, hacked⟩ := hlk
  obtain ⟨hhist, hframes⟩ : s.hist = before ++ [r] ∧
      l.frames = bytesOf xxh3 (s.world fold b l).logged := by
    rcases happ.written with ⟨hlt, -, -⟩ | ⟨-, hhist, hframes⟩
    · omega
    · exact ⟨hhist, hframes⟩
  have hd := hB.disk
  have hserved : h.served.servedSeq ≤ endSeq s.hist := by
    rw [hh.servedSeq hd]
    have := hd.rising.endSeq_mono hh.serves.le
    rwa [List.take_length] at this
  refine ⟨?_, hserved⟩
  have hlast : endSeq s.hist = r.lastSeq := by rw [hhist, endSeq_concat]
  have hstart : (s.world fold b l).start ≤ before.length := by
    have hfold := (hh.onBase _ (by rw [happ.seen])).2
    rw [← hk₀]
    show fold l.generation ≤ k₀
    have hg : l.generation = b.generation := happ.generation
    rw [hg]
    exact hfold
  have hlogged : (s.world fold b l).logged = before.drop (s.world fold b l).start ++ [r] := by
    show s.hist.drop _ = _
    rw [hhist]
    exact List.drop_append_of_le_length hstart
  have hlen : l.len = headerLen + size (before.drop (s.world fold b l).start) + r.len := by
    show headerLen + l.frames.length = _
    rw [hframes, length_bytesOf, hlogged, size_append, size_cons, size_nil]
    omega
  -- the handle after its publication
  have hrest : (s.world fold b l).hist.drop k₀ = [r] := by
    show s.hist.drop k₀ = _
    rw [hhist, hk₀, List.drop_left]
  have hpub : (h.served.publishRecords (r.bytes xxh3) (r.firstSeq.toNat - 1)).log
      = h.served.log ++ opsOf ((s.world fold b l).hist.drop k₀) := by
    rw [publishRecords_own, hrest, opsOf_singleton]
  have hbase : (h.served.publishRecords (r.bytes xxh3) (r.firstSeq.toNat - 1)).base
      = h.served.base := rfl
  have hserves := hh.serves.extend hbase hpub
  have hnext : h.nextSeq + r.ops.length = endSeq s.hist + 1 := by
    have h1 := happ.next
    have h2 := happ.first
    have h3 : r.lastSeq = r.firstSeq.toNat + r.ops.length - 1 := rfl
    have h4 := r.ops_pos
    omega
  have hseen : h.seen.appended r.len
      = ⟨some (s.world fold b l).stamp, l.len, true, b.generation⟩ := by
    rw [happ.seen, hlen]
    show Seen.mk (some ⟨b.ident, some (l.ident, _)⟩) _ _ _ = _
    simp only [World.stamp, DiskLog.stamp, Sys.world]
    rw [hlen]
    rfl
  refine hB.update (p := p) (hB.others_free hp hlocked)
    (fun q hq => setParty_ne _ _ hq) hB.base hB.log hd hB.serial ?_ ?_ (Frame.refl _ 0)
    fun _ _ _ k _ _ => Frame.refl _ k
  · show (s.acked ++ [r]).Sublist s.hist
    rw [hhist]
    exact hacked.append (List.Sublist.refl _)
  · unfold Sys.stepComplete
    rw [setParty_self]
    refine ⟨fun _ => hlock, trivial, s.hist.length, ?_, rfl, ?_⟩
    · refine HandleOk.ofUpToDate hd ?_ ?_ ?_ hnext.le ?_ happ.generation hframes ⟨hseen, ?_, ?_⟩
      · show (h.ring.serve _).served.base ∈ _
        rw [Ring.served_serve]
        exact hh.served_mem
      · show (h.ring.serve _).served.Serves _ _ _
        rw [Ring.served_serve]
        exact hserves
      · show 1 ≤ h.nextSeq + r.ops.length
        omega
      · exact hh.disk_le
      · intro id hid
        have hw : some id = some l.ident := hid.symm.trans happ.wal
        show id = l.ident
        simpa using hw
      · exact hh.source_seen _ _ (by rw [happ.seen])
    · exact ⟨happ.generation, hframes, hnext, happ.disk, hseen⟩

/-- The last record of a serial execution taken back. -/
theorem Serial.dropLast {os : List Origin} {rs : List SealedRecord} {r : SealedRecord}
    (h : Serial os (rs ++ [r])) : Serial os.dropLast rs := by
  generalize hrs : rs ++ [r] = all at h
  cases h with
  | nil => simp at hrs
  | snoc h _ _ =>
    obtain ⟨rfl, -⟩ := List.append_inj' hrs rfl
    rw [List.dropLast_concat]
    exact h

/-- A handle that forgets the log it has seen, and with it its offset or not. -/
theorem HandleOk.forget {w : World} {h : Handle} {k : Nat} (hh : HandleOk w h k)
    {seen : Seen} {source : Option Nat} (hstamp : seen.stamp = none)
    (hgen : seen.baseGen ≤ w.base.generation)
    (hsource : source = none ∨ source = h.source ∧ seen.walPos = h.seen.walPos)
    (staged : List OpBytes) (phase : Phase) :
    HandleOk w { h with
      staged := staged, wal := none, seen := seen, source := source, phase := phase } k where
  served_mem := hh.served_mem
  serves := hh.serves
  next_pos := hh.next_pos
  next_le := hh.next_le
  disk_le := hh.disk_le
  seen_le := hgen
  below := by
    intro st hst
    cases hst.symm.trans hstamp
  pos := by
    rintro rfl
    rcases hsource with h0 | ⟨heq, hpos⟩
    · cases h0
    · show AtRecord w.hist w.start seen.walPos k
      rw [hpos]
      exact hh.pos heq.symm
  source_below := by
    rintro id rfl
    rcases hsource with h0 | ⟨heq, -⟩
    · cases h0
    · exact hh.source_below id heq.symm
  source_seen := by
    intro _ _ hst
    cases hst.symm.trans hstamp
  onBase := by
    intro _ hst
    cases hst.symm.trans hstamp
  current := by
    intro _ hst
    cases hst.symm.trans hstamp
  wal_seen := by rintro id ⟨⟩

/-- A failed append is cut back; if all of its bytes were there, nobody else
    may have read them. -/
theorem Born.stepFail (hB : Born xxh3 s fold b l) {p n : Nat} {h : Handle} {r : SealedRecord}
    {origin : Origin} {undo : List OpBytes} (hp : s.parties p = .live h)
    (hphase : h.phase = .appending r n origin undo)
    (hunserved : n = r.len → ∀ q, q ≠ p → ∀ h', s.parties q = .live h' →
      h'.served.servedSeq < r.firstSeq.toNat) :
    ∃ l', Born xxh3 (s.stepFail p h r n undo) fold b l' := by
  obtain ⟨hheld, -, k₀, hh, hlk⟩ := hB.live hp
  have hlocked : h.phase.isLocked = true := by rw [hphase]; rfl
  have hlock := hheld hlocked
  rw [hphase] at hlk
  obtain ⟨before, hk₀, happ, hacked⟩ := hlk
  have hd := hB.disk
  have hgen : l.generation = b.generation := happ.generation
  have hfold : fold b.generation ≤ before.length := by
    rw [← hk₀]
    exact (hh.onBase _ (by rw [happ.seen])).2
  have hstart : (s.world fold b l).start ≤ before.length := by
    show fold l.generation ≤ _
    rw [hgen]
    exact hfold
  have hseen : h.seen.walPos = headerLen + size (before.drop (s.world fold b l).start) := by
    rw [happ.seen]
  have hbgen : h.seen.baseGen ≤ b.generation := hh.seen_le
  -- the cut lands where the record began
  have hcut : l.frames.take (h.seen.walPos - headerLen)
      = bytesOf xxh3 (before.drop (s.world fold b l).start) := by
    rw [hseen, Nat.add_sub_cancel_left]
    rcases happ.written with ⟨-, hhist, hframes⟩ | ⟨-, hhist, hframes⟩
    · have hlogged : (s.world fold b l).logged = before.drop (s.world fold b l).start := by
        show s.hist.drop _ = _
        rw [show s.hist = before from hhist]
      change l.frames = _ at hframes
      rw [hframes, hlogged, take_bytesOf]
    · have hlogged : (s.world fold b l).logged = before.drop (s.world fold b l).start ++ [r] := by
        show s.hist.drop _ = _
        rw [show s.hist = before ++ [r] from hhist]
        exact List.drop_append_of_le_length hstart
      change l.frames = _ at hframes
      rw [hframes, hlogged, bytesOf_append, take_bytesOf]
  have hlog : (s.log.map fun l : DiskLog => l.cut h.seen.walPos)
      = some { l with frames := bytesOf xxh3 (before.drop (s.world fold b l).start) } := by
    rw [hB.log, Option.map_some, ← hcut]
    rfl
  unfold Sys.stepFail
  simp only [hlog]
  rcases happ.written with ⟨hlt, hhist, -⟩ | ⟨hfull, hhist, -⟩
  · -- a torn record is cut off: the history is as it was
    rw [if_neg (by omega)]
    change s.hist = before at hhist
    subst hhist
    have hframe : ∀ k', Frame (s.world fold b l) _ k' := Frame.rewrite (s.world fold b l)
      (bytesOf xxh3 (s.hist.drop (s.world fold b l).start))
    refine ⟨_, hB.update (p := p) (hB.others_free hp hlocked) ?_ hB.base rfl
      (hd.withTail (torn_nil xxh3) (List.append_nil _).symm) hB.serial hB.acked ?_ (hframe 0)
      fun _ _ _ k' _ _ => hframe k'⟩
    · intro q hq
      exact setParty_ne _ _ hq
    rw [setParty_self]
    have hforget : ({ h.seen with stamp := none } : Seen).stamp = none := rfl
    exact ⟨fun _ => hlock, trivial, k₀,
      (hh.frame hd.mem (hframe k₀)).forget hforget hbgen (.inr ⟨rfl, rfl⟩) undo _, trivial⟩
  · -- a whole record is taken back
    rw [if_pos hfull]
    change s.hist = before ++ [r] at hhist
    have hdrop : s.hist.dropLast = before := by rw [hhist, List.dropLast_concat]
    rw [hdrop]
    have hframe : ∀ k', k' ≤ before.length → Frame (s.world fold b l) _ k' := fun k' hk' =>
      Frame.cutBack (w := s.world fold b l) hhist
        (bytesOf xxh3 (before.drop (s.world fold b l).start)) hk'
    refine ⟨_, hB.update (p := p) (hB.others_free hp hlocked) ?_ hB.base rfl
      (hd.cutBack hhist hgen ?_ hstart) ?_ hacked ?_ (hframe 0 (Nat.zero_le _)) ?_⟩
    · intro q hq
      exact setParty_ne _ _ hq
    · intro b' hb'
      exact (hd.fold_le b' hb').trans hfold
    · have hserial := hB.serial
      rw [hhist] at hserial
      exact hserial.dropLast
    · rw [setParty_self]
      have hforget : ({ h.seen with stamp := none } : Seen).stamp = none := rfl
      exact ⟨fun _ => hlock, trivial, k₀,
        (hh.frame hd.mem (hframe k₀ hk₀.le)).forget hforget hbgen (.inr ⟨rfl, rfl⟩) undo _,
        trivial⟩
    · intro q hq h' k' hpq hh'
      refine hframe k' ?_
      by_contra hgt
      have hall : k' = s.hist.length := by
        have hle : k' ≤ s.hist.length := hh'.serves.le
        rw [hhist, List.length_append, List.length_singleton] at hle ⊢
        omega
      have hseq := hunserved hfull q hq h' hpq
      rw [hh'.servedSeq hd, hall] at hseq
      have hend : endSeq ((s.world fold b l).hist.take s.hist.length) = r.lastSeq := by
        show endSeq (s.hist.take s.hist.length) = _
        rw [List.take_length, hhist, endSeq_concat]
      rw [hend] at hseq
      have := r.firstSeq_le_lastSeq
      omega

/-! ## Compaction -/

/-- The new base is renamed into place. -/
theorem Born.stepCompactBase (hB : Born xxh3 s fold b l) {p : Nat} {h : Handle}
    (hp : s.parties p = .live h) (hphase : h.phase = .synced) :
    ∃ fold' b', Born xxh3 (s.stepCompactBase p h) fold' b' l := by
  obtain ⟨hheld, -, k₀, hh, hlk⟩ := hB.live hp
  have hlocked : h.phase.isLocked = true := by rw [hphase]; rfl
  have hlock := hheld hlocked
  rw [hphase] at hlk
  obtain ⟨hk₀, hsync⟩ := hlk
  have hd := hB.disk
  have hgen : max h.served.base.generation h.diskGeneration + 1 = b.generation + 1 := by
    have h1 : h.served.base.generation ≤ b.generation := hd.newest _ hh.served_mem
    have h2 : h.diskGeneration = b.generation := hsync.disk
    omega
  have happlied : h.nextSeq - 1 = endSeq s.hist := by
    have h1 : h.nextSeq = endSeq s.hist + 1 := hsync.next
    omega
  have hops : (h.served.base.folded ++ [h.served.log]).flatten = opsOf s.hist := by
    have hview := hh.view_ops hd
    rw [hk₀] at hview
    have htake : (s.world fold b l).hist.take (s.world fold b l).hist.length = s.hist :=
      List.take_length
    rw [htake] at hview
    rw [← hview]
    simp [Gen.view, View.ops]
  have hd' := hd.newBase (b := ⟨s.fresh, max h.served.base.generation h.diskGeneration + 1,
    h.nextSeq - 1, h.served.base.folded ++ [h.served.log]⟩) rfl hgen hsync.generation hops happlied
  have hframe : ∀ k', Frame (s.world fold b l) _ k' := Frame.newBase hd
    (b := ⟨s.fresh, max h.served.base.generation h.diskGeneration + 1,
      h.nextSeq - 1, h.served.base.folded ++ [h.served.log]⟩) rfl (by
      show b.generation < max h.served.base.generation h.diskGeneration + 1
      omega) s.hist.length
  refine ⟨_, _, hB.update (p := p) (hB.others_free hp hlocked)
    (fun q hq => setParty_ne _ _ hq) rfl hB.log hd' hB.serial hB.acked ?_ (hframe 0)
    fun _ _ _ k' _ _ => hframe k'⟩
  unfold Sys.stepCompactBase
  rw [setParty_self]
  have hh' := hh.frame hd.mem (hframe k₀)
  refine ⟨fun _ => hlock, trivial, k₀, ?_, hk₀, ?_, rfl, happlied⟩
  · exact
      { served_mem := hh'.served_mem
        serves := hh'.serves
        next_pos := hh'.next_pos
        next_le := hh'.next_le
        disk_le := le_rfl
        seen_le := hh'.seen_le
        below := hh'.below
        pos := hh'.pos
        source_below := hh'.source_below
        source_seen := hh'.source_seen
        onBase := hh'.onBase
        current := hh'.current
        wal_seen := hh'.wal_seen }
  · show l.generation < max h.served.base.generation h.diskGeneration + 1
    have h1 : l.generation = b.generation := hsync.generation
    omega

/-- The log is reset and the new base installed, or every slot is pinned. -/
theorem Born.stepCompactLog (hB : Born xxh3 s fold b l) {p applied : Nat} {h : Handle}
    (hp : s.parties p = .live h) (hphase : h.phase = .compacting applied) :
    (∃ l', Born xxh3 (s.stepCompactLog p h b applied) fold b l') := by
  obtain ⟨hheld, -, k₀, hh, hlk⟩ := hB.live hp
  have hlocked : h.phase.isLocked = true := by rw [hphase]; rfl
  have hlock := hheld hlocked
  rw [hphase] at hlk
  obtain ⟨hk₀, hlt, hdisk, happlied⟩ := hlk
  have hd := hB.disk
  have hdg : h.diskGeneration = b.generation := hdisk
  have hall : fold b.generation = s.hist.length := hd.folded_all hlt
  have hd' := hd.newLog hall
  have hframe : ∀ k', Frame (s.world fold b l) _ k' := Frame.newLog (s.world fold b l) b.generation
  have hnil : s.hist.drop (fold b.generation) = [] := by rw [hall, List.drop_length]
  have hnext : applied + 1 ≤ endSeq s.hist + 1 := by
    have h1 : applied = endSeq s.hist := happlied
    omega
  unfold Sys.stepCompactLog
  simp only [hdg]
  cases hinstall : h.ring.install ⟨b, [], 0⟩ with
  | none =>
    -- the old generation stays served, the stamp is forgotten
    refine ⟨_, hB.update (p := p) (hB.others_free hp hlocked) ?_ hB.base rfl hd' hB.serial
      hB.acked ?_ (hframe 0) fun _ _ _ k' _ _ => hframe k'⟩
    · intro q hq
      exact setParty_ne _ _ hq
    rw [setParty_self]
    have hh' := (hh.frame hd.mem (hframe k₀)).forget (show Seen.unseen.stamp = none from rfl)
      (Nat.zero_le _) (.inl (Eq.refl (none : Option Nat))) h.staged .done
    refine ⟨fun _ => hlock, trivial, k₀, ?_, trivial⟩
    exact
      { served_mem := hh'.served_mem
        serves := hh'.serves
        next_pos := Nat.le_add_left 1 applied
        next_le := by
          show applied + 1 ≤ endSeq (s.hist.take k₀) + 1
          have htake : s.hist.take k₀ = s.hist := by
            rw [hk₀]
            exact List.take_length
          rw [htake]
          exact hnext
        disk_le := le_rfl
        seen_le := hh'.seen_le
        below := hh'.below
        pos := hh'.pos
        source_below := hh'.source_below
        source_seen := hh'.source_seen
        onBase := hh'.onBase
        current := hh'.current
        wal_seen := hh'.wal_seen }
  | some ring =>
    refine ⟨_, hB.update (p := p) (hB.others_free hp hlocked) ?_ hB.base rfl hd' hB.serial
      hB.acked ?_ (hframe 0) fun _ _ _ k' _ _ => hframe k'⟩
    · intro q hq
      exact setParty_ne _ _ hq
    rw [setParty_self]
    refine ⟨fun _ => hlock, trivial, s.hist.length, ?_, trivial⟩
    refine HandleOk.ofUpToDate hd' ?_ ?_ (Nat.le_add_left 1 applied) hnext ?_ rfl ?_ ⟨?_, ?_, rfl⟩
    · show ring.served.base ∈ s.written
      rw [Ring.served_install hinstall]
      exact hd.mem
    · show ring.served.Serves s.hist fold s.hist.length
      rw [Ring.served_install hinstall]
      refine ⟨hall.le, le_rfl, ?_⟩
      rw [List.take_length]
      exact (congrArg opsOf hnil).symm
    · exact le_rfl
    · show [] = bytesOf xxh3 (s.hist.drop (fold b.generation))
      rw [hnil]
      rfl
    · simp [Sys.stamp, hB.base, World.stamp, Sys.world, DiskLog.stamp, DiskLog.len]
    · rintro id ⟨⟩

end born

end GraphR.Multi
