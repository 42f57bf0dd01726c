import GraphR.Multi.Frame

/-! # Catching up

    Whichever way a handle reads the files, a read that succeeds leaves it
    serving the whole history, with an offset behind the last record of the log
    it read. The five routes by which ops reach an overlay (own commit, tail
    read, whole-log apply, rebuild, re-publication of a generation that could
    not be installed) all end in `publishAbove_drop`. -/

namespace GraphR.Multi

open Wal ByteLib

/-! ## What a catch-up decides on -/

theorem caught_nothing {seen : Seen} {now : Option Stamp} (h : seen.caught now = .nothing) :
    seen.stamp = now ∧ now.isSome := by
  unfold Seen.caught at h
  split at h
  · next n l hst =>
    by_cases heq : n = l
    · rw [hst, heq]
      exact ⟨rfl, rfl⟩
    · rw [if_neg heq] at h
      split at h
      · next ni nlen li _ _ _ =>
        by_cases hc : n.base = l.base ∧ ni = li ∧ seen.walPos ≤ nlen ∧ headerLen ≤ seen.walPos
        · rw [if_pos hc] at h
          cases h
        · rw [if_neg hc] at h
          cases h
      · cases h
  · cases h

theorem caught_tail {seen : Seen} {now : Option Stamp} (h : seen.caught now = .tail) :
    ∃ n id len len', now = some n ∧ n.wal = some (id, len) ∧
      seen.stamp = some ⟨n.base, some (id, len')⟩ ∧ headerLen ≤ seen.walPos := by
  unfold Seen.caught at h
  split at h
  · next n l hst =>
    by_cases heq : n = l
    · rw [if_pos heq] at h
      cases h
    · rw [if_neg heq] at h
      split at h
      · next ni nlen li len hn hl =>
        by_cases hc : n.base = l.base ∧ ni = li ∧ seen.walPos ≤ nlen ∧ headerLen ≤ seen.walPos
        · obtain ⟨hb, hi, -, hpos⟩ := hc
          refine ⟨n, ni, nlen, len, rfl, hn, ?_, hpos⟩
          rw [hst, hb, hi, ← hl]
        · rw [if_neg hc] at h
          cases h
      · cases h
  · cases h

/-! ## Reads -/

section reads
variable {xxh3 : Bytes → UInt64} {w : World} (hd : DiskOk xxh3 w)
include hd

theorem DiskOk.rising_logged : Rising w.logged := hd.rising.drop _

omit hd in
/-- A generation that shows `k` records shows all after the rest is
    published. -/
theorem Gen.Serves.extend {g g' : Gen} {k : Nat} (hs : g.Serves w.hist w.fold k)
    (hbase : g'.base = g.base) (hlog : g'.log = g.log ++ opsOf (w.hist.drop k)) :
    g'.Serves w.hist w.fold w.hist.length := by
  have hge := hs.ge
  have hle := hs.le
  refine ⟨by rw [hbase]; omega, le_rfl, ?_⟩
  rw [hlog, hbase, hs.log, List.take_length, drop_eq_append w.hist hs.ge, opsOf_append]

omit hd in
/-- The log from record `j` on. -/
theorem tail_at {tail : Bytes} (hframes : w.log.frames = bytesOf xxh3 w.logged ++ tail) {pos j : Nat}
    (hpos : pos = headerLen + size (w.logged.take j)) :
    w.log.tail pos = bytesOf xxh3 (w.hist.drop (w.start + j)) ++ tail := by
  unfold DiskLog.tail
  rw [hpos, Nat.add_sub_cancel_left, hframes, drop_bytesOf]
  unfold World.logged
  rw [List.drop_drop]

section handle
variable {h : Handle} {k : Nat} (hh : HandleOk w h k)
include hh

theorem HandleOk.servedSeq : h.served.servedSeq = endSeq (w.hist.take k) :=
  hh.serves.servedSeq (hd.folds _ hh.served_mem) hd.rising

theorem HandleOk.view_ops : h.served.view.ops = opsOf (w.hist.take k) :=
  hh.serves.view_ops (hd.folds _ hh.served_mem)

/-- Publishing what lies from record `a` on, none of it past the served ones. -/
theorem HandleOk.publishNew {a head : Nat} (hak : a ≤ k) {g : Gen} {c : Bool}
    (hpub : h.ring.served.publishNew (bytesOf xxh3 (w.hist.drop a)) head = .ok (g, c)) :
    g.base = h.served.base ∧ g.Serves w.hist w.fold w.hist.length := by
  unfold Gen.publishNew at hpub
  have hseq := hh.servedSeq hd
  unfold Handle.served at hseq
  rw [hseq] at hpub
  obtain ⟨hbase, hlog, -⟩ := publishAbove_drop hd.rising hak hpub
  exact ⟨hbase, hh.serves.extend hbase hlog⟩

/-- `reload_wal_tail` on the log the handle knows. -/
theorem reloadWalTail_spec {b len pos : Nat} {r : Ring}
    (hst : h.seen.stamp = some ⟨b, some (w.log.ident, len)⟩)
    (hr : reloadWalTail xxh3 h.ring (some w.log) h.seen.walPos = .ok (r, pos)) :
    r.served.base = h.served.base ∧ r.served.Serves w.hist w.fold w.hist.length ∧
      pos = headerLen + size w.logged := by
  obtain ⟨j, hj, hpos⟩ := hh.pos (hh.source_seen b len hst)
  obtain ⟨tail, htorn, hframes⟩ := hd.frames
  have htail := tail_at hframes hpos
  unfold reloadWalTail at hr
  simp only [htail, wholeEnd_frames (hd.rising.drop _) htorn] at hr
  rw [FaultLib.bind_ok] at hr
  obtain ⟨stop, hstop, hr⟩ := hr
  cases hstop
  rw [FaultLib.bind_ok] at hr
  obtain ⟨⟨g, c⟩, hpub, hr⟩ := hr
  cases hr
  rw [take_bytesOf] at hpub
  obtain ⟨hbase, hserves⟩ := hh.publishNew hd hj hpub
  rw [Ring.served_serve]
  refine ⟨hbase, hserves, ?_⟩
  -- the records up to `j` and those behind it
  have hsplit : size w.logged = size (w.logged.take j) + size (w.hist.drop (w.start + j)) := by
    conv_lhs => rw [← List.take_append_drop j w.logged, size_append]
    unfold World.logged
    rw [List.drop_drop]
  have hpos' : h.seen.walPos = headerLen + size (w.logged.take j) := hpos
  omega

/-- `apply_log` on a log of the served generation. -/
theorem applyLog_spec {pos : Nat} {r : Ring}
    (hr : applyLog xxh3 h.ring (some w.log) = .ok (some (r, pos))) :
    w.log.generation = h.served.base.generation ∧ r.served.base = h.served.base ∧
      r.served.Serves w.hist w.fold w.hist.length ∧ pos = headerLen + size w.logged := by
  obtain ⟨tail, htorn, hframes⟩ := hd.frames
  have hgen : w.log.generation = h.served.base.generation := by
    by_contra hne
    unfold applyLog at hr
    simp only [Handle.served] at hr hne
    rw [if_pos hne] at hr
    cases hr
  unfold applyLog at hr
  simp only at hr
  rw [if_neg fun hne => hne hgen] at hr
  have hstart : w.start ≤ k := by
    unfold World.start
    rw [hgen]
    exact hh.serves.ge
  rw [hframes, wholeEnd_frames hd.rising_logged htorn, FaultLib.bind_ok] at hr
  obtain ⟨stop, hstop, hr⟩ := hr
  cases hstop
  refine ⟨hgen, ?_⟩
  have hseq := hh.servedSeq hd
  unfold Handle.served at hseq
  rw [records_frames hd.rising_logged htorn, hseq] at hr
  have hfind := @find_unserved xxh3 _ hd.rising _ _ hstart
  cases hrec : ((placed 0 w.logged).map fun p => p.2.toRecord xxh3 p.1).find? fun r =>
      endSeq (w.hist.take k) < r.lastSeq with
  | none =>
    rw [hrec] at hr
    cases hr
    refine ⟨rfl, ?_, rfl⟩
    exact hh.serves.extend rfl (by rw [hfind.1 hrec, opsOf_nil, List.append_nil]; rfl)
  | some rec =>
    rw [hrec] at hr
    simp only at hr
    obtain ⟨i, hi, hoff⟩ := hfind.2 rec hrec
    rw [FaultLib.bind_ok] at hr
    obtain ⟨⟨g, c⟩, hpub, hr⟩ := hr
    cases hr
    have hseg : range (bytesOf xxh3 w.logged ++ tail) rec.offset (size w.logged - rec.offset)
        = bytesOf xxh3 (w.hist.drop (w.start + i)) := by
      rw [hoff]
      unfold range
      change ((bytesOf xxh3 w.logged ++ tail).drop (size (w.logged.take i))).take _ = _
      rw [drop_bytesOf]
      have hrest : w.logged.drop i = w.hist.drop (w.start + i) := by
        unfold World.logged
        rw [List.drop_drop]
      have hsize : size w.logged - size (w.logged.take i) = size (w.logged.drop i) := by
        conv_lhs => rw [← List.take_append_drop i w.logged, size_append]
        rw [List.take_append_drop]
        omega
      change List.take (size w.logged - size (w.logged.take i)) _ = _
      rw [hsize, take_bytesOf, hrest]
    rw [hseg] at hpub
    obtain ⟨hbase, hserves⟩ := hh.publishNew hd hi hpub
    rw [Ring.served_serve]
    exact ⟨hbase, hserves, rfl⟩

end handle

/-- `build_generation` from a base that was in place and the log. -/
theorem buildGeneration_spec {b : DiskBase} (hb : b ∈ w.written) {built : Built}
    (hr : buildGeneration xxh3 b (some w.log) = .ok built) (hlog : built.log ≠ .newer) :
    built.gen.base = b ∧ built.gen.Serves w.hist w.fold w.hist.length ∧
      built.nextSeq = endSeq w.hist + 1 ∧
      (built.gen.segs = 0 → opsOf (w.hist.drop (w.fold b.generation)) = []) ∧
      ((w.log.generation = b.generation ∧ isCurrent built.log = true ∧
          built.goodLen = headerLen + size w.logged) ∨
        (w.log.generation < b.generation ∧ isCurrent built.log = false ∧
          built.goodLen = headerLen)) := by
  have hfolds := hd.folds b hb
  unfold buildGeneration at hr
  simp only at hr
  split_ifs at hr with hnewer hstale
  · cases hr
    exact absurd rfl hlog
  · -- a stale log: the base is the newest and has folded everything
    cases hr
    have hall : w.fold b.generation = w.hist.length := by
      have hbase := hd.behind b hb hstale
      rw [hbase] at hstale ⊢
      exact hd.folded_all hstale
    refine ⟨rfl, ⟨hall.le, le_rfl, ?_⟩, ?_, ?_, .inr ⟨hstale, rfl, rfl⟩⟩
    · simp [hall]
    · show b.applied + 1 = _
      rw [hfolds.applied, hall, List.take_length]
    · intro _
      rw [hall, List.drop_length, opsOf_nil]
  · have hgen : w.log.generation = b.generation := by omega
    have hstart : w.start = w.fold b.generation := by rw [World.start, hgen]
    obtain ⟨tail, htorn, hframes⟩ := hd.frames
    have hlast := lastSeq_frames hd.rising_logged htorn
    rw [hframes, wholeEnd_frames hd.rising_logged htorn, FaultLib.bind_ok] at hr
    obtain ⟨stop, hstop, hr⟩ := hr
    cases hstop
    simp only [take_bytesOf] at hr
    cases hpub : (Gen.mk b [] 0).publishAbove b.applied (bytesOf xxh3 w.logged) headerLen with
    | error e => simp [hpub] at hr
    | ok gc =>
      obtain ⟨g, c⟩ := gc
      rw [hpub] at hr
      simp only [Except.ok.injEq] at hr
      subst hr
      rw [hfolds.applied, ← hstart] at hpub
      unfold World.logged at hpub
      obtain ⟨hbase, hglog, hsegs⟩ := publishAbove_drop hd.rising le_rfl hpub
      rw [hstart] at hglog hsegs
      refine ⟨hbase, ⟨?_, le_rfl, ?_⟩, ?_, hsegs, .inl ⟨hgen, rfl, rfl⟩⟩
      · rw [hbase]
        exact hfolds.le
      · rw [hglog, hbase, List.take_length]
        rfl
      · -- the next number: above the last record's, or above the base's
        simp only [hlast]
        rw [hfolds.applied, ← hstart]
        have hmono := hd.rising.endSeq_mono hd.start_le
        rw [List.take_length] at hmono
        have hsplit : endSeq w.hist = (w.logged.getLast?.map SealedRecord.lastSeq).getD
            (endSeq (w.hist.take w.start)) := by
          unfold endSeq
          conv_lhs => rw [← List.take_append_drop w.start w.hist, List.getLast?_append]
          unfold World.logged
          cases (w.hist.drop w.start).getLast? <;> rfl
        cases hgl : w.logged.getLast? with
        | none => simp [hsplit, hgl]
        | some r =>
          rw [hsplit, hgl] at hmono ⊢
          simp only [Option.map_some, Option.getD_some] at hmono ⊢
          rw [Nat.max_eq_left hmono]

/-- A base ahead of the log has folded the whole history. -/
theorem DiskOk.fold_of_stale {b : DiskBase} (hb : b ∈ w.written)
    (hstale : w.log.generation < b.generation) : w.fold b.generation = w.hist.length := by
  have hbase := hd.behind b hb hstale
  rw [hbase] at hstale ⊢
  exact hd.folded_all hstale

omit hd in
/-- `apply_log` refuses exactly the log of another generation. -/
theorem applyLog_none {r : Ring} (hr : applyLog xxh3 r (some w.log) = .ok none) :
    w.log.generation ≠ r.served.base.generation := by
  intro hgen
  unfold applyLog at hr
  simp only at hr
  rw [if_neg (not_not.mpr hgen), FaultLib.bind_ok] at hr
  obtain ⟨stop, -, hr⟩ := hr
  split at hr
  · cases hr
  · rw [FaultLib.bind_ok] at hr
    obtain ⟨⟨g, c⟩, -, hr⟩ := hr
    cases hr

/-- `install_or_apply`, whichever way it goes. -/
theorem installOrApply_spec {h : Handle} {k : Nat} (hh : HandleOk w h k) {b : DiskBase}
    (hb : b ∈ w.written) {a : Applied}
    (hr : installOrApply xxh3 h.ring b (some w.log) = .ok (some a)) :
    a.ring.served.base ∈ w.written ∧ a.ring.served.Serves w.hist w.fold w.hist.length ∧
      ((w.log.generation = b.generation ∧ a.current = true ∧ a.pos = headerLen + size w.logged) ∨
        (w.log.generation < b.generation ∧ a.current = false ∧ a.pos = headerLen)) := by
  unfold installOrApply at hr
  by_cases hsame : b.generation = h.ring.served.base.generation
  · -- the served generation: only the log can have grown
    rw [if_pos hsame, FaultLib.bind_ok] at hr
    obtain ⟨res, happly, hr⟩ := hr
    cases res with
    | some rp =>
      obtain ⟨r', pos⟩ := rp
      cases hr
      obtain ⟨hgen, hbase, hserves, hpos⟩ := applyLog_spec hd hh happly
      refine ⟨by rw [hbase]; exact hh.served_mem, hserves, .inl ⟨?_, rfl, hpos⟩⟩
      rw [hgen, hsame]
      rfl
    | none =>
      have hne := applyLog_none happly
      simp only [Option.any_some, decide_eq_true_eq] at hr
      split_ifs at hr with hnewer
      · cases hr
      cases hr
      have hstale : w.log.generation < b.generation := by omega
      refine ⟨hh.served_mem, ?_, .inr ⟨hstale, rfl, rfl⟩⟩
      have hall := hd.fold_of_stale hb hstale
      have hge := hh.serves.ge
      have hle := hh.serves.le
      have hk : k = w.hist.length := by
        unfold Handle.served at hge
        rw [← hsame, hall] at hge
        omega
      rw [← hk]
      exact hh.serves
  · rw [if_neg hsame, FaultLib.bind_ok] at hr
    obtain ⟨built, hbuilt, hr⟩ := hr
    simp only at hr
    by_cases hnewer : built.log = .newer
    · rw [if_pos hnewer] at hr
      cases hr
    rw [if_neg hnewer] at hr
    obtain ⟨hbase, hserves, -, hsegs, hlog⟩ := buildGeneration_spec hd hb hbuilt hnewer
    cases hinstall : h.ring.install built.gen with
    | some r' =>
      rw [hinstall] at hr
      cases hr
      rw [Ring.served_install hinstall]
      exact ⟨by rw [hbase]; exact hb, hserves, hlog⟩
    | none =>
      -- every other slot pinned: keep serving and publish the log on top
      rw [hinstall] at hr
      simp only at hr
      by_cases hmissed : h.ring.served.servedSeq < b.applied
      · rw [if_pos hmissed] at hr
        cases hr
      rw [if_neg hmissed] at hr
      have hfold : w.fold b.generation ≤ k := by
        by_contra hlt
        have hseq := hh.servedSeq hd
        unfold Handle.served at hseq
        rw [hseq, (hd.folds b hb).applied] at hmissed
        exact hmissed (hd.rising.endSeq_lt_of_lt (by omega) (hd.folds b hb).le)
      have hle := hh.serves.le
      by_cases hnoseg : built.gen.segs = 0
      · -- nothing above the base: the served generation has everything
        rw [if_pos hnoseg] at hr
        cases hr
        refine ⟨hh.served_mem, ?_, hlog⟩
        have hnil := List.drop_eq_nil_iff.mp (opsOf_eq_nil (hsegs hnoseg))
        have hk : k = w.hist.length := by omega
        rw [← hk]
        exact hh.serves
      · rw [if_neg hnoseg, FaultLib.bind_ok] at hr
        obtain ⟨⟨g, c⟩, hpub, hr⟩ := hr
        cases hr
        obtain ⟨tail, htorn, hframes⟩ := hd.frames
        have hseg : ∃ n, n ≤ k ∧ w.log.frames.take (built.goodLen - headerLen)
            = bytesOf xxh3 (w.hist.drop n) := by
          rcases hlog with ⟨hgen, -, hlen⟩ | ⟨hstale, -, hlen⟩
          · refine ⟨w.start, by rw [World.start, hgen]; exact hfold, ?_⟩
            rw [hlen, Nat.add_sub_cancel_left, hframes, take_bytesOf]
            rfl
          · refine ⟨w.hist.length, by rw [← hd.fold_of_stale hb hstale]; exact hfold, ?_⟩
            rw [hlen, Nat.sub_self, List.take_zero, List.drop_length]
            rfl
        obtain ⟨n, hn, hseg⟩ := hseg
        rw [hseg] at hpub
        obtain ⟨hgbase, hgserves⟩ := hh.publishNew hd hn hpub
        rw [Ring.served_serve]
        exact ⟨by rw [hgbase]; exact hh.served_mem, hgserves, hlog⟩

/-! ## Handles -/

section handle
variable {h : Handle} {k : Nat} (hh : HandleOk w h k)
include hh

/-- The next number never runs ahead of a longer prefix. -/
theorem HandleOk.next_le_all : h.nextSeq ≤ endSeq w.hist + 1 := by
  have hmono := hd.rising.endSeq_mono hh.serves.le
  rw [List.take_length] at hmono
  have := hh.next_le
  omega

/-- A tail read, of the log the handle's stamp names. -/
theorem readTail_spec {h' : Handle} {now : Stamp} {len len' : Nat}
    (hnow : now.wal = some (w.log.ident, len)) (hbelow : now.Below w.fresh)
    (hst : h.seen.stamp = some ⟨now.base, some (w.log.ident, len')⟩)
    (hr : h.readTail xxh3 now (some w.log) = .ok h') :
    HandleOk w h' w.hist.length ∧ h'.seen.stamp = some now ∧
      h'.seen.walPos = headerLen + size w.logged ∧ h'.seen.logCurrent = h.seen.logCurrent ∧
      h'.phase = h.phase := by
  unfold Handle.readTail at hr
  rw [FaultLib.bind_ok] at hr
  obtain ⟨⟨r, pos⟩, hread, hr⟩ := hr
  cases hr
  obtain ⟨hbase, hserves, hpos⟩ := reloadWalTail_spec hd hh hst hread
  refine ⟨?_, rfl, hpos, rfl, rfl⟩
  exact
    { served_mem := by
        show r.served.base ∈ w.written
        rw [hbase]
        exact hh.served_mem
      serves := hserves
      next_pos := hh.next_pos
      next_le := by
        rw [List.take_length]
        exact hh.next_le_all hd
      disk_le := hh.disk_le
      seen_le := hh.seen_le
      below := by
        rintro st ⟨⟩
        exact hbelow
      pos := by
        intro _
        exact ⟨w.logged.length, by
          have := hd.start_le
          simp only [World.logged, List.length_drop]
          omega, by
          show pos = _
          rw [hpos]
          unfold World.logged
          rw [List.take_length]⟩
      source_below := by
        rintro id ⟨⟩
        exact hd.log_fresh
      source_seen := fun _ _ _ => rfl
      onBase := by
        intro v hv
        simp only [Option.some.injEq] at hv
        subst hv
        obtain ⟨hgen, hfold⟩ := hh.onBase _ hst
        exact ⟨hgen, hfold.trans hh.serves.le⟩
      current := by
        intro len'' hv
        simp only [Option.some.injEq] at hv
        subst hv
        exact hh.current _ hst
      wal_seen := by
        intro id hid
        obtain ⟨b', len'', hb'⟩ := hh.wal_seen id hid
        rw [hst] at hb'
        cases hb'
        exact ⟨now.base, len, by
          show some now = _
          rw [← hnow]⟩ }

/-- A full read, of a base that was in place and the log. -/
theorem readFull_spec {h' : Handle} {now : Option Stamp} {b : DiskBase} (hb : MappedOk w now b)
    (hr : h.readFull xxh3 now b (some w.log) = .ok (some h')) :
    HandleOk w h' w.hist.length ∧ h'.seen.stamp = now ∧
      (h'.seen.logCurrent = true → h'.seen.walPos = headerLen + size w.logged) ∧
      h'.phase = h.phase := by
  unfold Handle.readFull at hr
  rw [FaultLib.bind_ok] at hr
  obtain ⟨res, hread, hr⟩ := hr
  cases res with
  | none => cases hr
  | some a =>
    cases hr
    obtain ⟨hmem, hserves, hlog⟩ := installOrApply_spec hd hh hb.mem hread
    refine ⟨?_, rfl, ?_, rfl⟩
    · exact
        { served_mem := hmem
          serves := hserves
          next_pos := hh.next_pos
          next_le := by
            rw [List.take_length]
            exact hh.next_le_all hd
          disk_le := hh.disk_le
          seen_le := hd.newest b hb.mem
          below := hb.below
          pos := by
            intro _
            rcases hlog with ⟨-, -, hpos⟩ | ⟨-, -, hpos⟩
            · exact ⟨w.logged.length, by
                have := hd.start_le
                simp only [World.logged, List.length_drop]
                omega, by
                show a.pos = _
                rw [hpos]
                unfold World.logged
                rw [List.take_length]⟩
            · exact ⟨0, by have := hd.start_le; omega, by simpa using hpos⟩
          source_below := by
            rintro id ⟨⟩
            exact hd.log_fresh
          source_seen := fun _ _ _ => rfl
          onBase := by
            intro v hv
            have hbase := hb.same v hv
            refine ⟨by rw [← hbase], ?_⟩
            rw [← hbase]
            exact (hd.folds b hb.mem).le
          current := by
            intro len hv
            have hbase := hb.same _ hv
            rw [← hbase]
            rcases hlog with ⟨hgen, hcur, -⟩ | ⟨hgen, hcur, -⟩
            · simp [hgen, hcur]
            · simp only [hcur, Bool.false_eq_true, false_iff]
              omega
          wal_seen := by
            intro id hid
            cases hid }
    · intro hcur
      rcases hlog with ⟨-, -, hpos⟩ | ⟨-, hno, -⟩
      · exact hpos
      · cases hcur.symm.trans hno

end handle

/-- Adopting what a catch-up found. -/
theorem HandleOk.adopt {h : Handle} {k : Nat} (hh : HandleOk w h k) :
    HandleOk w h.adopt k ∧ h.adopt.nextSeq = endSeq (w.hist.take k) + 1 := by
  have hseq := hh.servedSeq hd
  have hle := hh.next_le
  have hnext : h.adopt.nextSeq = endSeq (w.hist.take k) + 1 := by
    show max h.nextSeq (h.served.servedSeq + 1) = _
    rw [hseq]
    omega
  refine ⟨?_, hnext⟩
  exact
    { served_mem := hh.served_mem
      serves := hh.serves
      next_pos := by rw [hnext]; omega
      next_le := by rw [hnext]
      disk_le := Nat.max_le.mpr ⟨hh.disk_le, hh.seen_le⟩
      seen_le := hh.seen_le
      below := hh.below
      pos := hh.pos
      source_below := hh.source_below
      source_seen := hh.source_seen
      onBase := hh.onBase
      current := hh.current
      wal_seen := hh.wal_seen }

end reads

/-- A handle's phase is not part of what is asked of it. -/
theorem HandleOk.withPhase {w : World} {h : Handle} {k : Nat} (hh : HandleOk w h k)
    (phase : Phase) : HandleOk w { h with phase := phase } k :=
  ⟨hh.served_mem, hh.serves, hh.next_pos, hh.next_le, hh.disk_le, hh.seen_le, hh.below, hh.pos,
    hh.source_below, hh.source_seen, hh.onBase, hh.current, hh.wal_seen⟩

/-- Nor are its staged ops. -/
theorem HandleOk.withStaged {w : World} {h : Handle} {k : Nat} (hh : HandleOk w h k)
    (staged : List OpBytes) : HandleOk w { h with staged := staged } k :=
  ⟨hh.served_mem, hh.serves, hh.next_pos, hh.next_le, hh.disk_le, hh.seen_le, hh.below, hh.pos,
    hh.source_below, hh.source_seen, hh.onBase, hh.current, hh.wal_seen⟩

/-- Of the ring only what it serves matters. -/
theorem HandleOk.withRing {w : World} {h : Handle} {k : Nat} (hh : HandleOk w h k) {ring : Ring}
    (hserved : ring.served = h.ring.served) : HandleOk w { h with ring := ring } k where
  served_mem := by
    show ring.served.base ∈ w.written
    rw [hserved]
    exact hh.served_mem
  serves := by
    show ring.served.Serves _ _ _
    rw [hserved]
    exact hh.serves
  next_pos := hh.next_pos
  next_le := hh.next_le
  disk_le := hh.disk_le
  seen_le := hh.seen_le
  below := hh.below
  pos := hh.pos
  source_below := hh.source_below
  source_seen := hh.source_seen
  onBase := hh.onBase
  current := hh.current
  wal_seen := hh.wal_seen

end GraphR.Multi
