import GraphR.Multi.Sync

/-! # Steps that write nothing

    Opening, reloading, staging, pinning and the commit lock itself: only the
    acting party and the lock change. -/

namespace GraphR.Multi

open Wal ByteLib

/-! ## Changing one party -/

section born
variable {xxh3 : Bytes → UInt64} {s : Sys} {fold : Nat → Nat} {b : DiskBase} {l : DiskLog}

@[simp] theorem setParty_self (s : Sys) (p : Nat) (x : Party) : (s.setParty p x).parties p = x := by
  simp [Sys.setParty]

@[simp] theorem setParty_ne (s : Sys) {p q : Nat} (x : Party) (h : q ≠ p) :
    (s.setParty p x).parties q = s.parties q := by
  simp [Sys.setParty, h]

@[simp] theorem setParty_base (s : Sys) (p : Nat) (x : Party) : (s.setParty p x).base = s.base := rfl

@[simp] theorem setParty_log (s : Sys) (p : Nat) (x : Party) : (s.setParty p x).log = s.log := rfl

@[simp] theorem setParty_hist (s : Sys) (p : Nat) (x : Party) : (s.setParty p x).hist = s.hist := rfl

@[simp] theorem setParty_lock (s : Sys) (p : Nat) (x : Party) : (s.setParty p x).lock = s.lock := rfl

/-- Party `p` moves, files and lock stay. -/
theorem Born.setParty (hB : Born xxh3 s fold b l) {p : Nat} {x : Party}
    (hx : PartyOk xxh3 (s.world fold b l) s.lock s.acked p x) :
    Born xxh3 (s.setParty p x) fold b l where
  base := hB.base
  log := hB.log
  disk := hB.disk
  serial := hB.serial
  acked := hB.acked
  parties := by
    intro q
    by_cases hq : q = p
    · subst hq
      rw [setParty_self]
      exact hx
    · rw [setParty_ne s x hq]
      exact hB.parties q

/-- Party `p` and the lock move; no other party is inside a locked operation. -/
theorem Born.setLock (hB : Born xxh3 s fold b l) {p : Nat} {x : Party} (lock : Lock)
    (hfree : ∀ q, q ≠ p → s.lock ≠ .held (some q))
    (hx : PartyOk xxh3 (s.world fold b l) lock s.acked p x) :
    Born xxh3 ({ s with lock := lock }.setParty p x) fold b l where
  base := hB.base
  log := hB.log
  disk := hB.disk
  serial := hB.serial
  acked := hB.acked
  parties := by
    intro q
    by_cases hq : q = p
    · subst hq
      rw [setParty_self]
      exact hx
    · rw [setParty_ne _ x hq]
      exact (hB.parties q).frame (hfree q hq) hB.disk.mem (Frame.refl _ 0) fun _ k _ _ => Frame.refl _ k

/-- What the invariant says of a live party. -/
theorem Born.live (hB : Born xxh3 s fold b l) {p : Nat} {h : Handle}
    (hp : s.parties p = .live h) :
    (h.phase.isLocked → s.lock = .held (some p)) ∧ LooseOk (s.world fold b l) h h.phase ∧
      ∃ k, HandleOk (s.world fold b l) h k ∧
        LockedOk xxh3 (s.world fold b l) s.acked h k h.phase := by
  have h' := hB.parties p
  rw [hp] at h'
  exact h'

/-- The lock's user is the only party inside a locked operation. -/
theorem Born.others_free (hB : Born xxh3 s fold b l) {p : Nat} {h : Handle}
    (hp : s.parties p = .live h) (hl : h.phase.isLocked = true) :
    ∀ q, q ≠ p → s.lock ≠ .held (some q) := by
  intro q hq heq
  rw [(hB.live hp).1 hl] at heq
  cases heq
  exact hq rfl

/-! ## Opening -/

theorem Born.stampOn_below (hB : Born xxh3 s fold b l) {x : Option Nat}
    (hx : ∀ i, x = some i → i < s.fresh) :
    ∀ st, s.stampOn x = some st → st.Below s.fresh := by
  intro st hst
  unfold Sys.stampOn at hst
  obtain ⟨i, hi, rfl⟩ := Option.map_eq_some_iff.mp hst
  refine ⟨hx i hi, ?_⟩
  intro v hv
  rw [hB.log] at hv
  cases hv
  exact hB.disk.log_fresh

theorem Born.mapped (hB : Born xxh3 s fold b l) {now : Option Stamp}
    (hnow : ∀ st, now = some st → st.Below s.fresh) :
    MappedOk (s.world fold b l) now b :=
  ⟨hB.disk.mem, hnow, fun _ _ => rfl⟩

/-- A freshly opened handle. -/
theorem handleOk_assemble (hB : Born xxh3 s fold b l) {now : Option Stamp} {b' : DiskBase}
    (hm : MappedOk (s.world fold b l) now b') {built : Built}
    (hbuilt : buildGeneration xxh3 b' (some l) = .ok built) (hnewer : built.log ≠ .newer) :
    HandleOk (s.world fold b l)
      { ring := .of built.gen
        seen := ⟨now, built.goodLen, isCurrent built.log, b'.generation⟩
        source := some l.ident
        nextSeq := built.nextSeq
        diskGeneration := b'.generation
        staged := []
        wal := none
        phase := .idle } s.hist.length := by
  obtain ⟨hbase, hserves, hnext, -, hlog⟩ := buildGeneration_spec hB.disk hm.mem hbuilt hnewer
  exact
    { served_mem := by
        show built.gen.base ∈ _
        rw [hbase]
        exact hm.mem
      serves := hserves
      next_pos := by simp only [hnext]; omega
      next_le := by
        show built.nextSeq ≤ endSeq (s.hist.take s.hist.length) + 1
        rw [List.take_length]
        exact hnext.le
      disk_le := hB.disk.newest b' hm.mem
      seen_le := hB.disk.newest b' hm.mem
      below := hm.below
      pos := by
        intro _
        rcases hlog with ⟨-, -, hpos⟩ | ⟨-, -, hpos⟩
        · refine ⟨(s.world fold b l).logged.length, ?_, ?_⟩
          · have := hB.disk.start_le
            simp only [World.logged, List.length_drop]
            have hhist : (s.world fold b l).hist = s.hist := rfl
            rw [hhist] at this ⊢
            omega
          · show built.goodLen = _
            rw [hpos]
            unfold World.logged
            rw [List.take_length]
        · refine ⟨0, ?_, by simpa using hpos⟩
          have := hB.disk.start_le
          exact this
      source_below := by
        rintro id ⟨⟩
        exact hB.disk.log_fresh
      source_seen := fun _ _ _ => rfl
      onBase := by
        intro v hv
        have heq := hm.same v hv
        refine ⟨by rw [← heq], ?_⟩
        exact (hB.disk.folds _ hB.disk.mem).le
      current := by
        intro len hv
        have heq := hm.same _ hv
        rw [← heq]
        rcases hlog with ⟨hgen, hcur, -⟩ | ⟨hgen, hcur, -⟩
        · simp [hgen, hcur]
        · simp only [hcur, Bool.false_eq_true, false_iff]
          omega
      wal_seen := by rintro id ⟨⟩ }

theorem Born.stepOpen (hB : Born xxh3 s fold b l) {p : Nat} {phase : Phase} {x : Party}
    (hp : s.parties p = .opening phase) (hstep : s.stepOpen xxh3 phase = some x) :
    PartyOk xxh3 (s.world fold b l) s.lock s.acked p x := by
  have hok := hB.parties p
  rw [hp] at hok
  unfold Sys.stepOpen at hstep
  cases phase with
  | based bi =>
    cases hstep
    exact hB.stampOn_below hok
  | full now =>
    rw [hB.base] at hstep
    cases hstep
    exact hB.mapped hok
  | mapped now b' =>
    rw [hB.log] at hstep
    simp only at hstep
    cases hbuilt : buildGeneration xxh3 b' (some l) with
    | error e =>
      rw [hbuilt] at hstep
      cases hstep
      trivial
    | ok built =>
      rw [hbuilt] at hstep
      simp only at hstep
      by_cases hnewer : built.log = .newer
      · rw [if_pos hnewer] at hstep
        cases hstep
        exact MappedOk.below hok
      · rw [if_neg hnewer] at hstep
        cases hstep
        exact ⟨by simp [Phase.isLocked], trivial, _, handleOk_assemble hB hok hbuilt hnewer, trivial⟩
  | _ => cases hstep

/-! ## Reloading -/

/-- Each access of a reload; a tail read must read the log its stamp names. -/
theorem Born.stepReload (hB : Born xxh3 s fold b l) {p : Nat} {h h' : Handle}
    (hp : s.parties p = .live h)
    (hsame : ∀ now, h.phase = .tail now → now.wal.map Prod.fst = some l.ident)
    (hstep : s.stepReload xxh3 h h.phase = some h') :
    PartyOk xxh3 (s.world fold b l) s.lock s.acked p (.live h') ∧
      h.served.servedSeq ≤ h'.served.servedSeq := by
  obtain ⟨-, hloose, k, hh, -⟩ := hB.live hp
  have hd := hB.disk
  -- after a read that succeeded everything is served
  have hread : ∀ h₁ : Handle, HandleOk (s.world fold b l) h₁ s.hist.length →
      PartyOk xxh3 (s.world fold b l) s.lock s.acked p (.live { h₁.adopt with phase := .idle }) ∧
        h.served.servedSeq ≤ h₁.adopt.served.servedSeq := by
    intro h₁ hh₁
    refine ⟨⟨by simp [Phase.isLocked], trivial, _, ((hh₁.adopt hd).1).withPhase _, trivial⟩, ?_⟩
    rw [hh.servedSeq hd, ((hh₁.adopt hd).1).servedSeq hd]
    exact hd.rising.endSeq_mono hh.serves.le
  have hidle : PartyOk xxh3 (s.world fold b l) s.lock s.acked p (.live { h with phase := .idle }) :=
    ⟨by simp [Phase.isLocked], trivial, k, hh.withPhase _, trivial⟩
  unfold Sys.stepReload at hstep
  cases hphase : h.phase with
  | based bi =>
    rw [hphase] at hstep hloose
    simp only at hstep
    have hbelow := hB.stampOn_below hloose
    cases hcaught : h.seen.caught (s.stampOn bi) with
    | nothing =>
      rw [hcaught] at hstep
      cases hstep
      exact ⟨hidle, le_rfl⟩
    | tail =>
      obtain ⟨n, id, len, len', hn, hwal, hst, hpos⟩ := caught_tail hcaught
      rw [hcaught, hn] at hstep
      cases hstep
      exact ⟨⟨by simp [Phase.isLocked], ⟨hpos, id, len, len', hwal, hst⟩, k, hh.withPhase _, trivial⟩,
        le_rfl⟩
    | full =>
      rw [hcaught] at hstep
      cases hstep
      exact ⟨⟨by simp [Phase.isLocked], hbelow, k, hh.withPhase _, trivial⟩, le_rfl⟩
  | tail now =>
    rw [hphase] at hstep hloose
    obtain ⟨-, id, len, len', hwal, hst⟩ := hloose
    have hid : id = l.ident := by
      have := hsame now hphase
      rw [hwal] at this
      simpa using this
    subst hid
    have hbelow : now.Below s.fresh := by
      refine ⟨(hh.below _ hst).1, ?_⟩
      intro v hv
      rw [hwal] at hv
      cases hv
      exact hd.log_fresh
    rw [hB.log] at hstep
    simp only at hstep
    cases hr : h.readTail xxh3 now (some l) with
    | error e =>
      rw [hr] at hstep
      cases hstep
      exact ⟨hidle, le_rfl⟩
    | ok h₁ =>
      rw [hr] at hstep
      cases hstep
      exact hread h₁ (readTail_spec hd hh hwal hbelow hst hr).1
  | full now =>
    rw [hphase] at hstep hloose
    rw [hB.base] at hstep
    cases hstep
    exact ⟨⟨by simp [Phase.isLocked], hB.mapped hloose, k, hh.withPhase _, trivial⟩, le_rfl⟩
  | mapped now b' =>
    rw [hphase] at hstep hloose
    rw [hB.log] at hstep
    simp only at hstep
    cases hr : h.readFull xxh3 now b' (some l) with
    | error e =>
      rw [hr] at hstep
      cases hstep
      exact ⟨hidle, le_rfl⟩
    | ok res =>
      cases res with
      | none =>
        rw [hr] at hstep
        cases hstep
        exact ⟨⟨by simp [Phase.isLocked], MappedOk.below hloose, k, hh.withPhase _, trivial⟩, le_rfl⟩
      | some h₁ =>
        rw [hr] at hstep
        cases hstep
        exact hread h₁ (readFull_spec hd hh hloose hr).1
  | _ =>
    rw [hphase] at hstep
    cases hstep

end born

end GraphR.Multi
