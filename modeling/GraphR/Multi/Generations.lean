import GraphR.Multi.Durability

/-! # Generation numbers

    A compaction numbers its base one above the larger of the generation its
    handle serves and the highest generation the handle knows to be on disk.
    What makes that number new does not depend on the log or on what handles
    have read of it, so it holds of every run, regular or not: a handle's stamp
    names a base no newer than its `disk_generation`, and a locked `sync`
    leaves it at least as high as every base ever in place. -/

namespace GraphR.Multi

open Wal ByteLib RunLib

variable {xxh3 : Bytes → UInt64}

/-! ## Reads keep to the bases they were given -/

theorem publishAbove_base {g g' : Gen} {served head : Nat} {frames : Bytes} {c : Bool}
    (h : g.publishAbove served frames head = .ok (g', c)) : g'.base = g.base := by
  unfold Gen.publishAbove at h
  simp only at h
  split_ifs at h
  · cases h
    rfl
  · cases h
    rfl

theorem reloadWalTail_base {r r' : Ring} {log : Option DiskLog} {pos pos' : Nat}
    (h : reloadWalTail xxh3 r log pos = .ok (r', pos')) : r'.served.base = r.served.base := by
  unfold reloadWalTail at h
  cases log with
  | none =>
    cases h
    rfl
  | some l =>
    simp only [FaultLib.bind_ok] at h
    obtain ⟨stop, -, ⟨g, c⟩, hpub, h⟩ := h
    cases h
    rw [Ring.served_serve]
    exact publishAbove_base hpub

theorem applyLog_base {r r' : Ring} {log : Option DiskLog} {pos : Nat}
    (h : applyLog xxh3 r log = .ok (some (r', pos))) : r'.served.base = r.served.base := by
  unfold applyLog at h
  cases log with
  | none =>
    cases h
    rfl
  | some l =>
    simp only at h
    split at h
    · cases h
    rw [FaultLib.bind_ok] at h
    obtain ⟨stop, -, h⟩ := h
    split at h
    · cases h
      rfl
    · rw [FaultLib.bind_ok] at h
      obtain ⟨⟨g, c⟩, hpub, h⟩ := h
      cases h
      rw [Ring.served_serve]
      exact publishAbove_base hpub

theorem buildGeneration_base {b : DiskBase} {log : Option DiskLog} {built : Built}
    (h : buildGeneration xxh3 b log = .ok built) : built.gen.base = b := by
  unfold buildGeneration at h
  cases log with
  | none =>
    cases h
    rfl
  | some l =>
    simp only at h
    split_ifs at h
    · cases h
      rfl
    · cases h
      rfl
    · rw [FaultLib.bind_ok] at h
      obtain ⟨stop, -, h⟩ := h
      split at h
      · cases h
      next g c hpub =>
        cases h
        exact publishAbove_base hpub

theorem installOrApply_base {r : Ring} {b : DiskBase} {log : Option DiskLog} {a : Applied}
    (h : installOrApply xxh3 r b log = .ok (some a)) :
    a.ring.served.base = r.served.base ∨ a.ring.served.base = b := by
  unfold installOrApply at h
  by_cases hgen : b.generation = r.served.base.generation
  · rw [if_pos hgen, FaultLib.bind_ok] at h
    obtain ⟨res, hres, h⟩ := h
    cases res with
    | some rp =>
      cases h
      exact .inl (applyLog_base hres)
    | none =>
      simp only at h
      split at h
      · cases h
      · cases h
        exact .inl rfl
  · rw [if_neg hgen, FaultLib.bind_ok] at h
    obtain ⟨built, hbuilt, h⟩ := h
    simp only at h
    split at h
    · cases h
    split at h
    next r' hinstall =>
      cases h
      refine .inr ?_
      rw [Ring.served_install hinstall]
      exact buildGeneration_base hbuilt
    next =>
      split at h
      · cases h
      split at h
      · cases h
        exact .inl rfl
      split at h
      · cases h
        exact .inl rfl
      · rw [FaultLib.bind_ok] at h
        obtain ⟨⟨g, c⟩, hpub, h⟩ := h
        cases h
        refine .inl ?_
        rw [Ring.served_serve]
        exact publishAbove_base hpub

/-! ## The invariant -/

/-- A handle serves a base that was in place, and the base its stamp names is no
    newer than its `disk_generation`. -/
structure KnowsGen (written : List DiskBase) (fresh : Nat) (h : Handle) : Prop where
  mem : h.served.base ∈ written
  stamped : ∀ st, h.seen.stamp = some st → st.base < fresh ∧
    ∀ b ∈ written, b.ident = st.base → b.generation ≤ h.diskGeneration

/-- The stamps and bases kept between two accesses. -/
def PhaseGen (written : List DiskBase) (fresh : Nat) : Phase → Prop
  | .based b => ∀ x, b = some x → x < fresh
  | .full now => ∀ st, now = some st → st.base < fresh
  | .mapped now b => b ∈ written ∧ ∀ st, now = some st → st.base < fresh ∧
      ∀ b' ∈ written, b'.ident = st.base → b'.generation ≤ b.generation
  | _ => True

/-- A handle caught up under the lock knows every generation. -/
def LockGen (written : List DiskBase) (h : Handle) : Phase → Prop
  | .synced | .appending .. | .compacting _ => ∀ b ∈ written, b.generation ≤ h.diskGeneration
  | .tail now => ∃ st, h.seen.stamp = some st ∧ st.base = now.base
  | _ => True

def PartyGen (s : Sys) (p : Nat) : Party → Prop
  | .out => True
  | .creating => s.base = none ∧ s.lock = .held (some p)
  | .opening phase => PhaseGen s.written s.fresh phase
  | .live h => (h.phase.isLocked → s.lock = .held (some p)) ∧ KnowsGen s.written s.fresh h ∧
      PhaseGen s.written s.fresh h.phase ∧ LockGen s.written h h.phase

structure GenInv (s : Sys) : Prop where
  bound : ∀ b ∈ s.written, b.ident < s.fresh
  ascending : s.written.Pairwise fun a b => a.generation < b.generation
  newest : ∀ b, s.base = some b → b ∈ s.written ∧ ∀ b' ∈ s.written, b'.generation ≤ b.generation
  unborn : s.base = none → s.written = []
  parties : ∀ p, PartyGen s p (s.parties p)

section mono
variable {written : List DiskBase} {fresh fresh' : Nat}

theorem KnowsGen.mono {h : Handle} (hk : KnowsGen written fresh h) (hle : fresh ≤ fresh') :
    KnowsGen written fresh' h :=
  ⟨hk.mem, fun st hst => ⟨(hk.stamped st hst).1.trans_le hle, (hk.stamped st hst).2⟩⟩

theorem PhaseGen.mono {phase : Phase} (hph : PhaseGen written fresh phase) (hle : fresh ≤ fresh') :
    PhaseGen written fresh' phase := by
  cases phase with
  | based b => exact fun x hx => (hph x hx).trans_le hle
  | full now => exact fun st hst => (hph st hst).trans_le hle
  | mapped now b => exact ⟨hph.1, fun st hst => ⟨(hph.2 st hst).1.trans_le hle, (hph.2 st hst).2⟩⟩
  | _ => trivial

/-- No stamp names a base that is new. -/
theorem KnowsGen.newBase {h : Handle} (hk : KnowsGen written fresh h) {b : DiskBase}
    (hid : b.ident = fresh) : KnowsGen (written ++ [b]) (fresh + 1) h := by
  refine ⟨List.mem_append_left _ hk.mem, ?_⟩
  intro st hst
  obtain ⟨hlt, hgens⟩ := hk.stamped st hst
  refine ⟨Nat.lt_succ_of_lt hlt, ?_⟩
  intro b' hb' hid'
  rcases List.mem_append.mp hb' with hb' | hb'
  · exact hgens b' hb' hid'
  · rw [List.mem_singleton.mp hb'] at hid'
    omega

theorem PhaseGen.newBase {phase : Phase} (hph : PhaseGen written fresh phase) {b : DiskBase}
    (hid : b.ident = fresh) : PhaseGen (written ++ [b]) (fresh + 1) phase := by
  cases phase with
  | based b => exact fun x hx => Nat.lt_succ_of_lt (hph x hx)
  | full now => exact fun st hst => Nat.lt_succ_of_lt (hph st hst)
  | mapped now b₁ =>
    refine ⟨List.mem_append_left _ hph.1, ?_⟩
    intro st hst
    obtain ⟨hlt, hgens⟩ := hph.2 st hst
    refine ⟨Nat.lt_succ_of_lt hlt, ?_⟩
    intro b' hb' hid'
    rcases List.mem_append.mp hb' with hb' | hb'
    · exact hgens b' hb' hid'
    · rw [List.mem_singleton.mp hb'] at hid'
      omega
  | _ => trivial

end mono

/-! ## Catching up -/

section reads
variable {written : List DiskBase} {fresh : Nat} {h h' : Handle}

theorem KnowsGen.adopt (hk : KnowsGen written fresh h) : KnowsGen written fresh h.adopt := by
  refine ⟨hk.mem, ?_⟩
  intro st hst
  obtain ⟨hlt, hgens⟩ := hk.stamped st hst
  exact ⟨hlt, fun b hb hid => (hgens b hb hid).trans (le_max_left _ _)⟩

theorem KnowsGen.withPhase (hk : KnowsGen written fresh h) (phase : Phase) :
    KnowsGen written fresh { h with phase := phase } :=
  ⟨hk.mem, hk.stamped⟩

/-- A tail read keeps the base of the stamp. -/
theorem KnowsGen.readTail (hk : KnowsGen written fresh h) {now st : Stamp} {log : Option DiskLog}
    (hst : h.seen.stamp = some st) (hbase : st.base = now.base)
    (hr : h.readTail xxh3 now log = .ok h') :
    KnowsGen written fresh h' ∧ h'.diskGeneration = h.diskGeneration ∧ h'.seen.stamp = some now := by
  unfold Handle.readTail at hr
  rw [FaultLib.bind_ok] at hr
  obtain ⟨⟨r, pos⟩, hread, hr⟩ := hr
  cases hr
  refine ⟨⟨?_, ?_⟩, rfl, rfl⟩
  · show r.served.base ∈ written
    rw [reloadWalTail_base hread]
    exact hk.mem
  · rintro st' ⟨⟩
    rw [← hbase]
    exact hk.stamped st hst

/-- A full read, of a base at least as new as the stamp's. -/
theorem KnowsGen.readFull (hk : KnowsGen written fresh h) {now : Option Stamp} {b : DiskBase}
    {log : Option DiskLog} (hm : PhaseGen written fresh (.mapped now b))
    (hr : h.readFull xxh3 now b log = .ok (some h')) :
    KnowsGen written fresh h'.adopt ∧ h'.seen.stamp = now ∧ h'.seen.baseGen = b.generation := by
  unfold Handle.readFull at hr
  rw [FaultLib.bind_ok] at hr
  obtain ⟨res, hread, hr⟩ := hr
  cases res with
  | none => cases hr
  | some a =>
    cases hr
    refine ⟨⟨?_, ?_⟩, rfl, rfl⟩
    · show a.ring.served.base ∈ written
      rcases installOrApply_base hread with hbase | hbase
      · rw [hbase]
        exact hk.mem
      · rw [hbase]
        exact hm.1
    · intro st hst
      obtain ⟨hlt, hgens⟩ := hm.2 st hst
      exact ⟨hlt, fun b' hb' hid => (hgens b' hb' hid).trans (le_max_right _ _)⟩

end reads

section inv
variable {s s' : Sys}

theorem GenInv.live (hI : GenInv s) {p : Nat} {h : Handle} (hp : s.parties p = .live h) :
    (h.phase.isLocked → s.lock = .held (some p)) ∧ KnowsGen s.written s.fresh h ∧
      PhaseGen s.written s.fresh h.phase ∧ LockGen s.written h h.phase := by
  have h' := hI.parties p
  rw [hp] at h'
  exact h'

/-- Party `p` moves, the base stays. -/
theorem GenInv.update (hI : GenInv s) {t : Sys} {p : Nat} {x : Party} (hbase : t.base = s.base)
    (hwritten : t.written = s.written) (hfresh : s.fresh ≤ t.fresh) (hparties : t.parties = s.parties)
    (hlock : ∀ q, q ≠ p → s.lock = .held (some q) → t.lock = .held (some q))
    (hx : PartyGen t p x) : GenInv (t.setParty p x) where
  bound := by
    intro b hb
    change b ∈ t.written at hb
    rw [hwritten] at hb
    exact (hI.bound b hb).trans_le hfresh
  ascending := by
    show t.written.Pairwise _
    rw [hwritten]
    exact hI.ascending
  newest := by
    show ∀ b, t.base = some b → b ∈ t.written ∧ ∀ b' ∈ t.written, b'.generation ≤ b.generation
    rw [hbase, hwritten]
    exact hI.newest
  unborn := by
    show t.base = none → t.written = []
    rw [hbase, hwritten]
    exact hI.unborn
  parties := by
    intro q
    by_cases hq : q = p
    · subst hq
      rw [setParty_self]
      exact hx
    · rw [setParty_ne _ _ hq, hparties]
      have hok := hI.parties q
      show PartyGen t q _
      cases hpq : s.parties q with
      | out => trivial
      | creating =>
        rw [hpq] at hok
        exact ⟨hbase.trans hok.1, hlock q hq hok.2⟩
      | opening phase =>
        rw [hpq] at hok
        show PhaseGen t.written t.fresh phase
        rw [hwritten]
        exact hok.mono hfresh
      | live h =>
        rw [hpq] at hok
        obtain ⟨hl, hk, hph, hlk⟩ := hok
        refine ⟨fun hloc => hlock q hq (hl hloc), ?_⟩
        rw [hwritten]
        exact ⟨hk.mono hfresh, hph.mono hfresh, hlk⟩

/-- Nothing but the parties moves, and of them only `p`. -/
theorem GenInv.setParty (hI : GenInv s) {p : Nat} {x : Party} (hx : PartyGen s p x) :
    GenInv (s.setParty p x) :=
  hI.update rfl rfl le_rfl rfl (fun _ _ h => h) hx

/-- One access of an `open`. -/
theorem GenInv.stepOpen (hI : GenInv s) {p : Nat} {phase : Phase} {x : Party}
    (hp : s.parties p = .opening phase) (hstep : s.stepOpen xxh3 phase = some x) :
    PartyGen s p x := by
  have hok := hI.parties p
  rw [hp] at hok
  unfold Sys.stepOpen at hstep
  cases phase with
  | based bi =>
    cases hstep
    intro st hst
    obtain ⟨i, hi, rfl⟩ := Option.map_eq_some_iff.mp hst
    exact hok i hi
  | full now =>
    simp only at hstep
    split at hstep
    next b hb =>
      cases hstep
      exact ⟨(hI.newest b hb).1, fun st hst => ⟨hok st hst, fun b' hb' _ => (hI.newest b hb).2 b' hb'⟩⟩
    next =>
      cases hstep
      trivial
  | mapped now b =>
    simp only at hstep
    split at hstep
    next =>
      cases hstep
      trivial
    next built hbuilt =>
      split at hstep
      · cases hstep
        exact fun st hst => (hok.2 st hst).1
      · cases hstep
        refine ⟨by simp [Phase.isLocked], ⟨?_, hok.2⟩, trivial, trivial⟩
        show built.gen.base ∈ s.written
        rw [buildGeneration_base hbuilt]
        exact hok.1
  | _ => cases hstep

/-- One access of a reload. -/
theorem GenInv.stepReload (hI : GenInv s) {p : Nat} {h h' : Handle} (hp : s.parties p = .live h)
    (hstep : s.stepReload xxh3 h h.phase = some h') : PartyGen s p (.live h') := by
  obtain ⟨-, hk, hph, hlk⟩ := hI.live hp
  have hidle : PartyGen s p (.live { h with phase := .idle }) :=
    ⟨by simp [Phase.isLocked], hk.withPhase _, trivial, trivial⟩
  unfold Sys.stepReload at hstep
  cases hphase : h.phase with
  | based bi =>
    -- the identity that was read is of a base already written
    rw [hphase] at hstep hph
    have hbelow : ∀ st, s.stampOn bi = some st → st.base < s.fresh := by
      intro st hst
      obtain ⟨i, hi, rfl⟩ := Option.map_eq_some_iff.mp hst
      exact hph i hi
    simp only at hstep
    cases hcaught : h.seen.caught (s.stampOn bi) with
    | nothing =>
      rw [hcaught] at hstep
      cases hstep
      exact hidle
    | tail =>
      obtain ⟨n, id, len, len', hn, hwal, hst, -⟩ := caught_tail hcaught
      rw [hcaught, hn] at hstep
      cases hstep
      exact ⟨by simp [Phase.isLocked], hk.withPhase _, trivial, _, hst, rfl⟩
    | full =>
      rw [hcaught] at hstep
      cases hstep
      exact ⟨by simp [Phase.isLocked], hk.withPhase _, hbelow, trivial⟩
  | tail now =>
    rw [hphase] at hstep hlk
    obtain ⟨st, hst, hbase⟩ := hlk
    simp only at hstep
    split at hstep
    next =>
      cases hstep
      exact hidle
    next h₁ hr =>
      cases hstep
      exact ⟨by simp [Phase.isLocked], (hk.readTail hst hbase hr).1.adopt.withPhase _, trivial, trivial⟩
  | full now =>
    rw [hphase] at hstep hph
    simp only at hstep
    split at hstep
    next b hb =>
      cases hstep
      exact ⟨by simp [Phase.isLocked], hk.withPhase _,
        ⟨(hI.newest b hb).1, fun st hst => ⟨hph st hst, fun b' hb' _ => (hI.newest b hb).2 b' hb'⟩⟩,
        trivial⟩
    next =>
      cases hstep
      exact hidle
  | mapped now b =>
    -- the base mapped is at least as new as any the metadata can be about
    rw [hphase] at hstep hph
    simp only at hstep
    split at hstep
    next =>
      cases hstep
      exact hidle
    next =>
      cases hstep
      exact ⟨by simp [Phase.isLocked], hk.withPhase _, fun st hst => (hph.2 st hst).1, trivial⟩
    next h₁ hr =>
      cases hstep
      exact ⟨by simp [Phase.isLocked], (hk.readFull hph hr).1.withPhase _, trivial, trivial⟩
  | _ =>
    rw [hphase] at hstep
    cases hstep

theorem stamp_base {st : Stamp} (h : s.stamp = some st) : ∃ b, s.base = some b ∧ b.ident = st.base := by
  obtain ⟨b, hb, rfl⟩ := Option.map_eq_some_iff.mp h
  exact ⟨b, hb, rfl⟩

/-- A successful catch-up under the lock: every generation is known. -/
theorem GenInv.catchUp (hI : GenInv s) {h h' : Handle} (hk : KnowsGen s.written s.fresh h)
    (hr : h.catchUp xxh3 s = .ok h') :
    KnowsGen s.written s.fresh h'.adopt ∧
      (∀ b ∈ s.written, b.generation ≤ h'.adopt.diskGeneration) ∧
      ∃ st, h'.seen.stamp = some st ∧ ∃ b, s.base = some b ∧ b.ident = st.base := by
  -- knowing the base on disk is knowing all of them
  have hall : ∀ {b d}, s.base = some b → b.generation ≤ d → ∀ b' ∈ s.written, b'.generation ≤ d :=
    fun hb hd b' hb' => ((hI.newest _ hb).2 b' hb').trans hd
  unfold Handle.catchUp at hr
  cases hcaught : h.seen.caught s.stamp with
  | nothing =>
    rw [hcaught] at hr
    cases hr
    obtain ⟨hst, hsome⟩ := caught_nothing hcaught
    obtain ⟨st, hnow⟩ := Option.isSome_iff_exists.mp hsome
    rw [hnow] at hst
    obtain ⟨b, hb, hid⟩ := stamp_base hnow
    have hgen := (hk.adopt.stamped st hst).2 b (hI.newest b hb).1 hid
    exact ⟨hk.adopt, hall hb hgen, st, hst, b, hb, hid⟩
  | tail =>
    obtain ⟨n, id, len, len', hn, hwal, hst, -⟩ := caught_tail hcaught
    rw [hcaught, hn] at hr
    have hread : h.readTail xxh3 n s.log = .ok h' := hr
    obtain ⟨hk', -, hst'⟩ := hk.readTail hst (by rfl) hread
    obtain ⟨b, hb, hid⟩ := stamp_base hn
    have hgen := (hk'.adopt.stamped n hst').2 b (hI.newest b hb).1 hid
    exact ⟨hk'.adopt, hall hb hgen, n, hst', b, hb, hid⟩
  | full =>
    rw [hcaught] at hr
    cases hb : s.base with
    | none =>
      rw [hb] at hr
      cases hr
    | some b =>
      rw [hb] at hr
      simp only [FaultLib.bind_ok] at hr
      obtain ⟨res, hread, hr⟩ := hr
      cases res with
      | none => cases hr
      | some h₁ =>
        cases hr
        have hstamp : s.stamp = some ⟨b.ident, s.log.map DiskLog.stamp⟩ := by
          rw [Sys.stamp, hb]
          rfl
        have hm : PhaseGen s.written s.fresh (.mapped s.stamp b) := by
          refine ⟨(hI.newest b hb).1, ?_⟩
          intro st hst
          rw [hstamp] at hst
          cases hst
          exact ⟨hI.bound b (hI.newest b hb).1, fun b' hb' _ => (hI.newest b hb).2 b' hb'⟩
        obtain ⟨hk', hst', hgen⟩ := hk.readFull hm hread
        refine ⟨hk', hall hb ?_, _, hst'.trans hstamp, b, rfl, rfl⟩
        rw [← hgen]
        exact le_max_right _ _

/-- What `repair` leaves alone. -/
theorem repair_keeps (s : Sys) (h : Handle) :
    (s.repair h).1.base = s.base ∧ (s.repair h).1.written = s.written ∧
      s.fresh ≤ (s.repair h).1.fresh ∧ (s.repair h).1.lock = s.lock ∧
      (s.repair h).2.ring = h.ring ∧ (s.repair h).2.diskGeneration = h.diskGeneration ∧
      (s.repair h).2.seen.baseGen = h.seen.baseGen ∧
      ∀ st, (s.repair h).2.seen.stamp = some st →
        (∃ b, s.base = some b ∧ b.ident = st.base) ∨
          ∃ st', h.seen.stamp = some st' ∧ st'.base = st.base := by
  unfold Sys.repair
  by_cases hcur : h.seen.logCurrent = true
  · rw [if_neg (not_not.mpr hcur)]
    split
    next b ident len hst =>
      split_ifs
      · refine ⟨rfl, rfl, le_rfl, rfl, rfl, rfl, rfl, ?_⟩
        rintro st ⟨⟩
        exact .inr ⟨_, hst, rfl⟩
      · exact ⟨rfl, rfl, le_rfl, rfl, rfl, rfl, rfl, fun st hst' => .inr ⟨st, hst', rfl⟩⟩
    · exact ⟨rfl, rfl, le_rfl, rfl, rfl, rfl, rfl, fun st hst' => .inr ⟨st, hst', rfl⟩⟩
  · rw [if_pos hcur]
    refine ⟨rfl, rfl, Nat.le_succ _, rfl, rfl, rfl, rfl, ?_⟩
    intro st hst
    obtain ⟨b, hb, hid⟩ := stamp_base hst
    exact .inl ⟨b, hb, hid⟩

/-- A locked `sync`. -/
theorem GenInv.stepSync (hI : GenInv s) {p : Nat} {h : Handle} (hp : s.parties p = .live h)
    (hphase : h.phase = .locked) :
    GenInv ((s.stepSync xxh3 h).1.setParty p (.live (s.stepSync xxh3 h).2)) := by
  obtain ⟨hl, hk, -, -⟩ := hI.live hp
  have hlock := hl (by rw [hphase]; rfl)
  have hparties := stepSync_parties xxh3 s h
  unfold Sys.stepSync at hparties ⊢
  cases hr : h.catchUp xxh3 s with
  | error e => exact hI.setParty ⟨fun _ => hlock, hk.withPhase _, trivial, trivial⟩
  | ok h' =>
    rw [hr] at hparties
    obtain ⟨hk', hall, st, hst, b, hb, hid⟩ := hI.catchUp hk hr
    obtain ⟨hbase, hwritten, hfresh, hlk, hring, hdisk, hgen, hstamp⟩ := repair_keeps s h'
    have hsame : (s.repair h').2.adopt.diskGeneration = h'.adopt.diskGeneration := by
      show max (s.repair h').2.diskGeneration (s.repair h').2.seen.baseGen = _
      rw [hdisk, hgen]
      rfl
    refine hI.update hbase hwritten hfresh hparties (fun q _ hq => hlk.trans hq) ?_
    refine ⟨fun _ => hlk.trans hlock, ⟨?_, ?_⟩, trivial, ?_⟩
    · show (s.repair h').2.ring.served.base ∈ (s.repair h').1.written
      rw [hring, hwritten]
      exact hk'.mem
    · -- its stamp names the base on disk
      intro st' hst'
      have hbound : b.ident = st'.base := by
        rcases hstamp st' hst' with ⟨b', hb', hid'⟩ | ⟨st₁, hst₁, hbase₁⟩
        · rw [hb] at hb'
          cases hb'
          exact hid'
        · rw [hst] at hst₁
          cases hst₁
          rw [hid, hbase₁]
      refine ⟨?_, ?_⟩
      · rw [← hbound]
        exact (hI.bound b (hI.newest b hb).1).trans_le hfresh
      · intro b' hb' _
        rw [hwritten] at hb'
        show b'.generation ≤ (s.repair h').2.adopt.diskGeneration
        rw [hsame]
        exact hall b' hb'
    · intro b' hb'
      rw [hwritten] at hb'
      show b'.generation ≤ (s.repair h').2.adopt.diskGeneration
      rw [hsame]
      exact hall b' hb'

/-- A base numbered above all of them is renamed into place. -/
theorem GenInv.newBase (hI : GenInv s) {t : Sys} {p : Nat} {x : Party} {b : DiskBase}
    (hid : b.ident = s.fresh) (hgen : ∀ b' ∈ s.written, b'.generation < b.generation)
    (hbase : t.base = some b) (hwritten : t.written = s.written ++ [b])
    (hfresh : t.fresh = s.fresh + 1) (hparties : t.parties = s.parties)
    (hlock : s.lock = .held (some p)) (hx : PartyGen t p x) : GenInv (t.setParty p x) where
  bound := by
    show ∀ b' ∈ t.written, b'.ident < t.fresh
    rw [hwritten, hfresh]
    intro b' hb'
    rcases List.mem_append.mp hb' with hb' | hb'
    · exact Nat.lt_succ_of_lt (hI.bound b' hb')
    · rw [List.mem_singleton.mp hb', hid]
      exact Nat.lt_succ_self _
  ascending := by
    show t.written.Pairwise _
    rw [hwritten, List.pairwise_append]
    refine ⟨hI.ascending, List.pairwise_singleton _ _, ?_⟩
    intro b' hb' b₁ hb₁
    rw [List.mem_singleton.mp hb₁]
    exact hgen b' hb'
  newest := by
    show ∀ b₁, t.base = some b₁ → b₁ ∈ t.written ∧ ∀ b' ∈ t.written, b'.generation ≤ b₁.generation
    rw [hbase, hwritten]
    rintro b₁ ⟨⟩
    refine ⟨List.mem_append_right _ (List.mem_singleton.mpr rfl), ?_⟩
    intro b' hb'
    rcases List.mem_append.mp hb' with hb' | hb'
    · exact (hgen b' hb').le
    · rw [List.mem_singleton.mp hb']
  unborn := by
    intro h
    change t.base = none at h
    rw [hbase] at h
    cases h
  parties := by
    intro q
    by_cases hq : q = p
    · subst hq
      rw [setParty_self]
      exact hx
    · rw [setParty_ne _ _ hq, hparties]
      -- nobody else is under the lock
      have hother : s.lock ≠ .held (some q) := by
        rw [hlock]
        rintro ⟨⟩
        exact hq rfl
      have hok := hI.parties q
      show PartyGen t q _
      cases hpq : s.parties q with
      | out => trivial
      | creating =>
        rw [hpq] at hok
        exact absurd hok.2 hother
      | opening phase =>
        rw [hpq] at hok
        show PhaseGen t.written t.fresh phase
        rw [hwritten, hfresh]
        exact hok.newBase hid
      | live h =>
        rw [hpq] at hok
        obtain ⟨hl, hk, hph, hlk⟩ := hok
        refine ⟨fun hloc => absurd (hl hloc) hother, ?_⟩
        rw [hwritten, hfresh]
        refine ⟨hk.newBase hid, hph.newBase hid, ?_⟩
        cases hphase : h.phase with
        | tail now =>
          rw [hphase] at hlk
          exact hlk
        | synced => exact absurd (hl (by rw [hphase]; rfl)) hother
        | appending r n origin undo => exact absurd (hl (by rw [hphase]; rfl)) hother
        | compacting applied => exact absurd (hl (by rw [hphase]; rfl)) hother
        | _ => trivial

/-- A handle's step. -/
theorem GenInv.act (hI : GenInv s) {p : Nat} {h : Handle} {a : Act} (hp : s.parties p = .live h)
    (hstep : s.act xxh3 p h a = some s') : GenInv s' := by
  obtain ⟨hl, hk, hph, hlk⟩ := hI.live hp
  have hlock : h.phase.isLocked = true → ∀ q, q ≠ p → s.lock = .held (some q) → False := by
    intro hloc q hq heq
    rw [hl hloc] at heq
    cases heq
    exact hq rfl
  -- a handle that keeps its ring's base, its stamp and its generation
  have hplain : ∀ (t : Sys) (h' : Handle), t.base = s.base → t.written = s.written →
      t.fresh = s.fresh → t.parties = s.parties →
      (∀ q, q ≠ p → s.lock = .held (some q) → t.lock = .held (some q)) →
      (h'.phase.isLocked → t.lock = .held (some p)) → h'.served.base = h.served.base →
      (∀ st, h'.seen.stamp = some st → ∃ st', h.seen.stamp = some st' ∧ st'.base = st.base) →
      h'.diskGeneration = h.diskGeneration → PhaseGen s.written s.fresh h'.phase →
      LockGen s.written h' h'.phase → GenInv (t.setParty p (.live h')) := by
    intro t h' hbase hwritten hfresh hparties hkeep hloc hserved hstamp hdisk hph' hlk'
    refine hI.update hbase hwritten hfresh.ge hparties hkeep ⟨hloc, ?_⟩
    rw [hwritten, hfresh]
    refine ⟨⟨by rw [hserved]; exact hk.mem, ?_⟩, hph', hlk'⟩
    intro st hst
    obtain ⟨st', hst', hbase'⟩ := hstamp st hst
    rw [hdisk, ← hbase']
    exact hk.stamped st' hst'
  have hsame : ∀ st, h.seen.stamp = some st →
      ∃ st', h.seen.stamp = some st' ∧ st'.base = st.base := fun st hst => ⟨st, hst, rfl⟩
  have hreload : ((s.stepReload xxh3 h h.phase).map fun h' => s.setParty p (.live h')) = some s' →
      GenInv s' := by
    intro hr
    obtain ⟨h', hh', rfl⟩ := Option.map_eq_some_iff.mp hr
    exact hI.setParty (hI.stepReload hp hh')
  have hring : ∀ ring : Ring, ring.served = h.ring.served →
      GenInv (s.setParty p (.live { h with ring := ring })) := by
    intro ring hserved
    refine hplain s _ rfl rfl rfl rfl (fun _ _ h => h) hl (congrArg Gen.base hserved) hsame rfl hph ?_
    cases hphase : h.phase <;> rw [hphase] at hlk <;> exact hlk
  cases a <;> simp only [Sys.act] at hstep <;> try cases hstep
  case pin q => exact hring _ (Ring.served_pin h.ring)
  case unpin q i => exact hring _ (Ring.served_unpin h.ring i)
  case reload q =>
    split at hstep
    next =>
      cases hstep
      refine hplain s _ rfl rfl rfl rfl (fun _ _ h => h) (by simp [Phase.isLocked]) rfl hsame rfl ?_
        trivial
      intro x hx
      obtain ⟨b, hb, rfl⟩ := Option.map_eq_some_iff.mp hx
      exact hI.bound b (hI.newest b hb).1
    next => cases hstep
  case reloadStat q =>
    split at hstep
    next => exact hreload hstep
    next => cases hstep
  case reloadTail q =>
    split at hstep
    next => exact hreload hstep
    next => cases hstep
  case reloadMap q =>
    split at hstep
    next => exact hreload hstep
    next => cases hstep
  case reloadRead q =>
    split at hstep
    next => exact hreload hstep
    next => cases hstep
  case giveUp q =>
    split at hstep
    next =>
      cases hstep
      exact hplain s _ rfl rfl rfl rfl (fun _ _ h => h) (by simp [Phase.isLocked]) rfl hsame rfl
        trivial trivial
    next => cases hstep
  case stage q ops =>
    split at hstep
    next hphase =>
      cases hstep
      exact hplain s _ rfl rfl rfl rfl (fun _ _ h => h) hl rfl hsame rfl hph (by simp [hphase, LockGen])
    next => cases hstep
  case discard q =>
    split at hstep
    next hphase =>
      cases hstep
      exact hplain s _ rfl rfl rfl rfl (fun _ _ h => h) hl rfl hsame rfl hph (by simp [hphase, LockGen])
    next => cases hstep
  case acquire q =>
    split at hstep
    next _ hfree =>
      cases hstep
      exact hplain _ _ rfl rfl rfl rfl (by simp [hfree]) (fun _ => rfl) rfl hsame rfl trivial trivial
    next => cases hstep
  case resume q =>
    split at hstep
    next _ hfree =>
      cases hstep
      exact hplain _ _ rfl rfl rfl rfl (by simp [hfree]) (fun _ => rfl) rfl hsame rfl trivial trivial
    next => cases hstep
  case sync q =>
    split at hstep
    next hphase =>
      cases hstep
      exact hI.stepSync hp hphase
    next => cases hstep
  case commit q =>
    split at hstep
    next hphase =>
      rw [hphase] at hlk
      have hheld := hl (by rw [hphase]; rfl)
      split at hstep
      next h' hstart =>
        cases hstep
        obtain ⟨r, l, -, rfl⟩ := startAppend_cases hstart
        exact hplain s _ rfl rfl rfl rfl (fun _ _ h => h) (fun _ => hheld) rfl hsame rfl trivial hlk
      next =>
        cases hstep
        exact hplain s _ rfl rfl rfl rfl (fun _ _ h => h) (fun _ => hheld) rfl hsame rfl trivial trivial
    next => cases hstep
  case transact q f =>
    split at hstep
    next hphase =>
      rw [hphase] at hlk
      have hheld := hl (by rw [hphase]; rfl)
      split at hstep
      next h' hstart =>
        cases hstep
        obtain ⟨ops, -, hstart⟩ := Option.bind_eq_some_iff.mp hstart
        obtain ⟨r, l, -, rfl⟩ := startAppend_cases hstart
        exact hplain s _ rfl rfl rfl rfl (fun _ _ h => h) (fun _ => hheld) rfl hsame rfl trivial hlk
      next =>
        cases hstep
        exact hplain s _ rfl rfl rfl rfl (fun _ _ h => h) (fun _ => hheld) rfl hsame rfl trivial trivial
    next => cases hstep
  case write q n =>
    split at hstep
    next r k origin undo hphase =>
      rw [hphase] at hlk
      have hheld := hl (by rw [hphase]; rfl)
      split_ifs at hstep
      cases hstep
      unfold Sys.stepWrite
      split_ifs
      · exact hplain _ _ rfl rfl rfl rfl (fun _ _ h => h) (fun _ => hheld) rfl hsame rfl trivial hlk
      · exact hplain _ _ rfl rfl rfl rfl (fun _ _ h => h) (fun _ => hheld) rfl hsame rfl trivial hlk
    next => cases hstep
  case complete q =>
    split at hstep
    next r k origin undo hphase =>
      rw [hphase] at hlk
      have hheld := hl (by rw [hphase]; rfl)
      split_ifs at hstep
      cases hstep
      refine hplain _ _ rfl rfl rfl rfl (fun _ _ h => h) (fun _ => hheld) ?_ ?_ rfl trivial hlk
      · show (h.ring.serve _).served.base = _
        rw [Ring.served_serve]
        rfl
      · intro st hst
        obtain ⟨st', hst', rfl⟩ := Option.map_eq_some_iff.mp hst
        exact ⟨st', hst', rfl⟩
    next => cases hstep
  case fail q =>
    split at hstep
    next r k origin undo hphase =>
      have hheld := hl (by rw [hphase]; rfl)
      cases hstep
      unfold Sys.stepFail
      split_ifs
      all_goals
        refine hplain _ _ rfl rfl rfl rfl (fun _ _ h => h) (fun _ => hheld) rfl ?_ rfl trivial trivial
        rintro st ⟨⟩
    next => cases hstep
  case compactBase q =>
    split at hstep
    next hphase =>
      rw [hphase] at hlk
      have hheld := hl (by rw [hphase]; rfl)
      cases hstep
      unfold Sys.stepCompactBase
      have hgen : ∀ b' ∈ s.written,
          b'.generation < max h.served.base.generation h.diskGeneration + 1 := by
        intro b' hb'
        have := hlk b' hb'
        omega
      refine hI.newBase rfl hgen rfl rfl rfl rfl hheld ⟨fun _ => hheld, ?_, trivial, ?_⟩
      · have hk' := hk.newBase (b := ⟨s.fresh, max h.served.base.generation h.diskGeneration + 1,
          h.nextSeq - 1, h.served.base.folded ++ [h.served.log]⟩) rfl
        refine ⟨hk'.mem, ?_⟩
        intro st hst
        refine ⟨(hk'.stamped st hst).1, ?_⟩
        intro b' hb' hid
        have := (hk'.stamped st hst).2 b' hb' hid
        show b'.generation ≤ max h.served.base.generation h.diskGeneration + 1
        omega
      · intro b' hb'
        show b'.generation ≤ max h.served.base.generation h.diskGeneration + 1
        rcases List.mem_append.mp hb' with hb' | hb'
        · exact (hgen b' hb').le
        · rw [List.mem_singleton.mp hb']
    next => cases hstep
  case compactLog q =>
    split at hstep
    next applied b hphase hb =>
      rw [hphase] at hlk
      have hheld := hl (by rw [hphase]; rfl)
      cases hstep
      unfold Sys.stepCompactLog
      split
      · refine hI.update rfl rfl (Nat.le_succ _) rfl (fun _ _ h => h)
          ⟨fun _ => hheld, ⟨hk.mem, ?_⟩, trivial, trivial⟩
        rintro st ⟨⟩
      next ring hinstall =>
        refine hI.update rfl rfl (Nat.le_succ _) rfl (fun _ _ h => h)
          ⟨fun _ => hheld, ⟨?_, ?_⟩, trivial, trivial⟩
        · show ring.served.base ∈ s.written
          rw [Ring.served_install hinstall]
          exact (hI.newest b hb).1
        · intro st hst
          obtain ⟨b', hb', hid⟩ := stamp_base hst
          refine ⟨?_, fun b₁ hb₁ _ => hlk b₁ hb₁⟩
          rw [← hid]
          exact Nat.lt_succ_of_lt (hI.bound b' (hI.newest b' hb').1)
    next => cases hstep
  case release q =>
    split at hstep
    all_goals first
      | cases hstep
        exact hplain _ _ rfl rfl rfl rfl
          (fun q hq heq => absurd heq (hlock (by simp [*, Phase.isLocked]) q hq))
          (by simp [Phase.isLocked]) rfl hsame rfl trivial trivial
      | cases hstep
  case park q =>
    split at hstep
    all_goals first
      | cases hstep
        exact hplain _ _ rfl rfl rfl rfl
          (fun q hq heq => absurd heq (hlock (by simp [*, Phase.isLocked]) q hq))
          (by simp [Phase.isLocked]) rfl hsame rfl trivial trivial
      | cases hstep

theorem GenInv.step (hI : GenInv s) {a : Act} (hstep : s.step xxh3 a = some s') : GenInv s' := by
  have hopen : ∀ p phase, s.parties p = .opening phase →
      (s.stepOpen xxh3 phase).map (s.setParty p) = some s' → GenInv s' := by
    intro p phase hp hr
    obtain ⟨x, hx, rfl⟩ := Option.map_eq_some_iff.mp hr
    exact hI.setParty (hI.stepOpen hp hx)
  cases a with
  | create p =>
    simp only [Sys.step] at hstep
    split at hstep
    next hp hlock hbase =>
      cases hstep
      exact hI.update rfl rfl le_rfl rfl (by simp [hlock]) ⟨hbase, rfl⟩
    next => cases hstep
  | layLog p =>
    simp only [Sys.step] at hstep
    split at hstep
    next hp _ =>
      cases hstep
      have hself : ({ s with log := some ⟨s.fresh, 1, []⟩, fresh := s.fresh + 1 } : Sys).setParty p
          .creating = { s with log := some ⟨s.fresh, 1, []⟩, fresh := s.fresh + 1 } := by
        unfold Sys.setParty
        rw [← hp, Function.update_eq_self]
      rw [← hself]
      have hok := hI.parties p
      rw [hp] at hok
      exact hI.update rfl rfl (Nat.le_succ _) rfl (fun _ _ h => h) hok
    next => cases hstep
  | layBase p =>
    simp only [Sys.step] at hstep
    split at hstep
    next hp _ =>
      cases hstep
      have hok := hI.parties p
      rw [hp] at hok
      refine hI.newBase rfl ?_ rfl rfl rfl rfl hok.2 trivial
      -- it is the first
      rw [hI.unborn hok.1]
      intro b' hb'
      cases hb'
    next => cases hstep
  | openBase p =>
    simp only [Sys.step] at hstep
    split at hstep
    next =>
      cases hstep
      refine hI.setParty ?_
      intro x hx
      obtain ⟨b, hb, rfl⟩ := Option.map_eq_some_iff.mp hx
      exact hI.bound b (hI.newest b hb).1
    next => cases hstep
  | openLog p =>
    simp only [Sys.step] at hstep
    split at hstep
    next hp => exact hopen p _ hp hstep
    next => cases hstep
  | openMap p =>
    simp only [Sys.step] at hstep
    split at hstep
    next hp => exact hopen p _ hp hstep
    next => cases hstep
  | openRead p =>
    simp only [Sys.step] at hstep
    split at hstep
    next hp => exact hopen p _ hp hstep
    next => cases hstep
  | dropLock =>
    simp only [Sys.step] at hstep
    split_ifs at hstep with hlock
    cases hstep
    refine ⟨hI.bound, hI.ascending, hI.newest, hI.unborn, ?_⟩
    intro q
    have hok := hI.parties q
    show PartyGen _ q (s.parties q)
    cases hpq : s.parties q with
    | out => trivial
    | creating =>
      rw [hpq] at hok
      have := hok.2
      rw [hlock] at this
      cases this
    | opening phase =>
      rw [hpq] at hok
      exact hok
    | live h =>
      rw [hpq] at hok
      refine ⟨?_, hok.2⟩
      intro hloc
      have := hok.1 hloc
      rw [hlock] at this
      cases this
  | crash p =>
    simp only [Sys.step] at hstep
    cases hstep
    refine hI.update rfl rfl le_rfl rfl ?_ trivial
    intro q hq hlock
    rw [hlock, if_neg]
    rintro ⟨⟩
    exact hq rfl
  | _ =>
    simp only [Sys.step, Sys.party] at hstep
    split at hstep
    next h hp => exact hI.act hp hstep
    next => cases hstep

end inv

/-! ## Runs -/

theorem genInv_init : GenInv Sys.init where
  bound := by rintro b ⟨⟩
  ascending := List.Pairwise.nil
  newest := by rintro b ⟨⟩
  unborn := fun _ => rfl
  parties := fun _ => trivial

/-- In every run, whatever fails, crashes or is pinned: each base renamed into
    place is numbered above all before it; and a handle that serves the number
    of the base on disk serves that base, the one a rebuild would put under the
    log. -/
theorem generations_never_reused {s : Sys} {as : List Act}
    (hrun : Run (Sys.step xxh3) (fun _ _ => True) Sys.init as s) :
    (s.written.Pairwise fun a b => a.generation < b.generation) ∧
      ∀ p h b, s.parties p = .live h → s.base = some b →
        h.served.base.generation = b.generation → h.served.base = b ∧
          ∀ built, buildGeneration xxh3 b s.log = .ok built → built.gen.base = h.served.base := by
  have hI : GenInv s := hrun.invariant genInv_init fun _ _ _ hI _ hstep => hI.step hstep
  refine ⟨hI.ascending, ?_⟩
  intro p h b hp hb hgen
  have heq := unique_of_ascending hI.ascending (hI.live hp).2.1.mem (hI.newest b hb).1 hgen
  refine ⟨heq, ?_⟩
  intro built hbuilt
  rw [buildGeneration_base hbuilt, heq]

/-- Handle 2 dies between its two renames, handle 1 compacts, and handle 0, with
    three generations pinned, compacts and is refused. -/
def renameRun : List Act :=
  threeHandles ++ [.acquire 2, .sync 2, .compactBase 2, .crash 2] ++ compactActs 1 ++
    [.pin 0] ++ compactActs 0 ++ [.pin 0] ++ compactActs 0 ++ [.pin 0] ++ compactActs 0 ++ [.pin 0] ++
    compactActs 0 ++ commitActs 1 [removeOp 1] 48

theorem generations_never_reused_renameRun :
    ∃ s, run (Sys.step zeroSum) Sys.init renameRun = some s ∧
      s.written.map DiskBase.generation = [1, 2, 3, 4, 5, 6, 7] ∧
      ∀ p h b, s.parties p = .live h → s.base = some b →
        h.served.base.generation = b.generation → h.served.base = b := by
  have hrun : (checkedRun (Sys.step zeroSum) (fun _ _ => true) Sys.init renameRun).any (fun s =>
      s.written.map DiskBase.generation = [1, 2, 3, 4, 5, 6, 7]) = true := by decide +kernel
  obtain ⟨s, hs, hgens⟩ := Option.any_eq_true _ _ |>.mp hrun
  have h : Run (Sys.step zeroSum) (fun _ _ => True) Sys.init renameRun s :=
    Run.of_checkedRun (fun _ _ _ => trivial) hs
  exact ⟨s, h.run_eq, by simpa using hgens, fun p h₀ b hp hb hgen =>
    ((generations_never_reused h).2 p h₀ b hp hb hgen).1⟩

end GraphR.Multi
