import GraphR.Multi.Effect
import GraphR.Multi.Locked

/-! # Every run keeps the invariant

    A step is regular when it stays out of three windows of the protocol:

    - a locked `sync` trusts a stamp that is unchanged. The stamp of the log is
      its identity and length, so a log cut back and appended to again can be of
      the stamp's length with other bytes behind the consumed offset;
    - a lock-free tail read opens the log by name, after the `stat` that chose
      the tail: a compaction between the two puts another file there;
    - a failed append is cut back by a handle that cannot know who has read it.

    Every regular step keeps the invariant and no handle's last served number
    falls. -/

namespace GraphR.Multi

open Wal ByteLib RunLib

section regular
variable (xxh3 : Bytes → UInt64)

/-- The step stays out of the protocol's windows. -/
def Regular (s : Sys) : Act → Prop
  | .sync p => ∀ h, s.parties p = .live h → h.phase = .locked → NothingUnread xxh3 s h
  | .reloadTail p => ∀ h now, s.parties p = .live h → h.phase = .tail now →
      now.wal.map Prod.fst = s.log.map DiskLog.ident
  | .fail p => ∀ h r origin undo, s.parties p = .live h → h.phase = .appending r r.len origin undo →
      ∀ q, q ≠ p → ∀ h', s.parties q = .live h' → h'.served.servedSeq < r.firstSeq.toNat
  | _ => True

end regular

/-- No handle's last served number falls. -/
def ServedGrows (s s' : Sys) : Prop :=
  ∀ p h h', s.parties p = .live h → s'.parties p = .live h' →
    h.served.servedSeq ≤ h'.served.servedSeq

theorem ServedGrows.of_party {s s' : Sys} (p : Nat)
    (hothers : ∀ q, q ≠ p → s'.parties q = s.parties q)
    (hself : ∀ h h', s.parties p = .live h → s'.parties p = .live h' →
      h.served.servedSeq ≤ h'.served.servedSeq) : ServedGrows s s' := by
  intro q h h' hq hq'
  by_cases hqp : q = p
  · subst hqp
    exact hself h h' hq hq'
  · rw [hothers q hqp, hq] at hq'
    cases hq'
    exact le_rfl

theorem ServedGrows.setParty {s t : Sys} {p : Nat} {h h' : Handle} (hp : s.parties p = .live h)
    (ht : t.parties = s.parties) (hle : h.served.servedSeq ≤ h'.served.servedSeq) :
    ServedGrows s (t.setParty p (.live h')) := by
  refine .of_party p ?_ ?_
  · intro q hq
    rw [setParty_ne _ _ hq, ht]
  · intro h₁ h₂ h1 h2
    rw [hp] at h1
    rw [setParty_self] at h2
    cases h1
    cases h2
    exact hle

/-- A party that is no handle afterwards. -/
theorem ServedGrows.gone {s t : Sys} {p : Nat} {x : Party} (ht : t.parties = s.parties)
    (hx : ∀ h, x ≠ .live h) : ServedGrows s (t.setParty p x) := by
  refine .of_party p ?_ ?_
  · intro q hq
    rw [setParty_ne _ _ hq, ht]
  · intro _ h₂ _ h2
    rw [setParty_self] at h2
    exact absurd h2 (hx h₂)

/-- A party that was no handle before. -/
theorem ServedGrows.fresh {s t : Sys} {p : Nat} {x : Party} (ht : t.parties = s.parties)
    (hx : ∀ h, s.parties p ≠ .live h) : ServedGrows s (t.setParty p x) := by
  refine .of_party p ?_ ?_
  · intro q hq
    rw [setParty_ne _ _ hq, ht]
  · intro h₁ _ h1 _
    exact absurd h1 (hx h₁)

/-! ## Before the store exists -/

/-- The first base is laid down: the store exists, with nothing in it. -/
theorem Unborn.layBase {xxh3 : Bytes → UInt64} {s : Sys} (hU : Unborn s) {p : Nat} {l : DiskLog}
    (hp : s.parties p = .creating) (hl : s.log = some l) :
    Born xxh3 ({ s with base := some ⟨s.fresh, 1, 0, []⟩, fresh := s.fresh + 1, lock := .free
                        written := s.written ++ [(⟨s.fresh, 1, 0, []⟩ : DiskBase)] }.setParty p .out)
      (fun _ => 0) ⟨s.fresh, 1, 0, []⟩ l := by
  -- the log is laid down before the base, with no record in it
  obtain ⟨hgen, hframes, hfresh⟩ := hU.log l hl
  have hlock : s.lock = .held (some p) := by
    rcases hU.parties p with h | ⟨-, h⟩ | h | h
    · rw [h] at hp; cases hp
    · exact h
    · rw [h] at hp; cases hp
    · rw [h] at hp; cases hp
  refine
    { base := rfl
      log := hl
      disk := ?_
      serial := ?_
      acked := ?_
      parties := ?_ }
  · have hw : ∀ b, b ∈ s.written ++ [(⟨s.fresh, 1, 0, []⟩ : DiskBase)] →
        b = ⟨s.fresh, 1, 0, []⟩ := by
      intro b hb
      rw [hU.written] at hb
      simpa using hb
    exact
      { rising := by
          show Rising s.hist
          rw [hU.hist]
          exact List.isChain_nil
        mem := List.mem_append_right _ (List.mem_singleton.mpr rfl)
        newest := by
          intro b hb
          rw [hw b hb]
          exact le_rfl
        ascending := by
          show (s.written ++ [_]).Pairwise _
          rw [hU.written]
          exact List.pairwise_singleton _ _
        folds := by
          intro b hb
          rw [hw b hb]
          exact ⟨Nat.zero_le _, rfl, rfl⟩
        fold_le := fun _ _ => le_rfl
        base_fresh := Nat.lt_succ_self _
        log_fresh := Nat.lt_succ_of_lt hfresh
        log_le := hgen.le
        behind := by
          intro b hb _
          exact hw b hb
        folded_all := by
          intro hlt
          change l.generation < 1 at hlt
          omega
        start_le := Nat.zero_le _
        frames := by
          refine ⟨[], torn_nil xxh3, ?_⟩
          show l.frames = bytesOf xxh3 (s.hist.drop 0) ++ []
          rw [hframes, hU.hist]
          rfl
        room := by
          show (opsOf (s.hist.drop 0)).length ≤ _
          rw [hU.hist]
          exact Nat.zero_le _ }
  · show Serial s.origins s.hist
    rw [hU.origins, hU.hist]
    exact .nil
  · show s.acked.Sublist s.hist
    rw [hU.acked]
    exact List.nil_sublist _
  · intro q
    by_cases hq : q = p
    · subst hq
      rw [setParty_self]
      trivial
    · rw [setParty_ne _ _ hq]
      rcases hU.parties q with h | ⟨-, h⟩ | h | h
      · show PartyOk _ _ _ _ q (s.parties q)
        rw [h]
        trivial
      · -- only one party creates
        rw [hlock] at h
        cases h
        exact absurd rfl hq
      · show PartyOk _ _ _ _ q (s.parties q)
        rw [h]
        rintro x ⟨⟩
      · show PartyOk _ _ _ _ q (s.parties q)
        rw [h]
        rintro x ⟨⟩

/-- One step of a party that is not a handle. -/
theorem Unborn.setParty {s : Sys} (hU : Unborn s) {p : Nat} {x : Party}
    (hx : x = .out ∨ (x = .creating ∧ s.lock = .held (some p)) ∨
      x = .opening (.based none) ∨ x = .opening (.full none)) : Unborn (s.setParty p x) where
  base := hU.base
  log := hU.log
  hist := hU.hist
  origins := hU.origins
  acked := hU.acked
  written := hU.written
  parties := by
    intro q
    by_cases hq : q = p
    · subst hq
      rw [setParty_self]
      exact hx
    · rw [setParty_ne _ _ hq]
      exact hU.parties q

/-- The lock moves; nobody who is creating loses it. -/
theorem Unborn.setLock {s : Sys} (hU : Unborn s) (lock : Lock)
    (hkeep : ∀ q, s.parties q = .creating → s.lock = .held (some q) → lock = .held (some q)) :
    Unborn { s with lock := lock } where
  base := hU.base
  log := hU.log
  hist := hU.hist
  origins := hU.origins
  acked := hU.acked
  written := hU.written
  parties := by
    intro q
    rcases hU.parties q with h | ⟨h, hl⟩ | h | h
    · exact .inl h
    · exact .inr (.inl ⟨h, hkeep q h hl⟩)
    · exact .inr (.inr (.inl h))
    · exact .inr (.inr (.inr h))

theorem Unborn.not_live {s : Sys} (hU : Unborn s) (p : Nat) (h : Handle) :
    s.parties p ≠ .live h := by
  intro hp
  rcases hU.parties p with h' | ⟨h', -⟩ | h' | h' <;> rw [h'] at hp <;> cases hp

theorem Unborn.step {xxh3 : Bytes → UInt64} {s s' : Sys} (hU : Unborn s) {a : Act}
    (hstep : s.step xxh3 a = some s') :
    Unborn s' ∨ ∃ fold b l, Born xxh3 s' fold b l ∧ l.frames = [] ∧
      ∀ p, s'.parties p = s.parties p ∨ s'.parties p = .out := by
  have hlive := hU.not_live
  cases a with
  | create p =>
    simp only [Sys.step] at hstep
    split at hstep
    next hp hlock _ =>
      cases hstep
      refine .inl (Unborn.setParty (hU.setLock _ ?_) (.inr (.inl ⟨rfl, rfl⟩)))
      intro q _ hq
      rw [hlock] at hq
      cases hq
    next => cases hstep
  | layLog p =>
    simp only [Sys.step] at hstep
    split at hstep
    next hp hlog =>
      cases hstep
      refine .inl ?_
      exact
        { base := hU.base
          log := by
            rintro l ⟨⟩
            exact ⟨rfl, rfl, Nat.lt_succ_self _⟩
          hist := hU.hist
          origins := hU.origins
          acked := hU.acked
          written := hU.written
          parties := hU.parties }
    next => cases hstep
  | layBase p =>
    simp only [Sys.step] at hstep
    split at hstep
    next l hp hlog =>
      cases hstep
      refine .inr ⟨_, _, _, hU.layBase hp hlog, (hU.log l hlog).2.1, ?_⟩
      intro q
      by_cases hq : q = p
      · subst hq
        exact .inr (setParty_self _ _ _)
      · exact .inl (setParty_ne _ _ hq)
    next => cases hstep
  | openBase p =>
    simp only [Sys.step] at hstep
    split at hstep
    next hp =>
      cases hstep
      rw [hU.base]
      exact .inl (hU.setParty (.inr (.inr (.inl rfl))))
    next => cases hstep
  | openLog p =>
    simp only [Sys.step] at hstep
    split at hstep
    next b hp =>
      have hb : b = none := by
        rcases hU.parties p with h | ⟨h, -⟩ | h | h <;> rw [h] at hp <;> cases hp
        rfl
      subst hb
      cases hstep
      exact .inl (hU.setParty (.inr (.inr (.inr rfl))))
    next => cases hstep
  | openMap p =>
    simp only [Sys.step] at hstep
    split at hstep
    next now hp =>
      simp only [Sys.stepOpen, hU.base] at hstep
      cases hstep
      exact .inl (hU.setParty (.inl rfl))
    next => cases hstep
  | openRead p =>
    simp only [Sys.step] at hstep
    split at hstep
    next now b hp =>
      rcases hU.parties p with h | ⟨h, -⟩ | h | h <;> rw [h] at hp <;> cases hp
    next => cases hstep
  | dropLock =>
    simp only [Sys.step] at hstep
    split_ifs at hstep with hl
    cases hstep
    refine .inl (hU.setLock _ ?_)
    intro q _ hq
    rw [hl] at hq
    cases hq
  | crash p =>
    simp only [Sys.step] at hstep
    cases hstep
    refine .inl ?_
    by_cases hl : s.lock = .held (some p)
    · -- nobody else creates
      rw [if_pos hl]
      have hout : ∀ q, q ≠ p → s.parties q ≠ .creating := by
        intro q hq hc
        rcases hU.parties q with h | ⟨-, h⟩ | h | h
        · rw [h] at hc; cases hc
        · rw [hl] at h
          cases h
          exact hq rfl
        · rw [h] at hc; cases hc
        · rw [h] at hc; cases hc
      have h' := (hU.setParty (p := p) (.inl rfl : Party.out = .out ∨ _)).setLock .free ?_
      · exact h'
      · intro q hq
        by_cases hqp : q = p
        · subst hqp
          rw [setParty_self] at hq
          cases hq
        · rw [setParty_ne _ _ hqp] at hq
          exact absurd hq (hout q hqp)
    · rw [if_neg hl]
      exact hU.setParty (.inl rfl)
  | _ =>
    -- no party is a handle yet
    simp only [Sys.step, Sys.party] at hstep
    split at hstep
    next h hp => exact absurd hp (hlive _ h)
    next => cases hstep

/-! ## Once it exists -/

section born
variable {xxh3 : Bytes → UInt64} {s s' : Sys} {fold : Nat → Nat} {b : DiskBase} {l : DiskLog}

/-- What the locked phases say is not about the ring or the staged ops. -/
theorem LockedOk.congr {w : World} {acked : List SealedRecord} {h h' : Handle} {k : Nat}
    {phase : Phase} (hlk : LockedOk xxh3 w acked h k phase) (hnext : h'.nextSeq = h.nextSeq)
    (hdisk : h'.diskGeneration = h.diskGeneration) (hseen : h'.seen = h.seen)
    (hwal : h'.wal = h.wal) : LockedOk xxh3 w acked h' k phase := by
  cases phase with
  | synced =>
    obtain ⟨hk, hs⟩ := hlk
    exact ⟨hk, hs.generation, hs.frames, hnext.trans hs.next, hdisk.trans hs.disk,
      hseen.trans hs.seen⟩
  | appending r n origin undo =>
    obtain ⟨before, hk, ha, hacked⟩ := hlk
    exact ⟨before, hk,
      ⟨ha.generation, hnext.trans ha.next, ha.first, hdisk.trans ha.disk, hseen.trans ha.seen,
        hwal.trans ha.wal, ha.room, ha.makes, ha.written⟩, hacked⟩
  | compacting applied =>
    obtain ⟨hk, hlt, hd, happ⟩ := hlk
    exact ⟨hk, hlt, hdisk.trans hd, happ⟩
  | _ => trivial

/-- A handle that leaves the phase it was in for one with no obligation. -/
theorem Born.rest (hB : Born xxh3 s fold b l) {p : Nat} {h : Handle} (hp : s.parties p = .live h) :
    PartyOk xxh3 (s.world fold b l) s.lock s.acked p (.live { h with phase := .idle }) := by
  obtain ⟨-, -, k, hh, -⟩ := hB.live hp
  exact ⟨by simp [Phase.isLocked], trivial, k, hh.withPhase _, trivial⟩

/-- A handle whose ring changes, but not what it serves. -/
theorem Born.ring (hB : Born xxh3 s fold b l) {p : Nat} {h : Handle} (hp : s.parties p = .live h)
    {ring : Ring} (hserved : ring.served = h.ring.served) :
    PartyOk xxh3 (s.world fold b l) s.lock s.acked p (.live { h with ring := ring }) := by
  obtain ⟨hlock, hloose, k, hh, hlk⟩ := hB.live hp
  refine ⟨hlock, ?_, k, hh.withRing hserved, hlk.congr rfl rfl rfl rfl⟩
  cases hphase : h.phase <;> simp only [hphase, LooseOk] at hloose ⊢ <;> exact hloose

theorem Born.staged (hB : Born xxh3 s fold b l) {p : Nat} {h : Handle} (hp : s.parties p = .live h)
    (hphase : h.phase = .idle) (staged : List OpBytes) :
    PartyOk xxh3 (s.world fold b l) s.lock s.acked p (.live { h with staged := staged }) := by
  obtain ⟨-, -, k, hh, -⟩ := hB.live hp
  refine ⟨by simp [hphase, Phase.isLocked], ?_, k, hh.withStaged _, ?_⟩
  · simp [hphase, LooseOk]
  · simp [hphase, LockedOk]

/-- A handle takes the lock. -/
theorem Born.take (hB : Born xxh3 s fold b l) {p : Nat} {h : Handle} (hp : s.parties p = .live h)
    (hfree : ∀ q, s.lock ≠ .held (some q)) :
    Born xxh3 ({ s with lock := .held (some p) }.setParty p (.live { h with phase := .locked }))
      fold b l := by
  obtain ⟨-, -, k, hh, -⟩ := hB.live hp
  refine hB.setLock _ (fun q _ => hfree q) ?_
  exact ⟨fun _ => rfl, trivial, k, hh.withPhase _, trivial⟩

/-- The lock's user lets it go, or keeps it as a `CommitLock`. -/
theorem Born.letGo (hB : Born xxh3 s fold b l) {p : Nat} {h : Handle} (hp : s.parties p = .live h)
    (hlocked : h.phase.isLocked = true) (lock : Lock) :
    Born xxh3 ({ s with lock := lock }.setParty p (.live { h with phase := .idle })) fold b l := by
  obtain ⟨-, -, k, hh, -⟩ := hB.live hp
  refine hB.setLock _ (hB.others_free hp hlocked) ?_
  exact ⟨by simp [Phase.isLocked], trivial, k, hh.withPhase _, trivial⟩

/-- One access of a lock-free reload. -/
theorem Born.reload (hB : Born xxh3 s fold b l) {p : Nat} {h : Handle} (hp : s.parties p = .live h)
    (hsame : ∀ now, h.phase = .tail now → now.wal.map Prod.fst = some l.ident)
    (hstep : ((s.stepReload xxh3 h h.phase).map fun h' => s.setParty p (.live h')) = some s') :
    Born xxh3 s' fold b l ∧ ServedGrows s s' := by
  obtain ⟨h', hh', rfl⟩ := Option.map_eq_some_iff.mp hstep
  obtain ⟨hok, hle⟩ := hB.stepReload hp hsame hh'
  exact ⟨hB.setParty hok, .setParty hp rfl hle⟩

/-- An append starts, or is refused. -/
theorem Born.append (hB : Born xxh3 s fold b l) {p : Nat} {h : Handle} (hp : s.parties p = .live h)
    (hphase : h.phase = .synced) {start : Option Handle}
    (hstep : (match start with
      | some h' => some (s.setParty p (.live h'))
      | none => some (s.setParty p (.live { h with phase := .done }))) = some s')
    (hstart : ∀ h', start = some h' →
      PartyOk xxh3 (s.world fold b l) s.lock s.acked p (.live h') ∧ h'.served = h.served) :
    Born xxh3 s' fold b l ∧ ServedGrows s s' := by
  cases start with
  | some h' =>
    cases hstep
    obtain ⟨hok, hserved⟩ := hstart h' rfl
    exact ⟨hB.setParty hok, .setParty hp rfl (by rw [hserved])⟩
  | none =>
    cases hstep
    obtain ⟨hlock, -, k, hh, -⟩ := hB.live hp
    have hheld := hlock (by rw [hphase]; rfl)
    exact ⟨hB.setParty ⟨fun _ => hheld, trivial, k, hh.withPhase _, trivial⟩,
      .setParty hp rfl le_rfl⟩

/-- No handle is ahead of the history. -/
theorem Born.servedSeq_le (hB : Born xxh3 s fold b l) {p : Nat} {h : Handle}
    (hp : s.parties p = .live h) : h.served.servedSeq ≤ endSeq s.hist := by
  obtain ⟨-, -, k, hh, -⟩ := hB.live hp
  rw [hh.servedSeq hB.disk]
  have := hB.disk.rising.endSeq_mono hh.serves.le
  rwa [List.take_length] at this

/-- A handle that is caught up serves the whole history. -/
theorem Born.synced (hB : Born xxh3 s fold b l) {p : Nat} {h : Handle}
    (hp : s.parties p = .live h) (hphase : h.phase = .synced) :
    h.served.view.ops = opsOf s.hist ∧ h.served.servedSeq = endSeq s.hist := by
  obtain ⟨-, -, k, hh, hlk⟩ := hB.live hp
  rw [hphase] at hlk
  have hk : (s.world fold b l).hist.take k = s.hist := by
    rw [hlk.1]
    exact List.take_length
  refine ⟨?_, ?_⟩
  · rw [hh.view_ops hB.disk, hk]
  · rw [hh.servedSeq hB.disk, hk]

/-- The last served number after a compaction's log reset. -/
theorem Born.compactLog_grows (hB : Born xxh3 s fold b l) {p applied : Nat} {h : Handle}
    (hp : s.parties p = .live h) (hphase : h.phase = .compacting applied) :
    ServedGrows s (s.stepCompactLog p h b applied) := by
  obtain ⟨-, -, k, hh, hlk⟩ := hB.live hp
  rw [hphase] at hlk
  obtain ⟨-, hlt, -, -⟩ := hlk
  unfold Sys.stepCompactLog
  cases hinstall : h.ring.install ⟨b, [], 0⟩ with
  | none => exact .setParty hp rfl le_rfl
  | some ring =>
    refine .setParty hp rfl ?_
    -- the new base has folded everything
    have happlied : b.applied = endSeq s.hist := by
      rw [(hB.disk.folds b hB.disk.mem).applied]
      have hall : fold b.generation = s.hist.length := hB.disk.folded_all hlt
      show endSeq (s.hist.take (fold b.generation)) = _
      rw [hall, List.take_length]
    show h.served.servedSeq ≤ ring.served.servedSeq
    rw [Ring.served_install hinstall]
    exact (hB.servedSeq_le hp).trans (happlied ▸ le_max_left _ _)

/-- A regular step of a handle. -/
theorem Born.act (hB : Born xxh3 s fold b l) {p : Nat} {h : Handle} {a : Act}
    (hp : s.parties p = .live h) (hparty : Sys.party a = some p) (hreg : Regular xxh3 s a)
    (hstep : s.act xxh3 p h a = some s') :
    (∃ fold' b' l', Born xxh3 s' fold' b' l') ∧ ServedGrows s s' := by
  -- what changes neither the disk nor the history keeps the witnesses it had
  cases a <;> simp only [Sys.act] at hstep <;> try cases hstep
  case reload q =>
    -- only the identity of the base is remembered here
    split at hstep
    next hphase =>
      cases hstep
      obtain ⟨-, -, k, hh, -⟩ := hB.live hp
      refine ⟨⟨_, _, _, hB.setParty ⟨by simp [Phase.isLocked], ?_, k, hh.withPhase _, trivial⟩⟩,
        .setParty hp rfl le_rfl⟩
      intro x hx
      rw [hB.base] at hx
      cases hx
      exact hB.disk.base_fresh
    next => cases hstep
  case reloadStat q =>
    split at hstep
    next hphase =>
      obtain ⟨h1, h2⟩ := hB.reload hp (by simp [hphase]) hstep
      exact ⟨⟨_, _, _, h1⟩, h2⟩
    next => cases hstep
  case reloadTail q =>
    cases hparty
    split at hstep
    next now hphase =>
      -- a regular run reads the tail of the log that the metadata was about
      have hsame := hreg h now hp hphase
      rw [hB.log] at hsame
      obtain ⟨h1, h2⟩ := hB.reload hp (by
        intro now' hnow'
        rw [hphase] at hnow'
        cases hnow'
        exact hsame) hstep
      exact ⟨⟨_, _, _, h1⟩, h2⟩
    next => cases hstep
  case reloadMap q =>
    split at hstep
    next hphase =>
      obtain ⟨h1, h2⟩ := hB.reload hp (by simp [hphase]) hstep
      exact ⟨⟨_, _, _, h1⟩, h2⟩
    next => cases hstep
  case reloadRead q =>
    split at hstep
    next hphase =>
      obtain ⟨h1, h2⟩ := hB.reload hp (by simp [hphase]) hstep
      exact ⟨⟨_, _, _, h1⟩, h2⟩
    next => cases hstep
  case giveUp q =>
    split at hstep
    next hphase =>
      cases hstep
      exact ⟨⟨_, _, _, hB.setParty (hB.rest hp)⟩, .setParty hp rfl le_rfl⟩
    next => cases hstep
  case pin q =>
    -- a pin holds a generation back and serves the same one
    have hserved := Ring.served_pin h.ring
    exact ⟨⟨_, _, _, hB.setParty (hB.ring hp hserved)⟩,
      .setParty hp rfl (congrArg Gen.servedSeq hserved).ge⟩
  case unpin q i =>
    have hserved := Ring.served_unpin h.ring i
    exact ⟨⟨_, _, _, hB.setParty (hB.ring hp hserved)⟩,
      .setParty hp rfl (congrArg Gen.servedSeq hserved).ge⟩
  case stage q ops =>
    split at hstep
    next hphase =>
      cases hstep
      exact ⟨⟨_, _, _, hB.setParty (hB.staged hp hphase _)⟩, .setParty hp rfl le_rfl⟩
    next => cases hstep
  case discard q =>
    split at hstep
    next hphase =>
      cases hstep
      exact ⟨⟨_, _, _, hB.setParty (hB.staged hp hphase _)⟩, .setParty hp rfl le_rfl⟩
    next => cases hstep
  case acquire q =>
    split at hstep
    next hphase hlock =>
      cases hstep
      exact ⟨⟨_, _, _, hB.take hp (by simp [hlock])⟩, .setParty hp rfl le_rfl⟩
    next => cases hstep
  case resume q =>
    split at hstep
    next hphase hlock =>
      cases hstep
      exact ⟨⟨_, _, _, hB.take hp (by simp [hlock])⟩, .setParty hp rfl le_rfl⟩
    next => cases hstep
  case sync q =>
    cases hparty
    split at hstep
    next hphase =>
      cases hstep
      obtain ⟨⟨l', hB'⟩, hle⟩ := hB.stepSync hp hphase (hreg h hp hphase)
      exact ⟨⟨_, _, _, hB'⟩, .setParty hp (stepSync_parties xxh3 s h) hle⟩
    next => cases hstep
  case commit q =>
    split at hstep
    next hphase =>
      obtain ⟨h1, h2⟩ := hB.append hp hphase hstep fun h' hh' =>
        hB.startAppend hp hphase hh' fun _ hr => hr
      exact ⟨⟨_, _, _, h1⟩, h2⟩
    next => cases hstep
  case transact q f =>
    split at hstep
    next hphase =>
      obtain ⟨h1, h2⟩ := hB.append hp hphase hstep (by
        intro h' hh'
        -- the closure read the view it was synced to, under the lock
        obtain ⟨ops, hf, hh'⟩ := Option.bind_eq_some_iff.mp hh'
        refine hB.startAppend hp hphase hh' fun r hr => ⟨h.served.view, ops, ?_, hf, hr⟩
        exact (hB.synced hp hphase).1)
      exact ⟨⟨_, _, _, h1⟩, h2⟩
    next => cases hstep
  case write q n =>
    split at hstep
    next r k origin undo hphase =>
      split_ifs at hstep with hn
      cases hstep
      obtain ⟨l', hB'⟩ := hB.stepWrite hp hphase hn.1 hn.2
      refine ⟨⟨_, _, _, hB'⟩, ?_⟩
      unfold Sys.stepWrite
      split_ifs
      · exact .setParty hp rfl le_rfl
      · exact .setParty hp rfl le_rfl
    next => cases hstep
  case complete q =>
    split at hstep
    next r k origin undo hphase =>
      split_ifs at hstep with hk
      cases hstep
      -- all bytes are down: the batch is acknowledged and published
      subst hk
      obtain ⟨hB', hle⟩ := hB.stepComplete hp hphase
      refine ⟨⟨_, _, _, hB'⟩, .setParty hp rfl (hle.trans ?_)⟩
      exact (hB'.synced (setParty_self _ _ _) rfl).2.ge
    next => cases hstep
  case fail q =>
    cases hparty
    split at hstep
    next r k origin undo hphase =>
      cases hstep
      -- the log is cut back to where the append began; a whole record leaves the history too
      obtain ⟨l', hB'⟩ := hB.stepFail hp hphase (by
        intro hk
        subst hk
        exact hreg h r origin undo hp hphase)
      refine ⟨⟨_, _, _, hB'⟩, ?_⟩
      unfold Sys.stepFail
      split_ifs
      · exact .setParty hp rfl le_rfl
      · exact .setParty hp rfl le_rfl
    next => cases hstep
  case compactBase q =>
    split at hstep
    next hphase =>
      cases hstep
      obtain ⟨fold', b', hB'⟩ := hB.stepCompactBase hp hphase
      exact ⟨⟨_, _, _, hB'⟩, .setParty hp rfl le_rfl⟩
    next => cases hstep
  case compactLog q =>
    split at hstep
    next applied b' hphase hbase =>
      rw [hB.base] at hbase
      cases hbase
      cases hstep
      obtain ⟨l', hB'⟩ := hB.stepCompactLog hp hphase
      exact ⟨⟨_, _, _, hB'⟩, hB.compactLog_grows hp hphase⟩
    next => cases hstep
  case release q =>
    split at hstep
    all_goals
      first
      | cases hstep
        exact ⟨⟨_, _, _, hB.letGo hp (by simp [*, Phase.isLocked]) _⟩, .setParty hp rfl le_rfl⟩
      | cases hstep
  case park q =>
    split at hstep
    all_goals
      first
      | cases hstep
        exact ⟨⟨_, _, _, hB.letGo hp (by simp [*, Phase.isLocked]) _⟩, .setParty hp rfl le_rfl⟩
      | cases hstep

theorem Born.crash (hB : Born xxh3 s fold b l) (p : Nat) :
    Born xxh3 ({ s with lock := if s.lock = Lock.held (some p) then Lock.free else s.lock }.setParty
      p .out) fold b l := by
  by_cases hl : s.lock = .held (some p)
  · rw [if_pos hl]
    refine hB.setLock _ ?_ trivial
    intro q hq heq
    rw [hl] at heq
    cases heq
    exact hq rfl
  · rw [if_neg hl]
    exact hB.setParty trivial

theorem Born.dropLock (hB : Born xxh3 s fold b l) (hl : s.lock = .held none) :
    Born xxh3 { s with lock := .free } fold b l where
  base := hB.base
  log := hB.log
  disk := hB.disk
  serial := hB.serial
  acked := hB.acked
  parties := by
    intro q
    exact (hB.parties q).frame (by simp [hl]) hB.disk.mem (Frame.refl _ 0) fun _ k _ _ =>
      Frame.refl _ k

/-- One access of an `open`. -/
theorem Born.opening (hB : Born xxh3 s fold b l) {p : Nat} {phase : Phase}
    (hp : s.parties p = .opening phase)
    (hstep : (s.stepOpen xxh3 phase).map (s.setParty p) = some s') :
    Born xxh3 s' fold b l ∧ ServedGrows s s' := by
  obtain ⟨x, hx, rfl⟩ := Option.map_eq_some_iff.mp hstep
  exact ⟨hB.setParty (hB.stepOpen hp hx), .fresh rfl (by simp [hp])⟩

theorem Born.step (hB : Born xxh3 s fold b l) {a : Act} (hreg : Regular xxh3 s a)
    (hstep : s.step xxh3 a = some s') :
    (∃ fold' b' l', Born xxh3 s' fold' b' l') ∧ ServedGrows s s' := by
  have hcreating : ∀ p, s.parties p ≠ .creating := by
    intro p hp
    have h := hB.parties p
    rw [hp] at h
    exact h
  cases a with
  | create p =>
    simp only [Sys.step] at hstep
    split at hstep
    next _ _ hbase =>
      rw [hB.base] at hbase
      cases hbase
    next => cases hstep
  | layLog p =>
    simp only [Sys.step] at hstep
    split at hstep
    next hp _ => exact absurd hp (hcreating p)
    next => cases hstep
  | layBase p =>
    simp only [Sys.step] at hstep
    split at hstep
    next hp _ => exact absurd hp (hcreating p)
    next => cases hstep
  | openBase p =>
    simp only [Sys.step] at hstep
    split at hstep
    next hp =>
      cases hstep
      refine ⟨⟨_, _, _, hB.setParty ?_⟩, .fresh rfl (by simp [hp])⟩
      intro x hx
      rw [hB.base] at hx
      cases hx
      exact hB.disk.base_fresh
    next => cases hstep
  | openLog p =>
    simp only [Sys.step] at hstep
    split at hstep
    next hp =>
      obtain ⟨h1, h2⟩ := hB.opening hp hstep
      exact ⟨⟨_, _, _, h1⟩, h2⟩
    next => cases hstep
  | openMap p =>
    simp only [Sys.step] at hstep
    split at hstep
    next hp =>
      obtain ⟨h1, h2⟩ := hB.opening hp hstep
      exact ⟨⟨_, _, _, h1⟩, h2⟩
    next => cases hstep
  | openRead p =>
    simp only [Sys.step] at hstep
    split at hstep
    next hp =>
      obtain ⟨h1, h2⟩ := hB.opening hp hstep
      exact ⟨⟨_, _, _, h1⟩, h2⟩
    next => cases hstep
  | dropLock =>
    simp only [Sys.step] at hstep
    split_ifs at hstep with hl
    cases hstep
    refine ⟨⟨_, _, _, hB.dropLock hl⟩, ?_⟩
    intro p h h' hp hp'
    change s.parties p = .live h' at hp'
    rw [hp] at hp'
    cases hp'
    exact le_rfl
  | crash p =>
    simp only [Sys.step] at hstep
    cases hstep
    exact ⟨⟨_, _, _, hB.crash p⟩, .gone rfl (by simp)⟩
  | _ =>
    -- a step of a handle
    simp only [Sys.step, Sys.party] at hstep
    split at hstep
    next h hp => exact hB.act hp rfl hreg hstep
    next => cases hstep

end born

/-! ## Runs -/

section runs
variable {xxh3 : Bytes → UInt64} {s s' : Sys}

theorem inv_init (xxh3 : Bytes → UInt64) : Inv xxh3 Sys.init :=
  .inl
    { base := rfl
      log := by rintro l ⟨⟩
      hist := rfl
      origins := rfl
      acked := rfl
      written := rfl
      parties := fun _ => .inl rfl }

/-- A regular step keeps the invariant. -/
theorem Inv.step (hI : Inv xxh3 s) {a : Act} (hreg : Regular xxh3 s a)
    (hstep : s.step xxh3 a = some s') : Inv xxh3 s' := by
  rcases hI with hU | ⟨fold, b, l, hB⟩
  · rcases hU.step hstep with hU' | ⟨fold, b, l, hB, -⟩
    · exact .inl hU'
    · exact .inr ⟨fold, b, l, hB⟩
  · exact .inr (hB.step hreg hstep).1

/-- And no handle falls back. -/
theorem Inv.servedGrows (hI : Inv xxh3 s) {a : Act} (hreg : Regular xxh3 s a)
    (hstep : s.step xxh3 a = some s') : ServedGrows s s' := by
  rcases hI with hU | ⟨fold, b, l, hB⟩
  · intro p h _ hp
    exact absurd hp (hU.not_live p h)
  · exact (hB.step hreg hstep).2

/-- Every state of a regular run. -/
theorem Inv.run {as : List Act} (h : Run (Sys.step xxh3) (Regular xxh3) Sys.init as s) :
    Inv xxh3 s :=
  h.invariant (inv_init xxh3) fun _ _ _ hI hreg hstep => hI.step hreg hstep

end runs

end GraphR.Multi
