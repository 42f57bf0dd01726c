import GraphR.Multi.Safety

/-! # Runs in which no append is left half way

    While no writer dies or fails in mid-append, a handle may trust its stamp:
    the log only grows until it is replaced, so the length a handle saw still
    names the bytes it saw, and between the offset it has consumed and that
    length no whole record can have come to lie. Of the protocol's windows only
    the tail read of another file is left. -/

namespace GraphR.Multi

open Wal ByteLib RunLib

def Phase.isAppending : Phase → Bool
  | .appending .. => true
  | _ => false

/-- No writer dies or fails in mid-append, and a tail read finds the log its
    `stat` named. -/
def Calm (s : Sys) : Act → Prop
  | .crash p => ∀ h, s.parties p = .live h → h.phase.isAppending = false
  | .fail _ => False
  | .reloadTail p => ∀ h now, s.parties p = .live h → h.phase = .tail now →
      now.wal.map Prod.fst = s.log.map DiskLog.ident
  | _ => True

/-! ## What a handle may trust -/

section tidy
variable (xxh3 : Bytes → UInt64) (l : DiskLog)

/-- The log is at least as long as a stamp that names it says. -/
def StampTidy (now : Option Stamp) : Prop :=
  ∀ b len, now = some ⟨b, some (l.ident, len)⟩ → len ≤ l.len

/-- And no whole record lies between the consumed offset and that length. -/
def SeenTidy (seen : Seen) : Prop :=
  StampTidy l seen.stamp ∧ ∀ b len, seen.stamp = some ⟨b, some (l.ident, len)⟩ →
    seen.logCurrent = true →
    (scan xxh3 ((l.frames.take (len - headerLen)).drop (seen.walPos - headerLen)) 0 none).stop = 0

def PhaseTidy : Phase → Prop
  | .tail now => StampTidy l (some now)
  | .full now => StampTidy l now
  | .mapped now _ => StampTidy l now
  | _ => True

def PartyTidy : Party → Prop
  | .opening phase => PhaseTidy l phase
  | .live h => SeenTidy xxh3 l h.seen ∧ PhaseTidy l h.phase
  | _ => True

/-- Every party may trust its stamps, and a log nobody appends to ends with a
    whole record. -/
structure Tidy (s : Sys) : Prop where
  parties : ∀ p, PartyTidy xxh3 l (s.parties p)
  whole : (∀ p h, s.parties p = .live h → h.phase.isAppending = false) →
    (scan xxh3 l.frames 0 none).stop = l.frames.length

variable {xxh3 l}

theorem stampTidy_current (s : Sys) (hl : s.log = some l) (b : Option Nat) :
    StampTidy l (s.stampOn b) := by
  intro b' len h
  unfold Sys.stampOn at h
  obtain ⟨x, -, hx⟩ := Option.map_eq_some_iff.mp h
  rw [hl] at hx
  cases hx
  exact le_rfl

theorem stampTidy_none : StampTidy l none := by
  rintro b len ⟨⟩

/-- A stamp taken before the log was laid down does not name it. -/
theorem stampTidy_below {fresh : Nat} {now : Option Stamp} (hid : l.ident = fresh)
    (h : ∀ st, now = some st → st.Below fresh) : StampTidy l now := by
  intro b len hst
  have := (h _ hst).2 _ rfl
  simp only at this
  omega

/-- Nor does a handle's that was seen before. -/
theorem seenTidy_below {fresh : Nat} {seen : Seen} (hid : l.ident = fresh)
    (h : ∀ st, seen.stamp = some st → st.Below fresh) : SeenTidy xxh3 l seen := by
  refine ⟨stampTidy_below hid h, ?_⟩
  intro b len hst
  have := (h _ hst).2 _ rfl
  simp only at this
  omega

theorem Torn.take {tail : Bytes} (h : Torn xxh3 tail) (n : Nat) : Torn xxh3 (tail.take n) := by
  rcases h with rfl | ⟨r, k, hk, rfl⟩
  · exact .inl (by simp)
  · refine .inr ⟨r, min n k, by omega, ?_⟩
    rw [List.take_take]

theorem Torn.scan_stop {tail : Bytes} (h : Torn xxh3 tail) : (scan xxh3 tail 0 none).stop = 0 := by
  have hscan := (@scan_frames xxh3 [] List.isChain_nil _ h).2
  simpa using hscan

/-- A handle that has consumed every whole record. -/
theorem seenTidy_consumed {rs : List SealedRecord} {tail : Bytes} {seen : Seen}
    (hframes : l.frames = bytesOf xxh3 rs ++ tail) (htorn : Torn xxh3 tail)
    (hnow : StampTidy l seen.stamp)
    (hpos : seen.logCurrent = true → seen.walPos = headerLen + size rs) :
    SeenTidy xxh3 l seen := by
  refine ⟨hnow, ?_⟩
  intro b len _ hcur
  have hdrop : (bytesOf xxh3 rs ++ tail).drop (size rs) = tail := by
    rw [← length_bytesOf xxh3 rs, List.drop_left]
  rw [hpos hcur, Nat.add_sub_cancel_left, hframes, List.drop_take, hdrop]
  exact (htorn.take _).scan_stop

/-- More bytes at the end of the log. -/
theorem seenTidy_grown {l' : DiskLog} {chunk : Bytes} {seen : Seen} (hid : l'.ident = l.ident)
    (hframes : l'.frames = l.frames ++ chunk) (h : SeenTidy xxh3 l seen) :
    SeenTidy xxh3 l' seen := by
  have hlen : l.len ≤ l'.len := by
    unfold DiskLog.len
    rw [hframes, List.length_append]
    omega
  refine ⟨?_, ?_⟩
  · intro b len hst
    rw [hid] at hst
    exact (h.1 b len hst).trans hlen
  · intro b len hst hcur
    rw [hid] at hst
    have hle : len - headerLen ≤ l.frames.length := by
      have := h.1 b len hst
      unfold DiskLog.len at this
      omega
    rw [hframes, List.take_append_of_le_length hle]
    exact h.2 b len hst hcur

theorem phaseTidy_grown {l' : DiskLog} {phase : Phase} (hid : l'.ident = l.ident)
    (hlen : l.len ≤ l'.len) (h : PhaseTidy l phase) : PhaseTidy l' phase := by
  have hstamp : ∀ now, StampTidy l now → StampTidy l' now := by
    intro now hnow b len hst
    rw [hid] at hst
    exact (hnow b len hst).trans hlen
  cases phase with
  | tail now => exact hstamp _ h
  | full now => exact hstamp _ h
  | mapped now b => exact hstamp _ h
  | _ => trivial

theorem partyTidy_grown {l' : DiskLog} {chunk : Bytes} {x : Party} (hid : l'.ident = l.ident)
    (hframes : l'.frames = l.frames ++ chunk) (h : PartyTidy xxh3 l x) : PartyTidy xxh3 l' x := by
  have hlen : l.len ≤ l'.len := by
    unfold DiskLog.len
    rw [hframes, List.length_append]
    omega
  cases x with
  | opening phase => exact phaseTidy_grown hid hlen h
  | live h₀ => exact ⟨seenTidy_grown hid hframes h.1, phaseTidy_grown hid hlen h.2⟩
  | _ => trivial

end tidy

section born
variable {xxh3 : Bytes → UInt64} {s s' : Sys} {fold : Nat → Nat} {b : DiskBase} {l : DiskLog}

/-- No party's stamps name a log that is new. -/
theorem Born.partyTidy_fresh (hB : Born xxh3 s fold b l) {l' : DiskLog} (hid : l'.ident = s.fresh)
    (p : Nat) : PartyTidy xxh3 l' (s.parties p) := by
  have hok := hB.parties p
  cases hp : s.parties p with
  | out => trivial
  | creating => trivial
  | opening phase =>
    rw [hp] at hok
    cases phase with
    | full now => exact stampTidy_below hid hok
    | mapped now b' => exact stampTidy_below hid (MappedOk.below hok)
    | _ => trivial
  | live h =>
    rw [hp] at hok
    obtain ⟨-, hloose, k, hh, -⟩ := hok
    refine ⟨seenTidy_below hid hh.below, ?_⟩
    cases hphase : h.phase with
    | tail now =>
      rw [hphase] at hloose
      obtain ⟨-, id, len, len', hwal, hst⟩ := hloose
      intro b' len₁ heq
      cases heq
      cases hwal
      have hlt : l'.ident < s.fresh := (hh.below _ hst).2 _ rfl
      omega
    | full now =>
      rw [hphase] at hloose
      exact stampTidy_below hid hloose
    | mapped now b' =>
      rw [hphase] at hloose
      exact stampTidy_below hid (MappedOk.below hloose)
    | _ => trivial

/-- A handle that is caught up. -/
theorem Synced.seenTidy {w : World} {h : Handle} (hs : Synced xxh3 w h) :
    SeenTidy xxh3 w.log h.seen := by
  rw [hs.seen]
  have hframes : w.log.frames = bytesOf xxh3 w.logged ++ [] := by rw [hs.frames, List.append_nil]
  refine seenTidy_consumed hframes (torn_nil xxh3) ?_ ?_
  · intro b' len hst
    cases hst
    exact le_rfl
  · intro _
    show headerLen + w.log.frames.length = _
    rw [hs.frames, length_bytesOf]

/-- With nobody appending the log is its records. -/
theorem Tidy.frames (hT : Tidy xxh3 l s) (hB : Born xxh3 s fold b l)
    (hquiet : ∀ p h, s.parties p = .live h → h.phase.isAppending = false) :
    l.frames = bytesOf xxh3 (s.world fold b l).logged := by
  have hwhole := hT.whole hquiet
  obtain ⟨tail, htorn, hframes⟩ := hB.disk.frames
  change l.frames = _ at hframes
  rw [hframes, (scan_frames hB.disk.rising_logged htorn).2, List.length_append,
    length_bytesOf] at hwhole
  have htail : tail = [] := List.length_eq_zero_iff.mp (by omega)
  rw [hframes, htail, List.append_nil]

/-- The lock's user not appending, nobody is. -/
theorem Born.quiet (hB : Born xxh3 s fold b l) {p : Nat} {h : Handle} (hp : s.parties p = .live h)
    (hlocked : h.phase.isLocked = true) (hphase : h.phase.isAppending = false) :
    ∀ q h', s.parties q = .live h' → h'.phase.isAppending = false := by
  intro q h' hq
  by_cases hqp : q = p
  · subst hqp
    rw [hp] at hq
    cases hq
    exact hphase
  · have hfree := hB.others_free hp hlocked q hqp
    have hlock := (hB.live hq).1
    cases hph : h'.phase with
    | appending r n origin undo => exact absurd (hlock (by rw [hph]; rfl)) hfree
    | _ => rfl

/-- A calm step is regular. -/
theorem Calm.regular (hB : Born xxh3 s fold b l) (hT : Tidy xxh3 l s) {a : Act} (hc : Calm s a) :
    Regular xxh3 s a := by
  cases a with
  | sync p =>
    intro h hp hphase hstamp hcur l' hl'
    rw [hB.log] at hl'
    cases hl'
    have hst : h.seen.stamp = some ⟨b.ident, some (l.ident, l.len)⟩ := by
      rw [hstamp, Sys.stamp, hB.base, hB.log]
      rfl
    have htidy := hT.parties p
    rw [hp] at htidy
    have hscan := htidy.1.2 _ _ hst hcur
    have hall : l.frames.take (l.len - headerLen) = l.frames := by
      rw [DiskLog.len, Nat.add_sub_cancel_left, List.take_length]
    rw [hall] at hscan
    exact hscan
  | reloadTail p => exact hc
  | fail p => exact absurd hc id
  | _ => trivial

/-- One access of an `open`. -/
theorem Tidy.stepOpen (hT : Tidy xxh3 l s) (hB : Born xxh3 s fold b l) {p : Nat} {phase : Phase}
    {x : Party} (hp : s.parties p = .opening phase) (hstep : s.stepOpen xxh3 phase = some x) :
    PartyTidy xxh3 l x := by
  have hok := hB.parties p
  have htidy := hT.parties p
  rw [hp] at hok htidy
  unfold Sys.stepOpen at hstep
  cases phase with
  | based bi =>
    cases hstep
    exact stampTidy_current s hB.log bi
  | full now =>
    rw [hB.base] at hstep
    cases hstep
    exact htidy
  | mapped now b' =>
    rw [hB.log] at hstep
    simp only at hstep
    cases hbuilt : buildGeneration xxh3 b' (some l) with
    | error e =>
      rw [hbuilt] at hstep
      cases hstep
      trivial
    | ok built =>
      rw [hbuilt] at hstep
      simp only at hstep
      by_cases hnewer : built.log = .newer
      · rw [if_pos hnewer] at hstep
        cases hstep
        exact htidy
      · rw [if_neg hnewer] at hstep
        cases hstep
        obtain ⟨tail, htorn, hframes⟩ := hB.disk.frames
        obtain ⟨-, -, -, -, hlog⟩ := buildGeneration_spec hB.disk (MappedOk.mem hok) hbuilt hnewer
        refine ⟨seenTidy_consumed hframes htorn htidy ?_, trivial⟩
        intro hcur
        rcases hlog with ⟨-, -, hpos⟩ | ⟨-, hstale, -⟩
        · exact hpos
        · rw [hstale] at hcur
          cases hcur
  | _ => cases hstep

/-- One access of a reload. -/
theorem Tidy.stepReload (hT : Tidy xxh3 l s) (hB : Born xxh3 s fold b l) {p : Nat} {h h' : Handle}
    (hp : s.parties p = .live h)
    (hsame : ∀ now, h.phase = .tail now → now.wal.map Prod.fst = some l.ident)
    (hstep : s.stepReload xxh3 h h.phase = some h') :
    PartyTidy xxh3 l (.live h') ∧ h'.phase.isAppending = false := by
  obtain ⟨-, hloose, k, hh, -⟩ := hB.live hp
  have htidy := hT.parties p
  rw [hp] at htidy
  obtain ⟨hseen, hphasetidy⟩ := htidy
  obtain ⟨tail, htorn, hframes⟩ := hB.disk.frames
  have hd := hB.disk
  unfold Sys.stepReload at hstep
  cases hphase : h.phase with
  | based bi =>
    -- what the metadata was about is the log as it is now
    rw [hphase] at hstep
    simp only at hstep
    have hstamp := stampTidy_current s hB.log bi
    split at hstep
    · cases hstep
      exact ⟨⟨hseen, trivial⟩, rfl⟩
    next now hnow =>
      cases hstep
      rw [hnow] at hstamp
      exact ⟨⟨hseen, hstamp⟩, rfl⟩
    · cases hstep
      exact ⟨⟨hseen, hstamp⟩, rfl⟩
  | tail now =>
    -- the tail is read from the log that was seen, so all its records are consumed
    rw [hphase] at hstep hloose hphasetidy
    obtain ⟨-, id, len, len', hwal, hst⟩ := hloose
    have hid : id = l.ident := by
      have := hsame now hphase
      rw [hwal] at this
      simpa using this
    subst hid
    have hbelow : now.Below s.fresh := by
      refine ⟨(hh.below _ hst).1, ?_⟩
      intro v hv
      rw [hwal] at hv
      cases hv
      exact hd.log_fresh
    rw [hB.log] at hstep
    simp only at hstep
    cases hr : h.readTail xxh3 now (some l) with
    | error e =>
      rw [hr] at hstep
      cases hstep
      exact ⟨⟨hseen, trivial⟩, rfl⟩
    | ok h₁ =>
      rw [hr] at hstep
      cases hstep
      obtain ⟨-, hstamp, hpos, -, -⟩ := readTail_spec hd hh hwal hbelow hst hr
      refine ⟨⟨seenTidy_consumed hframes htorn ?_ fun _ => hpos, trivial⟩, rfl⟩
      show StampTidy l h₁.seen.stamp
      rw [hstamp]
      exact hphasetidy
  | full now =>
    rw [hphase] at hstep hphasetidy
    rw [hB.base] at hstep
    cases hstep
    exact ⟨⟨hseen, hphasetidy⟩, rfl⟩
  | mapped now b' =>
    rw [hphase] at hstep hloose hphasetidy
    rw [hB.log] at hstep
    simp only at hstep
    cases hr : h.readFull xxh3 now b' (some l) with
    | error e =>
      rw [hr] at hstep
      cases hstep
      exact ⟨⟨hseen, trivial⟩, rfl⟩
    | ok res =>
      cases res with
      | none =>
        -- the log is newer than the base that was mapped: the base is mapped again
        rw [hr] at hstep
        cases hstep
        exact ⟨⟨hseen, hphasetidy⟩, rfl⟩
      | some h₁ =>
        rw [hr] at hstep
        cases hstep
        obtain ⟨-, hstamp, hpos, -⟩ := readFull_spec hd hh hloose hr
        refine ⟨⟨seenTidy_consumed hframes htorn ?_ hpos, trivial⟩, rfl⟩
        show StampTidy l h₁.seen.stamp
        rw [hstamp]
        exact hphasetidy
  | _ =>
    rw [hphase] at hstep
    cases hstep

/-- Party `p` moves, the log stays: it was not appending, or it is now, or the
    log is whole. -/
theorem Tidy.setParty (hT : Tidy xxh3 l s) {t : Sys} (ht : t.parties = s.parties) {p : Nat}
    {x : Party} (hx : PartyTidy xxh3 l x)
    (hp : (∀ h, s.parties p = .live h → h.phase.isAppending = false) ∨
      (∃ h, x = .live h ∧ h.phase.isAppending = true) ∨
      (scan xxh3 l.frames 0 none).stop = l.frames.length) :
    Tidy xxh3 l (t.setParty p x) where
  parties := by
    intro q
    by_cases hq : q = p
    · subst hq
      rw [setParty_self]
      exact hx
    · rw [setParty_ne _ _ hq, ht]
      exact hT.parties q
  whole := by
    intro hquiet
    rcases hp with hp | ⟨h, rfl, happ⟩ | hwhole
    · refine hT.whole ?_
      intro q h hq
      by_cases hqp : q = p
      · subst hqp
        exact hp h hq
      · exact hquiet q h (by rw [setParty_ne _ _ hqp, ht]; exact hq)
    · have := hquiet p h (setParty_self _ _ _)
      rw [happ] at this
      cases this
    · exact hwhole

/-- The log is replaced by an empty one. -/
theorem Tidy.reset {l' : DiskLog} (hB : Born xxh3 s fold b l) (hid : l'.ident = s.fresh)
    (hframes : l'.frames = []) {t : Sys} (ht : t.parties = s.parties) {p : Nat} {x : Party}
    (hx : PartyTidy xxh3 l' x) : Tidy xxh3 l' (t.setParty p x) where
  parties := by
    intro q
    by_cases hq : q = p
    · subst hq
      rw [setParty_self]
      exact hx
    · rw [setParty_ne _ _ hq, ht]
      exact hB.partyTidy_fresh hid q
  whole := by
    intro _
    rw [hframes]
    exact (torn_nil xxh3).scan_stop

/-- Bytes reach the log's end while party `p` appends. -/
theorem Tidy.grown (hT : Tidy xxh3 l s) {l' : DiskLog} (chunk : Bytes) (hid : l'.ident = l.ident)
    (hframes : l'.frames = l.frames ++ chunk) {t : Sys} (ht : t.parties = s.parties) {p : Nat}
    {h h' : Handle} (hp : s.parties p = .live h) (hseen : h'.seen = h.seen)
    (happ : h'.phase.isAppending = true) : Tidy xxh3 l' (t.setParty p (.live h')) where
  parties := by
    intro q
    by_cases hq : q = p
    · subst hq
      rw [setParty_self]
      have htidy := hT.parties q
      rw [hp] at htidy
      refine ⟨?_, ?_⟩
      · rw [hseen]
        exact seenTidy_grown hid hframes htidy.1
      · cases hph : h'.phase with
        | appending r n origin undo => trivial
        | _ =>
          rw [hph] at happ
          cases happ
    · rw [setParty_ne _ _ hq, ht]
      exact partyTidy_grown hid hframes (hT.parties q)
  whole := by
    intro hquiet
    have := hquiet p h' (setParty_self _ _ _)
    rw [happ] at this
    cases this

/-- A locked `sync`: nothing is cut off, for nothing is torn. -/
theorem Tidy.stepSync (hT : Tidy xxh3 l s) (hB : Born xxh3 s fold b l) {p : Nat} {h : Handle}
    (hp : s.parties p = .live h) (hphase : h.phase = .locked) :
    ∃ l', (s.stepSync xxh3 h).1.log = some l' ∧
      Tidy xxh3 l' ((s.stepSync xxh3 h).1.setParty p (.live (s.stepSync xxh3 h).2)) := by
  obtain ⟨-, -, k, hh, -⟩ := hB.live hp
  have hnot : ∀ h', s.parties p = .live h' → h'.phase.isAppending = false := by
    intro h' hp'
    rw [hp] at hp'
    cases hp'
    rw [hphase]
    rfl
  have hquiet := hB.quiet hp (by rw [hphase]; rfl) (hnot h hp)
  have htidy := hT.parties p
  rw [hp] at htidy
  have hreg : Regular xxh3 s (.sync p) := Calm.regular hB hT trivial
  have hlog := stepSync_log xxh3 s h p (.live (s.stepSync xxh3 h).2)
  have hparties := stepSync_parties xxh3 s h
  rcases stepSync_spec hB.disk hB.base hB.log hh (hreg h hp hphase) with herr | ⟨l', hsync, hphase'⟩
  · rw [herr]
    exact ⟨l, hB.log, hT.setParty rfl ⟨htidy.1, trivial⟩ (.inl hnot)⟩
  · generalize s.stepSync xxh3 h = sh at hsync hphase' hlog hparties
    obtain ⟨s₁, h₁⟩ := sh
    simp only at hsync hphase' hlog hparties ⊢
    have hlog₁ : s₁.log = some l' := by rw [hsync.sys]
    have hseen : PartyTidy xxh3 l' (.live h₁) := by
      refine ⟨hsync.synced.seenTidy, ?_⟩
      rw [hphase']
      trivial
    refine ⟨l', hlog₁, ?_⟩
    -- a log of the same identity has lost nothing
    have hsame : l' = l → Tidy xxh3 l' (s₁.setParty p (.live h₁)) := by
      intro heq
      subst heq
      exact hT.setParty hparties hseen (.inl hnot)
    have hcut : ∀ pos, l' = l.cut pos → Tidy xxh3 l' (s₁.setParty p (.live h₁)) := by
      intro pos hpos
      refine hsame ?_
      have hgen : l'.generation = l.generation := by rw [hpos]; rfl
      have hfr : l'.frames = bytesOf xxh3 (s.hist.drop (fold l.generation)) := by
        have := hsync.synced.frames
        change l'.frames = bytesOf xxh3 (s₁.hist.drop (fold l'.generation)) at this
        rw [this, hgen]
        rw [hsync.sys]
      have hfr' : l.frames = bytesOf xxh3 (s.hist.drop (fold l.generation)) := hT.frames hB hquiet
      have hframes : (l.cut pos).frames = l.frames := by rw [← hpos, hfr, hfr']
      rw [hpos]
      change l.frames.take (pos - headerLen) = l.frames at hframes
      unfold DiskLog.cut
      rw [hframes]
    cases hlog with
    | same hlog =>
      have heq : s₁.log = s.log := hlog
      rw [hlog₁, hB.log] at heq
      cases heq
      exact hsame rfl
    | reset l₂ hlog hid hframes =>
      have heq : s₁.log = some l₂ := hlog
      rw [hlog₁] at heq
      cases heq
      exact Tidy.reset hB hid hframes hparties hseen
    | repaired _ pos hlog =>
      have heq : s₁.log = s.log.map fun l => l.cut pos := hlog
      rw [hlog₁, hB.log] at heq
      cases heq
      exact hcut pos rfl

/-- A compaction's log reset. -/
theorem Tidy.stepCompactLog (hB : Born xxh3 s fold b l) {p applied : Nat} {h : Handle} :
    ∃ l', (s.stepCompactLog p h b applied).log = some l' ∧
      Tidy xxh3 l' (s.stepCompactLog p h b applied) := by
  unfold Sys.stepCompactLog
  refine ⟨⟨s.fresh, h.diskGeneration, []⟩, by split <;> rfl, ?_⟩
  split
  · refine Tidy.reset hB ?_ ?_ ?_ ?_
    · rfl
    · rfl
    · rfl
    · refine ⟨⟨stampTidy_none, ?_⟩, trivial⟩
      rintro b' len ⟨⟩
  · refine Tidy.reset hB ?_ ?_ ?_ ?_
    · rfl
    · rfl
    · rfl
    · refine ⟨⟨?_, ?_⟩, trivial⟩
      · intro b' len hst
        obtain ⟨b₁, -, hst⟩ := Option.map_eq_some_iff.mp hst
        cases hst
        exact le_rfl
      · intro b' len _ _
        simpa using (torn_nil xxh3).scan_stop

/-- A calm step of a handle. -/
theorem Tidy.act (hT : Tidy xxh3 l s) (hB : Born xxh3 s fold b l) {p : Nat} {h : Handle} {a : Act}
    (hp : s.parties p = .live h) (hparty : Sys.party a = some p) (hc : Calm s a)
    (hstep : s.act xxh3 p h a = some s') : ∃ l', s'.log = some l' ∧ Tidy xxh3 l' s' := by
  have htidy := hT.parties p
  rw [hp] at htidy
  -- a handle that keeps what it has seen and stands in a phase that keeps no stamp
  have hplain : ∀ (t : Sys) (h' : Handle), t.parties = s.parties → t.log = s.log →
      h'.seen = h.seen → PhaseTidy l h'.phase → (h.phase.isAppending = true →
        h'.phase.isAppending = true) → ∃ l', (t.setParty p (.live h')).log = some l' ∧
          Tidy xxh3 l' (t.setParty p (.live h')) := by
    intro t h' ht hlog hseen hphase happ
    refine ⟨l, hlog.trans hB.log, hT.setParty ht ⟨by rw [hseen]; exact htidy.1, hphase⟩ ?_⟩
    cases hwas : h.phase.isAppending with
    | true => exact .inr (.inl ⟨h', rfl, happ hwas⟩)
    | false =>
      refine .inl ?_
      intro h₀ hp₀
      rw [hp] at hp₀
      cases hp₀
      exact hwas
  have hreload : (∀ now, h.phase = .tail now → now.wal.map Prod.fst = some l.ident) →
      h.phase.isAppending = false →
      ((s.stepReload xxh3 h h.phase).map fun h' => s.setParty p (.live h')) = some s' →
      ∃ l', s'.log = some l' ∧ Tidy xxh3 l' s' := by
    intro hsame hwas hr
    obtain ⟨h', hh', rfl⟩ := Option.map_eq_some_iff.mp hr
    refine ⟨l, hB.log, hT.setParty rfl (hT.stepReload hB hp hsame hh').1 (.inl ?_)⟩
    intro h₀ hp₀
    rw [hp] at hp₀
    cases hp₀
    exact hwas
  cases a <;> simp only [Sys.act] at hstep <;> try cases hstep
  case pin => exact hplain s _ rfl rfl rfl htidy.2 id
  case unpin => exact hplain s _ rfl rfl rfl htidy.2 id
  case reload q =>
    split at hstep
    next hphase =>
      cases hstep
      exact hplain s _ rfl rfl rfl trivial (by simp [hphase, Phase.isAppending])
    next => cases hstep
  case reloadStat q =>
    split at hstep
    next hphase => exact hreload (by simp [hphase]) (by rw [hphase]; rfl) hstep
    next => cases hstep
  case reloadTail q =>
    cases hparty
    split at hstep
    next now hphase =>
      have hsame := hc h now hp hphase
      rw [hB.log] at hsame
      refine hreload ?_ (by rw [hphase]; rfl) hstep
      intro now' hnow'
      rw [hphase] at hnow'
      cases hnow'
      exact hsame
    next => cases hstep
  case reloadMap q =>
    split at hstep
    next hphase => exact hreload (by simp [hphase]) (by rw [hphase]; rfl) hstep
    next => cases hstep
  case reloadRead q =>
    split at hstep
    next hphase => exact hreload (by simp [hphase]) (by rw [hphase]; rfl) hstep
    next => cases hstep
  case sync q =>
    split at hstep
    next hphase =>
      cases hstep
      exact hT.stepSync hB hp hphase
    next => cases hstep
  case commit q =>
    split at hstep
    next hphase =>
      split at hstep
      next h' hstart =>
        cases hstep
        obtain ⟨r, l₁, -, rfl⟩ := startAppend_cases hstart
        exact hplain s _ rfl rfl rfl trivial fun _ => rfl
      next =>
        cases hstep
        exact hplain s _ rfl rfl rfl trivial (by simp [hphase, Phase.isAppending])
    next => cases hstep
  case transact q f =>
    split at hstep
    next hphase =>
      split at hstep
      next h' hstart =>
        cases hstep
        obtain ⟨ops, -, hstart⟩ := Option.bind_eq_some_iff.mp hstart
        obtain ⟨r, l₁, -, rfl⟩ := startAppend_cases hstart
        exact hplain s _ rfl rfl rfl trivial fun _ => rfl
      next =>
        cases hstep
        exact hplain s _ rfl rfl rfl trivial (by simp [hphase, Phase.isAppending])
    next => cases hstep
  case write q n =>
    split at hstep
    next r k origin undo hphase =>
      split_ifs at hstep
      cases hstep
      obtain ⟨-, -, k₀, -, hlk⟩ := hB.live hp
      rw [hphase] at hlk
      obtain ⟨before, -, happ, -⟩ := hlk
      have hwal : h.wal = some l.ident := happ.wal
      have hlog : (s.log.map fun l : DiskLog => if h.wal = some l.ident
          then { l with frames := l.frames ++ range (r.bytes xxh3) k n } else l)
          = some { l with frames := l.frames ++ range (r.bytes xxh3) k n } := by
        rw [hB.log, Option.map_some, if_pos hwal]
      refine ⟨{ l with frames := l.frames ++ range (r.bytes xxh3) k n }, ?_, ?_⟩
      · unfold Sys.stepWrite
        split_ifs <;> exact hlog
      · unfold Sys.stepWrite
        split_ifs
        all_goals
          refine hT.grown (range (r.bytes xxh3) k n) ?_ ?_ ?_ hp ?_ ?_ <;> rfl
    next => cases hstep
  case complete q =>
    split at hstep
    next r k origin undo hphase =>
      split_ifs at hstep with hk
      cases hstep
      subst hk
      obtain ⟨hB', -⟩ := hB.stepComplete hp hphase
      obtain ⟨-, -, k₀, -, hlk⟩ := hB'.live (setParty_self _ _ _)
      have hseen := hlk.2.seenTidy
      refine ⟨l, hB.log, hT.setParty ?_ ?_ (.inr (.inr ?_))⟩
      · rfl
      · exact ⟨hseen, trivial⟩
      have hframes : l.frames = bytesOf xxh3 (s.world fold b l).logged := hlk.2.frames
      have hscan := (scan_frames hB.disk.rising_logged (torn_nil xxh3)).2
      rw [List.append_nil, ← hframes] at hscan
      rw [hscan, hframes, length_bytesOf]
    next => cases hstep
  case fail q => exact absurd hc id
  case compactBase q =>
    split at hstep
    next hphase =>
      cases hstep
      exact hplain _ _ rfl rfl rfl trivial (by simp [hphase, Phase.isAppending])
    next => cases hstep
  case compactLog q =>
    split at hstep
    next applied b' hphase hbase =>
      rw [hB.base] at hbase
      cases hbase
      cases hstep
      exact Tidy.stepCompactLog hB
    next => cases hstep
  case acquire q =>
    split at hstep
    next hphase _ =>
      cases hstep
      exact hplain _ _ rfl rfl rfl trivial (by simp [hphase, Phase.isAppending])
    next => cases hstep
  case resume q =>
    split at hstep
    next hphase _ =>
      cases hstep
      exact hplain _ _ rfl rfl rfl trivial (by simp [hphase, Phase.isAppending])
    next => cases hstep
  all_goals
    split at hstep <;> try cases hstep
  all_goals
    next hphase =>
      refine hplain _ _ rfl rfl rfl ?_ ?_ <;> simp [hphase, PhaseTidy, Phase.isAppending]

theorem Tidy.step (hT : Tidy xxh3 l s) (hB : Born xxh3 s fold b l) {a : Act} (hc : Calm s a)
    (hstep : s.step xxh3 a = some s') : ∃ l', s'.log = some l' ∧ Tidy xxh3 l' s' := by
  have hcreating : ∀ p, s.parties p ≠ .creating := by
    intro p hp
    have h := hB.parties p
    rw [hp] at h
    exact h
  have hopen : ∀ p phase, s.parties p = .opening phase →
      (s.stepOpen xxh3 phase).map (s.setParty p) = some s' →
      ∃ l', s'.log = some l' ∧ Tidy xxh3 l' s' := by
    intro p phase hp hr
    obtain ⟨x, hx, rfl⟩ := Option.map_eq_some_iff.mp hr
    exact ⟨l, hB.log, hT.setParty rfl (hT.stepOpen hB hp hx) (.inl (by simp [hp]))⟩
  cases a with
  | create p =>
    simp only [Sys.step] at hstep
    split at hstep
    next hp _ hbase =>
      rw [hB.base] at hbase
      cases hbase
    next => cases hstep
  | layLog p =>
    simp only [Sys.step] at hstep
    split at hstep
    next hp _ => exact absurd hp (hcreating p)
    next => cases hstep
  | layBase p =>
    simp only [Sys.step] at hstep
    split at hstep
    next hp _ => exact absurd hp (hcreating p)
    next => cases hstep
  | openBase p =>
    simp only [Sys.step] at hstep
    split at hstep
    next hp =>
      cases hstep
      exact ⟨l, hB.log, hT.setParty rfl trivial (.inl (by simp [hp]))⟩
    next => cases hstep
  | openLog p =>
    simp only [Sys.step] at hstep
    split at hstep
    next hp => exact hopen p _ hp hstep
    next => cases hstep
  | openMap p =>
    simp only [Sys.step] at hstep
    split at hstep
    next hp => exact hopen p _ hp hstep
    next => cases hstep
  | openRead p =>
    simp only [Sys.step] at hstep
    split at hstep
    next hp => exact hopen p _ hp hstep
    next => cases hstep
  | dropLock =>
    simp only [Sys.step] at hstep
    split_ifs at hstep
    cases hstep
    exact ⟨l, hB.log, hT.parties, hT.whole⟩
  | crash p =>
    simp only [Sys.step] at hstep
    cases hstep
    refine ⟨l, hB.log, hT.setParty ?_ ?_ (.inl hc)⟩
    · rfl
    · trivial
  | _ =>
    simp only [Sys.step, Sys.party] at hstep
    split at hstep
    next h hp => exact hT.act hB hp rfl hc hstep
    next => cases hstep

end born

/-! ## Runs -/

section runs
variable {xxh3 : Bytes → UInt64} {s s' : Sys}

/-- The invariant, with every party tidy. -/
def CalmInv (xxh3 : Bytes → UInt64) (s : Sys) : Prop :=
  Inv xxh3 s ∧ ∀ l, s.log = some l → Tidy xxh3 l s

/-- Before the store exists there is nothing to trust. -/
theorem Unborn.tidy (hU : Unborn s) {t : Sys}
    (ht : ∀ p, t.parties p = s.parties p ∨ t.parties p = .out) {l : DiskLog}
    (hl : l.frames = []) : Tidy xxh3 l t where
  parties := by
    intro p
    rcases ht p with h | h
    · rw [h]
      rcases hU.parties p with h | ⟨h, -⟩ | h | h <;> rw [h]
      · trivial
      · trivial
      · trivial
      · exact stampTidy_none
    · rw [h]
      trivial
  whole := by
    intro _
    rw [hl]
    exact (torn_nil xxh3).scan_stop

theorem CalmInv.step (hI : CalmInv xxh3 s) {a : Act} (hc : Calm s a)
    (hstep : s.step xxh3 a = some s') : CalmInv xxh3 s' ∧ Regular xxh3 s a := by
  obtain ⟨hU | ⟨fold, b, l, hB⟩, hT⟩ := hI
  · have hreg : Regular xxh3 s a := by
      cases a with
      | sync p => exact fun h hp => absurd hp (hU.not_live p h)
      | reloadTail p => exact hc
      | fail p => exact absurd hc id
      | _ => trivial
    refine ⟨⟨Inv.step (.inl hU) hreg hstep, ?_⟩, hreg⟩
    intro l hl
    rcases @Unborn.step xxh3 _ _ hU _ hstep with hU' | ⟨fold, b, l', hB', hframes, hparties⟩
    · exact hU'.tidy (fun _ => .inl rfl) (hU'.log l hl).2.1
    · rw [hB'.log] at hl
      cases hl
      exact hU.tidy hparties hframes
  · have hreg := Calm.regular hB (hT l hB.log) hc
    refine ⟨⟨.inr (hB.step hreg hstep).1, ?_⟩, hreg⟩
    obtain ⟨l', hl', hT'⟩ := (hT l hB.log).step hB hc hstep
    intro l₁ hl₁
    rw [hl'] at hl₁
    cases hl₁
    exact hT'

theorem calmInv_init (xxh3 : Bytes → UInt64) : CalmInv xxh3 Sys.init :=
  ⟨inv_init xxh3, by rintro l ⟨⟩⟩

/-- Every state of a calm run. -/
theorem CalmInv.run {as : List Act} (h : Run (Sys.step xxh3) Calm Sys.init as s) :
    CalmInv xxh3 s :=
  h.invariant (calmInv_init xxh3) fun _ _ _ hI hc hstep => (hI.step hc hstep).1

end runs

end GraphR.Multi
