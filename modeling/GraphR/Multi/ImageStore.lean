import GraphR.Library.Run
import GraphR.Multi.Moment

/-! # Image stores

    A store served from memory is kept current by handing it images: a base and
    a log, or a log alone, fetched at some moment of the writer's history. A log
    of the served generation only adds what is not served, and so does a pair
    that cannot be installed because snapshots pin every other slot; a pair of
    another generation that finds a free slot is installed as it is. Whether a
    run of reloads ever goes back is decided there. -/

namespace GraphR.Multi

open Wal ByteLib RunLib

/-! ## The calls -/

/-- `newer_image()`. -/
def newerImage : Error := .busy "log image is newer than its base; fetch the base again"

section calls
variable (xxh3 : Bytes → UInt64)

/-- `Store::open_image`. -/
def openImage (base : DiskBase) (log : Option DiskLog) : Except Error Ring := do
  let built ← buildGeneration xxh3 base log
  if built.log = .newer then .error newerImage else .ok (.of built.gen)

/-- `Store::reload_image`, of a store that is read-only. -/
def reloadImage (r : Ring) (base : Option DiskBase) (log : Option DiskLog) : Except Error Ring :=
  match base with
  | some b => do
    match ← installOrApply xxh3 r b log with
    | some a => .ok a.ring
    | none => .error newerImage
  | none => do
    match ← applyLog xxh3 r log with
    | some (r', _) => .ok r'
    | none => .error (.format "log image belongs to another generation; pass its base")

/-- What happens to an image store: a reload, a snapshot taken of what is
    served, a snapshot dropped. -/
inductive ImageStep where
  | reload (base : Option DiskBase) (log : Option DiskLog)
  | snapshot
  | drop (slot : Fin 4)

/-- The store after a step; a reload that fails leaves it as it was. -/
def imageStep (r : Ring) : ImageStep → Ring
  | .reload base log =>
    match reloadImage xxh3 r base log with
    | .ok r' => r'
    | .error _ => r
  | .snapshot => r.pin
  | .drop slot => r.unpin slot

end calls

/-! ## Images of one history -/

/-- One writer's history: its records, and how many of them the base of each
    generation has folded. -/
structure Past where
  hist : List SealedRecord
  fold : Nat → Nat
  rising : Rising hist
  mono : Monotone fold

/-- The images of a call were taken at moments of the history. -/
def ImageStep.Taken (xxh3 : Bytes → UInt64) (p : Past) : ImageStep → Prop
  | .reload base log =>
    (∀ b ∈ base, Folds p.hist p.fold b) ∧ ∀ l ∈ log, ∃ n, LogAt xxh3 p.hist p.fold n l
  | _ => True

/-- Neither the generation nor the last visible number is lower in `r'`, and no
    op is missing. -/
structure KeepsUp (r r' : Ring) : Prop where
  generation : r.served.base.generation ≤ r'.served.base.generation
  lastSeq : r.served.servedSeq ≤ r'.served.servedSeq
  ops : r.served.view.ops <+: r'.served.view.ops

theorem KeepsUp.refl (r : Ring) : KeepsUp r r := ⟨le_rfl, le_rfl, List.prefix_refl _⟩

theorem KeepsUp.trans {r s t : Ring} (h : KeepsUp r s) (h' : KeepsUp s t) : KeepsUp r t :=
  ⟨h.generation.trans h'.generation, h.lastSeq.trans h'.lastSeq, h.ops.trans h'.ops⟩

/-! ## When a call does not go back -/

section ahead
variable (xxh3 : Bytes → UInt64)

/-- The ops of the base's own log fit an empty overlay. -/
def Fits (b : DiskBase) (l : DiskLog) : Prop :=
  let frames := l.frames.take (scan xxh3 l.frames 0 none).stop
  let new := Gen.newOps b.applied (records frames 0 frames.length)
  new = 0 ∨ (Gen.mk b [] 0).reserve new (headerLen + frames.length) = true

/-- The pair can be loaded: its log is not newer than its base, and fits. -/
def Loads (b : DiskBase) (log : Option DiskLog) : Prop :=
  ∀ l ∈ log, l.generation ≤ b.generation ∧ (l.generation = b.generation → Fits xxh3 b l)

/-- The last number a pair holds: its base's, or that of the base's own log. -/
def pairSeq (b : DiskBase) (log : Option DiskLog) : Nat :=
  match log with
  | none => b.applied
  | some l =>
    if l.generation = b.generation then
      ((scan xxh3 l.frames 0 none).lastSeq.map fun s => max s b.applied).getD b.applied
    else b.applied

/-- A base of another generation that would be installed is not behind what is
    served, and neither is the pair. -/
def Ahead (r : Ring) : ImageStep → Prop
  | .reload (some b) log =>
    b.generation ≠ r.served.base.generation → r.free.isSome = true → Loads xxh3 b log →
      r.served.base.generation < b.generation ∧ r.served.servedSeq ≤ pairSeq xxh3 b log
  | _ => True

end ahead

/-! ## One call -/

/-- The store serves a base of the history and shows its first `k` records. -/
structure Shows (p : Past) (r : Ring) (k : Nat) : Prop where
  folds : Folds p.hist p.fold r.served.base
  serves : r.served.Serves p.hist p.fold k

section calls
variable {xxh3 : Bytes → UInt64} {p : Past}

theorem Shows.servedSeq {r : Ring} {k : Nat} (h : Shows p r k) :
    r.served.servedSeq = endSeq (p.hist.take k) :=
  h.serves.servedSeq h.folds p.rising

/-- More records of the same base are no step back. -/
theorem Shows.keepsUp {r r' : Ring} {k k' : Nat} (h : Shows p r k) (h' : Shows p r' k')
    (hgen : r.served.base.generation ≤ r'.served.base.generation) (hk : k ≤ k') : KeepsUp r r' := by
  refine ⟨hgen, ?_, ?_⟩
  · rw [h.servedSeq, h'.servedSeq]
    exact p.rising.endSeq_mono hk
  · rw [h.serves.view_ops h.folds, h'.serves.view_ops h'.folds]
    have hsplit : p.hist.take k' = p.hist.take k ++ (p.hist.take k').drop k := by
      conv_lhs => rw [← List.take_append_drop k (p.hist.take k')]
      rw [List.take_take, Nat.min_eq_left hk]
    rw [hsplit, opsOf_append]
    exact List.prefix_append _ _

/-- A publication into an empty overlay. -/
theorem publishAbove_fits {b : DiskBase} {l : DiskLog} :
    Fits xxh3 b l ↔ ∃ gc, (Gen.mk b [] 0).publishAbove b.applied
      (l.frames.take (scan xxh3 l.frames 0 none).stop) headerLen = .ok gc := by
  unfold Fits Gen.publishAbove
  simp only
  split_ifs with hnone hroom
  · exact ⟨fun _ => ⟨_, rfl⟩, fun _ => .inl hnone⟩
  · exact ⟨fun _ => ⟨_, rfl⟩, fun _ => .inr hroom⟩
  · constructor
    · rintro (h | h)
      · exact absurd h hnone
      · exact absurd h hroom
    · rintro ⟨gc, h⟩
      cases h

/-- What was loaded could be. -/
theorem loads_of_build {b : DiskBase} {log : Option DiskLog} {built : Built}
    (hr : buildGeneration xxh3 b log = .ok built) (hne : built.log ≠ .newer) :
    Loads xxh3 b log := by
  rintro l hl
  cases hl
  unfold buildGeneration at hr
  simp only at hr
  split_ifs at hr with hnewer hstale
  · cases hr
    exact absurd rfl hne
  · exact ⟨by omega, fun hgen => by omega⟩
  · refine ⟨by omega, fun _ => publishAbove_fits.mpr ?_⟩
    rw [FaultLib.bind_ok] at hr
    obtain ⟨stop, hstop, hr⟩ := hr
    unfold wholeEnd at hstop
    split at hstop
    · cases hstop
    · cases hstop
      split at hr
      · cases hr
      · next g c hpub => exact ⟨_, hpub⟩

section taken
variable {b : DiskBase} {log : Option DiskLog} (hb : Folds p.hist p.fold b)
  (hlog : ∀ l ∈ log, ∃ n, LogAt xxh3 p.hist p.fold n l)
include hb hlog

omit hb in
/-- A pair of images that can be loaded is. -/
theorem build_of_loads (h : Loads xxh3 b log) :
    ∃ built, buildGeneration xxh3 b log = .ok built ∧ built.log ≠ .newer := by
  unfold buildGeneration
  cases log with
  | none => exact ⟨_, rfl, by simp⟩
  | some l =>
    obtain ⟨hle, hfits⟩ := h l rfl
    obtain ⟨n, hl⟩ := hlog l rfl
    simp only
    rw [if_neg (by omega)]
    split_ifs with hstale
    · exact ⟨_, rfl, by simp⟩
    · obtain ⟨tail, htorn, hframes⟩ := hl.frames
      have hrun := (p.rising.take n).drop (p.fold l.generation)
      obtain ⟨gc, hpub⟩ := publishAbove_fits.mp (hfits (by omega))
      have hend := wholeEnd_frames hrun htorn
      rw [← hframes] at hend
      have hstop := (scan_frames hrun htorn).2
      rw [← hframes] at hstop
      rw [hstop] at hpub
      simp only [hend, bind, Except.bind, hpub]
      exact ⟨_, rfl, by simp⟩

/-- Its generation shows the records up to the pair's last number. -/
theorem build_spec {built : Built} (hr : buildGeneration xxh3 b log = .ok built)
    (hne : built.log ≠ .newer) :
    built.gen.base = b ∧ ∃ m, built.gen.Serves p.hist p.fold m ∧
      pairSeq xxh3 b log = endSeq (p.hist.take m) ∧
      (built.gen.segs = 0 → m = p.fold b.generation) ∧
      (built.gen.segs ≠ 0 → ∀ l ∈ log, LogAt xxh3 p.hist p.fold m l ∧
        l.generation = b.generation ∧
        l.frames.take (built.goodLen - headerLen)
          = bytesOf xxh3 ((p.hist.take m).drop (p.fold l.generation))) := by
  cases log with
  | none =>
    cases hr
    refine ⟨rfl, p.fold b.generation, ⟨le_rfl, hb.le, by simp⟩, hb.applied, fun _ => rfl, ?_⟩
    intro _ l hl
    cases hl
  | some l =>
    obtain ⟨n, hl⟩ := hlog l rfl
    obtain ⟨hbase, hcase⟩ := hl.buildGeneration p.rising hb hr hne
    refine ⟨hbase, ?_⟩
    rcases hcase with ⟨hgen, hserves, hsegs, -, -, hlen⟩ | ⟨hstale, hserves, hsegs, -⟩
    · obtain ⟨tail, htorn, hframes⟩ := hl.frames
      have hrun := (p.rising.take n).drop (p.fold l.generation)
      refine ⟨n, hserves, ?_, hsegs, ?_⟩
      · have hge := hl.ge
        rw [hgen] at hge
        simp only [pairSeq, if_pos hgen]
        rw [hframes, lastSeq_frames hrun htorn, hgen, hb.applied]
        exact max_endSeq p.rising hge
      · rintro - l' hl'
        cases hl'
        refine ⟨hl, hgen, ?_⟩
        rw [hlen, Nat.add_sub_cancel_left, hframes, take_bytesOf]
    · refine ⟨p.fold b.generation, hserves, ?_, fun _ => rfl, fun hne => absurd hsegs hne⟩
      simp only [pairSeq, if_neg (show ¬l.generation = b.generation by omega)]
      exact hb.applied

end taken

/-- A reload that succeeds: more records of the served base, or the pair
    installed as it is. -/
theorem reload_spec {r r' : Ring} {k : Nat} (h : Shows p r k) {base : Option DiskBase}
    {log : Option DiskLog} (htaken : (ImageStep.reload base log).Taken xxh3 p)
    (hr : reloadImage xxh3 r base log = .ok r') :
    (r'.served.base = r.served.base ∧ ∃ k', k ≤ k' ∧ Shows p r' k') ∨
      ∃ b m, base = some b ∧ b.generation ≠ r.served.base.generation ∧ r.free.isSome = true ∧
        Loads xxh3 b log ∧ r'.served.base = b ∧ Shows p r' m ∧
        pairSeq xxh3 b log = endSeq (p.hist.take m) := by
  obtain ⟨hbase, hlog⟩ := htaken
  -- a log of the served generation
  have happly : ∀ {r'' : Ring} {pos : Nat}, applyLog xxh3 r log = .ok (some (r'', pos)) →
      r''.served.base = r.served.base ∧ ∃ k', k ≤ k' ∧ Shows p r'' k' := by
    intro r'' pos ha
    cases log with
    | none =>
      cases ha
      exact ⟨rfl, k, le_rfl, h⟩
    | some l =>
      obtain ⟨n, hl⟩ := hlog l rfl
      obtain ⟨-, hsame, hserves, -⟩ := hl.applyLog p.rising h.serves h.folds ha
      exact ⟨hsame, _, Nat.le_max_left k n, ⟨by rw [hsame]; exact h.folds, hserves⟩⟩
  unfold reloadImage at hr
  cases base with
  | none =>
    rw [FaultLib.bind_ok] at hr
    obtain ⟨res, hres, hr⟩ := hr
    cases res with
    | none => cases hr
    | some rp =>
      cases hr
      exact .inl (happly hres)
  | some b =>
    have hb := hbase b rfl
    rw [FaultLib.bind_ok] at hr
    obtain ⟨res, hres, hr⟩ := hr
    cases res with
    | none => cases hr
    | some a =>
      cases hr
      unfold installOrApply at hres
      by_cases hgen : b.generation = r.served.base.generation
      · rw [if_pos hgen, FaultLib.bind_ok] at hres
        obtain ⟨res, ha, hres⟩ := hres
        cases res with
        | some rp =>
          cases hres
          exact .inl (happly ha)
        | none =>
          simp only at hres
          split_ifs at hres with hnewer
          · cases hres
          · cases hres
            exact .inl ⟨rfl, k, le_rfl, h⟩
      · rw [if_neg hgen, FaultLib.bind_ok] at hres
        obtain ⟨built, hbuilt, hres⟩ := hres
        simp only at hres
        by_cases hnewer : built.log = .newer
        · rw [if_pos hnewer] at hres
          cases hres
        rw [if_neg hnewer] at hres
        obtain ⟨hbbase, m, hserves, hseq, hnoseg, hseg⟩ := build_spec hb hlog hbuilt hnewer
        cases hinstall : r.install built.gen with
        | some r' =>
          rw [hinstall] at hres
          cases hres
          have hserved := Ring.served_install hinstall
          refine .inr ⟨b, m, rfl, hgen, ?_, loads_of_build hbuilt hnewer, ?_, ⟨?_, ?_⟩, hseq⟩
          · obtain ⟨i, hi, -⟩ := Option.map_eq_some_iff.mp hinstall
            rw [hi]
            rfl
          · rw [hserved, hbbase]
          · rw [hserved, hbbase]
            exact hb
          · rw [hserved]
            exact hserves
        | none =>
          -- every other slot is pinned
          rw [hinstall] at hres
          simp only at hres
          by_cases hmissed : r.served.servedSeq < b.applied
          · rw [if_pos hmissed] at hres
            cases hres
          rw [if_neg hmissed] at hres
          by_cases hzero : built.gen.segs = 0
          · rw [if_pos hzero] at hres
            cases hres
            exact .inl ⟨rfl, k, le_rfl, h⟩
          rw [if_neg hzero] at hres
          cases log with
          | none =>
            cases hres
            exact .inl ⟨rfl, k, le_rfl, h⟩
          | some l =>
            obtain ⟨hl, hlgen, hframes⟩ := hseg hzero l rfl
            have hfold : p.fold l.generation + 0 ≤ k := by
              rw [hlgen, Nat.add_zero]
              by_contra hlt
              rw [h.servedSeq, hb.applied] at hmissed
              exact hmissed (p.rising.endSeq_lt_of_lt (by omega) hb.le)
            simp only at hres
            rw [FaultLib.bind_ok] at hres
            obtain ⟨⟨g, c⟩, hpub, hres⟩ := hres
            cases hres
            rw [hframes] at hpub
            obtain ⟨hgbase, hgserves⟩ := hl.publishNew p.rising h.serves h.folds hfold hpub
            refine .inl ⟨?_, _, Nat.le_max_left k m, ⟨?_, ?_⟩⟩
            · rw [Ring.served_serve, hgbase]
            · rw [Ring.served_serve, hgbase]
              exact h.folds
            · rw [Ring.served_serve]
              exact hgserves

/-- A pair of another generation that can be loaded and finds a free slot is
    served as it is. -/
theorem reload_installs {r : Ring} {b : DiskBase} {log : Option DiskLog}
    (htaken : (ImageStep.reload (some b) log).Taken xxh3 p)
    (hgen : b.generation ≠ r.served.base.generation) (hfree : r.free.isSome = true)
    (hloads : Loads xxh3 b log) :
    ∃ r', reloadImage xxh3 r (some b) log = .ok r' ∧ r'.served.base = b ∧
      r'.served.servedSeq = pairSeq xxh3 b log := by
  obtain ⟨hbase, hlog⟩ := htaken
  have hb := hbase b rfl
  obtain ⟨built, hbuilt, hnewer⟩ := build_of_loads hlog hloads
  obtain ⟨hbbase, m, hserves, hseq, -⟩ := build_spec hb hlog hbuilt hnewer
  obtain ⟨i, hi⟩ := Option.isSome_iff_exists.mp hfree
  obtain ⟨r', hinstall⟩ : ∃ r', r.install built.gen = some r' := by
    unfold Ring.install
    rw [hi]
    exact ⟨_, rfl⟩
  have hserved := Ring.served_install hinstall
  refine ⟨r', ?_, by rw [hserved, hbbase], ?_⟩
  · unfold reloadImage installOrApply
    simp only [if_neg hgen, hbuilt, bind, Except.bind, if_neg hnewer, hinstall]
  · rw [hserved, hserves.servedSeq (by rw [hbbase]; exact hb) p.rising, hseq]

/-! ## Runs -/

theorem imageStep_ok {r r' : Ring} {base : Option DiskBase} {log : Option DiskLog}
    (hr : reloadImage xxh3 r base log = .ok r') : imageStep xxh3 r (.reload base log) = r' := by
  simp only [imageStep, hr]

theorem imageStep_error {r : Ring} {base : Option DiskBase} {log : Option DiskLog} {e : Error}
    (hr : reloadImage xxh3 r base log = .error e) : imageStep xxh3 r (.reload base log) = r := by
  simp only [imageStep, hr]

section step
variable {r : Ring} {k : Nat} (h : Shows p r k)
include h

/-- Only what is served matters. -/
theorem Shows.congr {r' : Ring} (hserved : r'.served = r.served) : Shows p r' k :=
  ⟨by rw [hserved]; exact h.folds, by rw [hserved]; exact h.serves⟩

/-- Whatever comes next, the store shows a beginning of the history. -/
theorem Shows.step {e : ImageStep} (htaken : e.Taken xxh3 p) :
    ∃ k', Shows p (imageStep xxh3 r e) k' := by
  cases e with
  | snapshot => exact ⟨k, h.congr (Ring.served_pin r)⟩
  | drop slot => exact ⟨k, h.congr (Ring.served_unpin r slot)⟩
  | reload base log =>
    cases hr : reloadImage xxh3 r base log with
    | error e => exact ⟨k, by rwa [imageStep_error hr]⟩
    | ok r' =>
      rw [imageStep_ok hr]
      rcases reload_spec h htaken hr with ⟨-, k', -, h'⟩ | ⟨-, m, -, -, -, -, -, h', -⟩
      · exact ⟨k', h'⟩
      · exact ⟨m, h'⟩

/-- A step does not go back if and only if what it installs is ahead. -/
theorem Shows.keepsUp_iff {e : ImageStep} (htaken : e.Taken xxh3 p) :
    KeepsUp r (imageStep xxh3 r e) ↔ Ahead xxh3 r e := by
  have hsame : ∀ {r' : Ring}, r'.served = r.served → KeepsUp r r' := by
    intro r' hserved
    exact h.keepsUp (h.congr hserved) (by rw [hserved]) le_rfl
  constructor
  · intro hup
    cases e with
    | snapshot => trivial
    | drop slot => trivial
    | reload base log =>
      cases base with
      | none => trivial
      | some b =>
        intro hgen hfree hloads
        obtain ⟨r', hr, hbase, hseq⟩ := reload_installs htaken hgen hfree hloads
        rw [imageStep_ok hr] at hup
        have hle := hup.generation
        rw [hbase] at hle
        exact ⟨by omega, hseq ▸ hup.lastSeq⟩
  · intro hahead
    cases e with
    | snapshot => exact hsame (Ring.served_pin r)
    | drop slot => exact hsame (Ring.served_unpin r slot)
    | reload base log =>
      cases hr : reloadImage xxh3 r base log with
      | error e =>
        rw [imageStep_error hr]
        exact .refl r
      | ok r' =>
        rw [imageStep_ok hr]
        rcases reload_spec h htaken hr with
          ⟨hbase, k', hk, h'⟩ | ⟨b, m, rfl, hgen, hfree, hloads, hbase, h', hseq⟩
        · exact h.keepsUp h' (by rw [hbase]) hk
        · -- installed: the pair's number says how much it shows
          obtain ⟨hlt, hle⟩ := hahead hgen hfree hloads
          rw [h.servedSeq, hseq] at hle
          refine h.keepsUp h' (by rw [hbase]; exact hlt.le) ?_
          by_contra hmk
          have := p.rising.endSeq_lt_of_lt (Nat.lt_of_not_le hmk) h.serves.le
          omega

end step

/-- Every state of a run shows a beginning of the history. -/
theorem shows_foldl {r : Ring} {k : Nat} (h : Shows p r k) {evs : List ImageStep}
    (hevs : ∀ e ∈ evs, e.Taken xxh3 p) : ∃ k', Shows p (evs.foldl (imageStep xxh3) r) k' := by
  induction evs generalizing r k with
  | nil => exact ⟨k, h⟩
  | cons e evs ih =>
    obtain ⟨k', h'⟩ := h.step (hevs e (by simp))
    exact ih h' fun t ht => hevs t (by simp [ht])

/-- What `open_image` serves. -/
theorem shows_openImage {b : DiskBase} {log : Option DiskLog} {r : Ring}
    (htaken : (ImageStep.reload (some b) log).Taken xxh3 p) (hr : openImage xxh3 b log = .ok r) :
    ∃ k, Shows p r k := by
  obtain ⟨hbase, hlog⟩ := htaken
  unfold openImage at hr
  rw [FaultLib.bind_ok] at hr
  obtain ⟨built, hbuilt, hr⟩ := hr
  split_ifs at hr with hnewer
  cases hr
  obtain ⟨hbbase, m, hserves, -⟩ := build_spec (hbase b rfl) hlog hbuilt hnewer
  exact ⟨m, by rw [Ring.served_of, hbbase]; exact hbase b rfl, by rwa [Ring.served_of]⟩

/-- In a run of an image store on images of one history, taken at any moments
    and handed over in any order, with or without the base, while snapshots come
    and go: of every two states the later has no lower generation, no lower last
    number and no op missing, if and only if every base of another generation
    that can be loaded and finds a free slot is of a higher generation than the
    served one and, with its log, reaches at least as far as what is served. -/
theorem image_keepsUp_iff {b : DiskBase} {log : Option DiskLog} {r : Ring} {evs : List ImageStep}
    (htaken : (ImageStep.reload (some b) log).Taken xxh3 p) (hr : openImage xxh3 b log = .ok r)
    (hevs : ∀ e ∈ evs, e.Taken xxh3 p) :
    (evs.scanl (imageStep xxh3) r).Pairwise KeepsUp ↔
      ∀ pre e post, evs = pre ++ e :: post → Ahead xxh3 (pre.foldl (imageStep xxh3) r) e := by
  have hpairs := @pairwise_scanl_iff _ _ (imageStep xxh3) KeepsUp (fun _ _ _ => KeepsUp.trans) evs r
  rw [hpairs]
  obtain ⟨k, h⟩ := shows_openImage htaken hr
  have hstep : ∀ pre e post, evs = pre ++ e :: post →
      (KeepsUp (pre.foldl (imageStep xxh3) r) (imageStep xxh3 (pre.foldl (imageStep xxh3) r) e) ↔
        Ahead xxh3 (pre.foldl (imageStep xxh3) r) e) := by
    rintro pre e post rfl
    have hpre : ∀ t ∈ pre, t.Taken xxh3 p := by
      intro t ht
      exact hevs t (List.mem_append_left _ ht)
    obtain ⟨k', h'⟩ := shows_foldl h hpre
    exact h'.keepsUp_iff (hevs e (by simp))
  constructor
  · intro hup pre e post heq
    exact (hstep pre e post heq).mp (hup pre e post heq)
  · intro hahead pre e post heq
    exact (hstep pre e post heq).mpr (hahead pre e post heq)

end calls

/-! ### One commit, then a compaction -/

section compacted
variable (xxh3 : Bytes → UInt64)

theorem firstNumber_ne_zero : (1 : UInt64) ≠ 0 := by decide

/-- One removal, committed as number 1. -/
def removed : SealedRecord := removeRecord 1 9 firstNumber_ne_zero

/-- The history: the removal goes to the log of generation 1, and base 2 has
    folded it. -/
def compactedOnce : Past where
  hist := [removed]
  fold g := if g ≤ 1 then 0 else 1
  rising := List.isChain_singleton _
  mono := by
    intro a b hab
    by_cases ha : a ≤ 1
    · simp [ha]
    · have hb : ¬b ≤ 1 := fun hb => ha (le_trans hab hb)
      simp [ha, hb]

/-- The base and the log before the removal. -/
def pairBefore : ImageStep := .reload (some ⟨0, 1, 0, []⟩) (some ⟨1, 1, []⟩)

/-- The base and the log after the compaction. -/
def pairAfter : ImageStep := .reload (some ⟨2, 2, 1, [removed.seqOps]⟩) (some ⟨3, 2, []⟩)

theorem taken_pairBefore : pairBefore.Taken xxh3 compactedOnce := by
  refine ⟨?_, ?_⟩
  · rintro b hb
    cases hb
    exact ⟨by simp [compactedOnce], by simp [compactedOnce], by simp [compactedOnce]⟩
  · rintro l hl
    cases hl
    exact ⟨0, by simp [compactedOnce], by simp, [], torn_nil xxh3, by simp⟩

theorem taken_pairAfter : pairAfter.Taken xxh3 compactedOnce := by
  refine ⟨?_, ?_⟩
  · rintro b hb
    cases hb
    exact ⟨by simp [compactedOnce], by simp [compactedOnce, opsOf], rfl⟩
  · rintro l hl
    cases hl
    exact ⟨1, by simp [compactedOnce], by simp [compactedOnce], [], torn_nil xxh3,
      by simp [compactedOnce]⟩

theorem openImage_before :
    openImage xxh3 ⟨0, 1, 0, []⟩ (some ⟨1, 1, []⟩) = .ok (.of ⟨⟨0, 1, 0, []⟩, [], 0⟩) := rfl

theorem openImage_after :
    openImage xxh3 ⟨2, 2, 1, [removed.seqOps]⟩ (some ⟨3, 2, []⟩)
      = .ok (.of ⟨⟨2, 2, 1, [removed.seqOps]⟩, [], 0⟩) := rfl

end compacted

/-- The pair after the compaction, then the pair from before it: generation 2
    with the removal goes back to generation 1 without it. -/
theorem image_goes_back :
    ∃ (p : Past) (r : Ring),
      pairAfter.Taken (fun _ => 7) p ∧ pairBefore.Taken (fun _ => 7) p ∧
      openImage (fun _ => 7) ⟨2, 2, 1, [removed.seqOps]⟩ (some ⟨3, 2, []⟩) = .ok r ∧
      r.served.base.generation = 2 ∧ r.served.servedSeq = 1 ∧
      (imageStep (fun _ => 7) r pairBefore).served.base.generation = 1 ∧
      (imageStep (fun _ => 7) r pairBefore).served.servedSeq = 0 ∧
      r.served.view.ops ≠ [] ∧ (imageStep (fun _ => 7) r pairBefore).served.view.ops = [] := by
  refine ⟨compactedOnce, _, taken_pairAfter _, taken_pairBefore _, openImage_after _, rfl, rfl, rfl,
    rfl, ?_, rfl⟩
  decide +kernel

/-- The same two pairs in order. -/
theorem image_keepsUp_in_order :
    ([pairAfter, .snapshot].scanl (imageStep fun _ => 7) (.of ⟨⟨0, 1, 0, []⟩, [], 0⟩)).Pairwise
      KeepsUp := by
  have hevs : ∀ e ∈ [pairAfter, .snapshot], e.Taken (fun _ => 7) compactedOnce := by
    intro e he
    rcases List.mem_pair.mp he with rfl | rfl
    · exact taken_pairAfter _
    · trivial
  refine (image_keepsUp_iff (taken_pairBefore _) (openImage_before _) hevs).mpr ?_
  intro pre e post heq
  match pre, heq with
  | [], heq =>
    cases heq
    intro _ _ _
    exact ⟨by decide, by decide⟩
  | [_], heq =>
    cases heq
    trivial
  | _ :: _ :: _, heq => simp at heq

end GraphR.Multi
