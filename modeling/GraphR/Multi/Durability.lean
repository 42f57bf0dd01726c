import GraphR.Multi.Safety

/-! # Committed transactions and the files

    What a fresh open of the directory finds after every step of a regular run:
    the committed records, each whole and once, in commit order. And what holds
    of every handle when appends may fail and be cut back.

    Two runs show what the windows of `Regular` let through: a stamp that names
    another log of the same length, and a record that was read before it was
    taken back. -/

namespace GraphR.Multi

open Wal ByteLib RunLib

section open_
variable (xxh3 : Bytes → UInt64)

/-- A fresh open succeeds at once and holds exactly the committed ops, in commit
    order and strictly ascending. -/
def FreshOpen (s : Sys) : Prop :=
  ∀ b, s.base = some b → ∃ built, buildGeneration xxh3 b s.log = .ok built ∧
    built.log ≠ .newer ∧ built.gen.view.ops = opsOf s.hist ∧
    (opsOf s.hist).Pairwise fun p q => p.1 < q.1

/-- The log fits an overlay segment. -/
def Short (s : Sys) : Prop := ∀ l, s.log = some l → l.len ≤ offMask

/-- The step leaves it so. -/
def KeepsShort (s : Sys) : Act → Prop
  | .write _ n => ∀ l, s.log = some l → l.len + n ≤ offMask
  | _ => True

variable {xxh3} {s s' : Sys}

theorem Short.step {a : Act} (hs : Short s) (hk : KeepsShort s a)
    (hstep : s.step xxh3 a = some s') : Short s' := by
  have hcut : ∀ pos, s'.log = s.log.map (fun l => l.cut pos) → Short s' := by
    intro pos hlog l' hl'
    rw [hlog] at hl'
    obtain ⟨l, hl, rfl⟩ := Option.map_eq_some_iff.mp hl'
    have hlen := hs l hl
    unfold DiskLog.len at hlen ⊢
    have hle : (l.cut pos).frames.length ≤ l.frames.length := List.length_take_le' _ _
    omega
  rcases step_log hstep with hlog | ⟨l, hlog, -, hframes⟩ | ⟨p, pos, hlog⟩ | ⟨p, pos, hlog⟩ |
    ⟨p, n, chunk, wal, hchunk, hlog⟩
  · intro l hl
    rw [hlog] at hl
    exact hs l hl
  · intro l' hl'
    rw [hlog] at hl'
    cases hl'
    unfold DiskLog.len
    rw [hframes]
    decide
  · exact hcut pos hlog
  · exact hcut pos hlog
  · intro l' hl'
    rw [hlog] at hl'
    obtain ⟨l, hl, rfl⟩ := Option.map_eq_some_iff.mp hl'
    have hfits := hk l hl
    split_ifs
    · unfold DiskLog.len at hfits ⊢
      simp only [List.length_append]
      omega
    · exact hs l hl

/-- The files of a store that exists open. -/
theorem Born.freshOpen {fold : Nat → Nat} {b : DiskBase} {l : DiskLog} (hB : Born xxh3 s fold b l)
    (hshort : Short s) : FreshOpen xxh3 s := by
  intro b' hb'
  rw [hB.base] at hb'
  cases hb'
  have hd := hB.disk
  have hasc := hd.rising.ops_ascending
  have hfolds := hd.folds b hd.mem
  -- it is enough that `build_generation` returns something that is not newer
  have hdone : ∀ built, buildGeneration xxh3 b (some l) = .ok built → built.log ≠ .newer →
      ∃ built, buildGeneration xxh3 b s.log = .ok built ∧ built.log ≠ .newer ∧
        built.gen.view.ops = opsOf s.hist ∧ (opsOf s.hist).Pairwise fun p q => p.1 < q.1 := by
    intro built hbuilt hnewer
    obtain ⟨hbase, hserves, -⟩ := buildGeneration_spec hd hd.mem hbuilt hnewer
    refine ⟨built, by rw [hB.log]; exact hbuilt, hnewer, ?_, hasc⟩
    have hview := hserves.view_ops (by rw [hbase]; exact hfolds)
    rw [hview]
    show opsOf (s.hist.take s.hist.length) = _
    rw [List.take_length]
  have hle : l.generation ≤ b.generation := hd.log_le
  by_cases hstale : l.generation < b.generation
  · refine hdone ⟨⟨b, [], 0⟩, b.applied + 1, headerLen, .stale⟩ ?_ (by simp)
    unfold buildGeneration
    simp only
    rw [if_neg (by omega), if_pos hstale]
  · have hgen : l.generation = b.generation := by omega
    obtain ⟨tail, htorn, hframes⟩ := hd.frames
    change l.frames = _ at hframes
    have hstart : (s.world fold b l).start = fold b.generation := by
      show fold l.generation = _
      rw [hgen]
    have hfits : headerLen + size (s.world fold b l).logged ≤ offMask := by
      have hlen := hshort l hB.log
      unfold DiskLog.len at hlen
      rw [hframes, List.length_append, length_bytesOf] at hlen
      omega
    obtain ⟨g, c, hpub⟩ : ∃ g c, (Gen.mk b [] 0).publishAbove
        (endSeq ((s.world fold b l).hist.take (s.world fold b l).start))
        (bytesOf xxh3 (s.world fold b l).logged) headerLen = .ok (g, c) :=
      publishAbove_ok hd.rising le_rfl hd.room hfits
    have happlied : b.applied = endSeq ((s.world fold b l).hist.take (s.world fold b l).start) := by
      rw [hstart]
      exact hfolds.applied
    have hbuild : ∃ built, buildGeneration xxh3 b (some l) = .ok built ∧ built.log ≠ .newer := by
      unfold buildGeneration
      simp only
      rw [if_neg (by omega), if_neg (by omega), hframes,
        wholeEnd_frames hd.rising_logged htorn]
      simp only [Except.bind, bind, take_bytesOf]
      rw [happlied, hpub]
      exact ⟨_, rfl, by simp⟩
    obtain ⟨built, hbuilt, hnewer⟩ := hbuild
    exact hdone built hbuilt hnewer

/-- After every step of a regular run whose log stays short, a fresh open
    succeeds and holds exactly the committed records. -/
theorem committed_exact {as : List Act}
    (hrun : Run (Sys.step xxh3) (fun s a => Regular xxh3 s a ∧ KeepsShort s a) Sys.init as s) :
    FreshOpen xxh3 s := by
  have hinv : Inv xxh3 s := Inv.run (hrun.mono fun _ _ h => h.1)
  have hshort : Short s := hrun.invariant (by rintro l ⟨⟩) fun _ _ _ hs hc hstep => hs.step hc.2 hstep
  rcases hinv with hU | ⟨fold, b, l, hB⟩
  · intro b hb
    rw [hU.base] at hb
    cases hb
  · exact hB.freshOpen hshort

end open_

/-! ## Runs on fixed inputs -/

section runs

/-- The op that removes document `key`. -/
def removeOp (key : UrlKey) : OpBytes := ⟨opBytes opRemove 0 key [], validOp_remove key⟩

/-- A constant in the place of the checksum function. -/
def zeroSum : Bytes → UInt64 := fun _ => 0

/-- Handle `p` is opened. -/
def openActs (p : Nat) : List Act := [.openBase p, .openLog p, .openMap p, .openRead p]

/-- A store is created and three handles are opened on it. -/
def threeHandles : List Act :=
  [.create 0, .layLog 0, .layBase 0] ++ openActs 0 ++ openActs 1 ++ openActs 2

/-- Handle `p` commits `ops` with one write of `n` bytes. -/
def commitActs (p : Nat) (ops : List OpBytes) (n : Nat) : List Act :=
  [.stage p ops, .acquire p, .sync p, .commit p, .write p n, .complete p, .release p]

/-- Handle `p` compacts. -/
def compactActs (p : Nat) : List Act :=
  [.acquire p, .sync p, .compactBase p, .compactLog p, .release p]

/-- Handle `p` reloads and finds that the log grew. -/
def reloadActs (p : Nat) : List Act := [.reload p, .reloadStat p, .reloadTail p]

/-- A sufficient check for `Regular` and `KeepsShort`. -/
def regularCheck (xxh3 : Bytes → UInt64) (s : Sys) : Act → Bool
  | .sync p =>
    match s.parties p, s.log with
    | .live h, some l => (scan xxh3 (l.tail h.seen.walPos) 0 none).stop = 0 ∨ h.seen.stamp ≠ s.stamp
    | _, _ => false
  | .reloadTail p =>
    match s.parties p with
    | .live h =>
      match h.phase with
      | .tail now => now.wal.map Prod.fst = s.log.map DiskLog.ident
      | _ => false
    | _ => false
  | .write _ n =>
    match s.log with
    | some l => l.len + n ≤ offMask
    | none => false
  | .fail p =>
    match s.parties p with
    | .live h =>
      match h.phase with
      | .appending r k _ _ => k ≠ r.len
      | _ => false
    | _ => false
  | _ => true

theorem regularCheck_sound {xxh3 : Bytes → UInt64} {s : Sys} {a : Act}
    (h : regularCheck xxh3 s a = true) : Regular xxh3 s a ∧ KeepsShort s a := by
  cases a <;> simp only [regularCheck] at h <;> constructor <;> try trivial
  case sync.left p =>
    intro h₀ hp _ hstamp _ l hl
    rw [hp, hl] at h
    simp only [decide_eq_true_eq] at h
    rcases h with h | h
    · exact h
    · exact absurd hstamp h
  case reloadTail.left p =>
    intro h₀ now hp hphase
    rw [hp] at h
    simp only [hphase, decide_eq_true_eq] at h
    exact h
  case write.right p n =>
    intro l hl
    rw [hl] at h
    simpa using h
  case fail.left p =>
    intro h₀ r origin undo hp hphase
    rw [hp] at h
    simp [hphase] at h

/-- One handle commits, a second dies 20 bytes into its record, the first reloads
    and compacts, the third commits. -/
def crashRun : List Act :=
  threeHandles ++ commitActs 0 [removeOp 1] 48 ++
    [.stage 1 [removeOp 2], .acquire 1, .sync 1, .commit 1, .write 1 20, .crash 1] ++
    compactActs 0 ++ commitActs 2 [removeOp 3] 48

theorem committed_exact_crashRun : ∃ s, run (Sys.step zeroSum) Sys.init crashRun = some s ∧
    s.hist.length = 2 ∧ FreshOpen zeroSum s := by
  have hrun : (checkedRun (Sys.step zeroSum) (regularCheck zeroSum) Sys.init crashRun).any
      (fun s => s.hist.length = 2) = true := by decide +kernel
  obtain ⟨s, hs, hlen⟩ := Option.any_eq_true _ _ |>.mp hrun
  have h := Run.of_checkedRun (fun _ _ => regularCheck_sound) hs
  exact ⟨s, h.run_eq, by simpa using hlen, committed_exact h⟩

/-- Handle 1 dies 48 bytes into a record of 64. Handle 0 has looked at the log
    then. Handle 2 cuts the torn bytes off and commits a record of 48: the log
    is as long as handle 0 saw it, and handle 0 takes the record for the torn
    bytes. -/
def sameLength : List Act :=
  threeHandles ++
    [.stage 1 [removeOp 1, removeOp 2], .acquire 1, .sync 1, .commit 1, .write 1 48] ++
    reloadActs 0 ++ [.crash 1] ++ commitActs 2 [removeOp 3] 48 ++
    [.stage 0 [removeOp 4], .acquire 0, .sync 0]

/-- The ops a fresh open holds. -/
def freshOps (xxh3 : Bytes → UInt64) (s : Sys) : Option (List SeqOp) :=
  s.base.bind fun b =>
    match buildGeneration xxh3 b s.log with
    | .ok built => some built.gen.view.ops
    | .error _ => none

theorem FreshOpen.ops_eq {xxh3 : Bytes → UInt64} {s : Sys} (h : FreshOpen xxh3 s)
    (hb : s.base.isSome) : freshOps xxh3 s = some (opsOf s.hist) := by
  obtain ⟨b, hb⟩ := Option.isSome_iff_exists.mp hb
  obtain ⟨built, hbuilt, -, hops, -⟩ := h b hb
  unfold freshOps
  rw [hb, Option.bind_some, hbuilt]
  exact congrArg some hops

/-- A commit that returned is gone. -/
theorem sameLength_loses_commit : ∃ s, run (Sys.step zeroSum) Sys.init sameLength = some s ∧
    s.acked.length = 1 ∧ freshOps zeroSum s = some [] ∧ ¬FreshOpen zeroSum s := by
  have hrun : (run (Sys.step zeroSum) Sys.init sameLength).any (fun s =>
      s.acked.length = 1 ∧ freshOps zeroSum s = some [] ∧ s.base.isSome ∧
        (opsOf s.hist).length = 1) = true := by decide +kernel
  obtain ⟨s, hs, hprop⟩ := Option.any_eq_true _ _ |>.mp hrun
  simp only [decide_eq_true_eq] at hprop
  obtain ⟨hacked, hops, hbase, hlen⟩ := hprop
  refine ⟨s, hs, hacked, hops, ?_⟩
  intro hfresh
  have heq := hfresh.ops_eq hbase
  rw [hops] at heq
  rw [← Option.some.inj heq] at hlen
  cases hlen

end runs

/-! ## Appends that fail -/

section intact
variable (xxh3 : Bytes → UInt64)

/-- Offset `pos` of the log is where its first records end. -/
def AtBoundary (hist : List SealedRecord) (l : DiskLog) (pos : Nat) : Prop :=
  ∃ rs ts tail, (rs ++ ts) <:+ hist ∧ l.frames = bytesOf xxh3 rs ++ bytesOf xxh3 ts ++ tail ∧
    Torn xxh3 tail ∧ pos = headerLen + size rs

/-- The two files hold the committed records: the base a prefix of them, the
    log of its generation the rest and behind it at most a torn record. -/
def OnDisk (s : Sys) : Prop :=
  ∀ b, s.base = some b → ∃ l n, s.log = some l ∧ n ≤ s.hist.length ∧
    b.folded.flatten = opsOf (s.hist.take n) ∧
    ((l.generation = b.generation ∧
        ∃ tail, Torn xxh3 tail ∧ l.frames = bytesOf xxh3 (s.hist.drop n) ++ tail) ∨
      (l.generation < b.generation ∧ n = s.hist.length))

/-- The offset of every handle that read it from the log in place is a record
    boundary there, whatever its stamp: it is none where the handle's own append has
    just failed. A stamp that names the log in place is such a handle's. No handle
    shows anything but committed records, and those whose commit returned are among
    them and on disk. -/
structure Intact (s : Sys) : Prop where
  boundary : ∀ p h, s.parties p = .live h → ∀ l, s.log = some l → h.source = some l.ident →
    AtBoundary xxh3 s.hist l h.seen.walPos
  stamped : ∀ p h, s.parties p = .live h → ∀ l b len, s.log = some l →
    h.seen.stamp = some ⟨b, some (l.ident, len)⟩ → h.source = some l.ident
  served : ∀ p h, s.parties p = .live h → ∃ k, h.served.view.ops = opsOf (s.hist.take k)
  acked : s.acked.Sublist s.hist
  onDisk : OnDisk xxh3 s

variable {xxh3} {s : Sys} {fold : Nat → Nat} {b : DiskBase} {l : DiskLog}

theorem Born.onDisk (hB : Born xxh3 s fold b l) : OnDisk xxh3 s := by
  intro b' hb'
  rw [hB.base] at hb'
  cases hb'
  have hfolds := hB.disk.folds b hB.disk.mem
  refine ⟨l, fold b.generation, hB.log, hfolds.le, hfolds.ops, ?_⟩
  have hle : l.generation ≤ b.generation := hB.disk.log_le
  by_cases hgen : l.generation = b.generation
  · obtain ⟨tail, htorn, hframes⟩ := hB.disk.frames
    refine .inl ⟨hgen, tail, htorn, ?_⟩
    change l.frames = bytesOf xxh3 (s.hist.drop (fold l.generation)) ++ tail at hframes
    rw [hframes, hgen]
  · have hlt : l.generation < b.generation := by omega
    exact .inr ⟨hlt, hB.disk.folded_all hlt⟩

theorem Born.intact (hB : Born xxh3 s fold b l) : Intact xxh3 s where
  boundary := by
    intro p h hp l' hl' hsource
    rw [hB.log] at hl'
    cases hl'
    obtain ⟨-, -, k, hh, -⟩ := hB.live hp
    obtain ⟨j, -, hpos⟩ := hh.pos hsource
    obtain ⟨tail, htorn, hframes⟩ := hB.disk.frames
    refine ⟨(s.world fold b l).logged.take j, (s.world fold b l).logged.drop j, tail, ?_, ?_,
      htorn, hpos⟩
    · rw [List.take_append_drop]
      exact List.drop_suffix _ _
    · rw [← bytesOf_append, List.take_append_drop]
      exact hframes
  stamped := by
    intro p h hp l' b' len hl' hst
    rw [hB.log] at hl'
    cases hl'
    obtain ⟨-, -, k, hh, -⟩ := hB.live hp
    exact hh.source_seen b' len hst
  served := by
    intro p h hp
    obtain ⟨-, -, k, hh, -⟩ := hB.live hp
    exact ⟨k, hh.view_ops hB.disk⟩
  acked := hB.acked
  onDisk := hB.onDisk

/-- In every state of a regular run, appends failing and cut back included. -/
theorem failed_appends_harmless {as : List Act}
    (hrun : Run (Sys.step xxh3) (Regular xxh3) Sys.init as s) : Intact xxh3 s := by
  rcases Inv.run hrun with hU | ⟨fold, b, l, hB⟩
  · exact
      { boundary := fun p h hp => absurd hp (hU.not_live p h)
        stamped := fun p h hp => absurd hp (hU.not_live p h)
        served := fun p h hp => absurd hp (hU.not_live p h)
        acked := by
          rw [hU.acked]
          exact List.nil_sublist _
        onDisk := by
          intro b hb
          rw [hU.base] at hb
          cases hb }
  · exact hB.intact

/-- Handle 1's append fails after 20 bytes and is cut back; handle 0, which had
    looked at them, reloads and commits; handle 2 commits after it. -/
def failRun : List Act :=
  threeHandles ++ [.stage 1 [removeOp 1], .acquire 1, .sync 1, .commit 1, .write 1 20] ++
    reloadActs 0 ++ [.fail 1, .release 1] ++ commitActs 0 [removeOp 2] 48 ++
    commitActs 2 [removeOp 3] 48

theorem failed_appends_harmless_failRun :
    ∃ s, run (Sys.step zeroSum) Sys.init failRun = some s ∧ s.acked.length = 2 ∧
      Intact zeroSum s := by
  have hrun : (checkedRun (Sys.step zeroSum) (regularCheck zeroSum) Sys.init failRun).any
      (fun s => s.acked.length = 2) = true := by decide +kernel
  obtain ⟨s, hs, hlen⟩ := Option.any_eq_true _ _ |>.mp hrun
  have h := Run.of_checkedRun (fun _ _ hc => (regularCheck_sound hc).1) hs
  exact ⟨s, h.run_eq, by simpa using hlen, failed_appends_harmless h⟩

/-- Handle 0 reads handle 1's record between its last byte and the failed
    sync that takes it back. -/
def readThenFail : List Act :=
  threeHandles ++ [.stage 1 [removeOp 1], .acquire 1, .sync 1, .commit 1, .write 1 48] ++
    reloadActs 0 ++ [.fail 1]

/-- The ops handle `p` shows. -/
def shownOps (s : Sys) (p : Nat) : List SeqOp :=
  match s.parties p with
  | .live h => h.served.view.ops
  | _ => []

/-- Handle 0 shows an op of a record that was cut back. -/
theorem readThenFail_shows_cut_record : ∃ s, run (Sys.step zeroSum) Sys.init readThenFail = some s ∧
    s.hist.length = 0 ∧ (shownOps s 0).length = 1 ∧ ¬Intact zeroSum s := by
  have hrun : (run (Sys.step zeroSum) Sys.init readThenFail).any (fun s =>
      s.hist.length = 0 ∧ (shownOps s 0).length = 1) = true := by decide +kernel
  obtain ⟨s, hs, hprop⟩ := Option.any_eq_true _ _ |>.mp hrun
  simp only [decide_eq_true_eq] at hprop
  obtain ⟨hhist, hshown⟩ := hprop
  refine ⟨s, hs, hhist, hshown, ?_⟩
  intro hintact
  unfold shownOps at hshown
  cases hp : s.parties 0 with
  | live h =>
    obtain ⟨k, hk⟩ := hintact.served 0 h hp
    rw [hp] at hshown
    rw [List.length_eq_zero_iff.mp hhist, List.take_nil, opsOf_nil] at hk
    simp only [hk, List.length_nil] at hshown
    cases hshown
  | _ =>
    rw [hp] at hshown
    cases hshown

end intact

end GraphR.Multi
