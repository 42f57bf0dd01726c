import GraphR.Multi.Step
import GraphR.Store.Safe

/-! # Opening a store directory

    `Store::open` over the bytes of the two files: load the base and replay the
    log, and, when the log is not the base's own and whole, repair it under the
    commit lock. The repair acts on what the load remembered (`Seen`), behind a
    catch-up that compares stamps.

    An open returns its result and the writes it made. Files are examined and read
    without I/O errors, and nobody else writes while the open runs. -/

namespace GraphR.Opening

open Wal ByteLib BaseFile Multi

/-! ## Files and writes -/

/-- A file: which one it is and what it holds. -/
structure File where
  ident : Nat
  bytes : Bytes
  deriving DecidableEq

/-- `graph.base` and `graph.wal`; the log may be missing. -/
structure Files where
  base : File
  wal : Option File
  deriving DecidableEq

namespace Files

/-- The log as it is read: nothing when it is missing. -/
def walBytes (f : Files) : Bytes := f.wal.elim [] File.bytes

def stamp (f : Files) : Option Stamp :=
  some ⟨f.base.ident, f.wal.map fun w => (w.ident, w.bytes.length)⟩

end Files

/-- What an open can do to the files. -/
inductive DiskWrite where
  /-- `set_len` on the log. -/
  | cutLog (len : Nat)
  /-- `atomic_write`: a fresh file renamed over the log. -/
  | replaceLog (file : File)
  deriving DecidableEq

def Files.apply (f : Files) : DiskWrite → Files
  | .cutLog len => { f with wal := f.wal.map fun w => { w with bytes := w.bytes.take len } }
  | .replaceLog file => { f with wal := some file }

/-- The files after a list of writes. -/
def Files.after (f : Files) (ws : List DiskWrite) : Files := ws.foldl Files.apply f

/-! ## Handles -/

/-- An open handle: the generation it serves and what it saw of the files. -/
structure Handle where
  dir : BaseDir
  base : Bytes
  ops : List (Nat × OpView)
  seen : Seen

/-- The last sequence number the served generation holds. -/
def Handle.servedSeq (h : Handle) : Nat :=
  max h.dir.header.walAppliedSeq.toNat ((h.ops.getLast?.map Prod.fst).getD 0)

/-- Publish the ops of `seg` from `pos` on that the handle has not seen. -/
def Handle.publishNew (h : Handle) (seg : Bytes) (pos : Nat) : Except Error Handle :=
  let new := opsAbove h.servedSeq (records seg pos seg.length)
  if new ≠ [] ∧ (arenaCapacity < h.ops.length + new.length ∨ offMask < seg.length) then
    .error (.busy "overlay arena full")
  else .ok { h with ops := h.ops ++ new }

section opening
variable (xxh3 : Bytes → UInt64)

/-- `Header::parse`: the header alone. -/
def parseBaseHeader (base : Bytes) : Except Error Header := do
  Container.checkHeader xxh3 base format
  .ok (Header.fromOwner (u16At base 6) (range base Container.ownerAt Container.ownerLen))

/-- `load_generation`: build from the files, reading again while the log is newer
    than its base; under the lock that is damage. -/
def loadGeneration (files : Files) (locked : Bool) : Nat → Except Error Built
  | 0 => .error (.busy "compaction in progress; retry")
  | retries + 1 => do
    let built ← buildGeneration xxh3 files.base.bytes files.walBytes
    if built.log ≠ .newer then .ok built
    else if locked then .error (.corrupt "wal is newer than base")
    else loadGeneration files locked retries

/-- `RACE_RETRIES`. -/
def raceRetries : Nat := 3

/-- The log is the base's own. -/
def isCurrent : LogState → Bool
  | .current _ => true
  | _ => false

/-- A handle over a loaded generation. -/
def assemble (files : Files) (built : Built) : Handle :=
  { dir := built.dir
    base := files.base.bytes
    ops := built.ops
    seen := ⟨files.stamp, built.goodLen, isCurrent built.log, built.dir.header.generation.toNat⟩ }

/-! ## Catching up -/

/-- `reload_wal_tail`, and what the handle then has seen. -/
def Handle.readTail (h : Handle) (files : Files) : Except Error Handle := do
  match files.wal with
  | none => .ok { h with seen := { h.seen with stamp := files.stamp } }
  | some w =>
    let tail := w.bytes.drop h.seen.walPos
    let scanned := scan xxh3 tail 0 none
    match scanned.corrupt with
    | some e => .error e
    | none =>
      let h ← h.publishNew (tail.take scanned.stop) 0
      .ok { h with
        seen := { h.seen with stamp := files.stamp, walPos := h.seen.walPos + scanned.stop } }

/-- `apply_log` on the log of the served generation. -/
def Handle.applyLog (h : Handle) (raw : Bytes) : Except Error (Handle × Nat) := do
  let rep ← replay xxh3 raw
  match rep.records.find? fun r => h.servedSeq < r.lastSeq with
  | none => .ok (h, rep.goodLen)
  | some r =>
    let h ← h.publishNew (range raw r.offset (rep.goodLen - r.offset)) 0
    .ok (h, rep.goodLen)

/-- `reload_full` under the commit lock: publish the log of the served generation,
    or install the generation on disk. A fresh handle's other slots are free. -/
def Handle.readFull (h : Handle) (files : Files) : Except Error Handle := do
  let raw := files.walBytes
  let header ← parseBaseHeader xxh3 files.base.bytes
  let base := header.generation.toNat
  if header.generation = h.dir.header.generation then
    if raw.isEmpty then .ok { h with seen := ⟨files.stamp, Wal.headerLen, false, base⟩ }
    else do
      let generation ← parseHeader xxh3 raw
      if header.generation < generation then .error (.corrupt "wal is newer than base")
      else if generation < header.generation then
        .ok { h with seen := ⟨files.stamp, Wal.headerLen, false, base⟩ }
      else do
        let (h, pos) ← h.applyLog xxh3 raw
        .ok { h with seen := ⟨files.stamp, pos, true, base⟩ }
  else do
    let built ← buildGeneration xxh3 files.base.bytes raw
    if built.log = .newer then .error (.corrupt "wal is newer than base")
    else .ok { assemble files built with
      seen := ⟨files.stamp, built.goodLen, isCurrent built.log, base⟩ }

/-- `catch_up` under the commit lock. -/
def Handle.catchUp (h : Handle) (files : Files) : Except Error Handle :=
  match h.seen.caught files.stamp with
  | .nothing => .ok h
  | .tail => h.readTail xxh3 files
  | .full => h.readFull xxh3 files

/-! ## Repair -/

/-- The clock and the identity the next file gets. -/
structure Env where
  nowMs : UInt64
  fresh : Nat

variable (env : Env)

/-- `repair`: a header of the served generation for a log that is not the base's
    own; a torn tail cut off. Decided on what was seen. -/
def Handle.repair (h : Handle) : Handle × List DiskWrite :=
  if ¬h.seen.logCurrent then
    let file : File :=
      ⟨env.fresh, encodeHeader xxh3 (UInt64.ofNat h.seen.baseGen) env.nowMs⟩
    ({ h with
        seen := ⟨h.seen.stamp.map fun s => { s with wal := some (file.ident, file.bytes.length) },
          Wal.headerLen, true, h.seen.baseGen⟩ },
      [.replaceLog file])
  else
    match h.seen.stamp with
    | some ⟨b, some (ident, len)⟩ =>
      if h.seen.walPos < len then
        ({ h with seen := { h.seen with stamp := some ⟨b, some (ident, h.seen.walPos)⟩ } },
          [.cutLog h.seen.walPos])
      else (h, [])
    | _ => (h, [])

/-- `repair_now`: under the commit lock if it is free right now, else not at all. -/
def Handle.repairNow (h : Handle) (files : Files) (lockFree : Bool) :
    Except Error Handle × List DiskWrite :=
  if lockFree then
    match h.catchUp xxh3 files with
    | .error e => (.error e, [])
    | .ok h => (.ok (h.repair xxh3 env).1, (h.repair xxh3 env).2)
  else (.ok h, [])

/-! ## Opening -/

/-- `load_generation` as `open_with` calls it: a log newer than its base is looked
    at again under the lock, by a writable opener. -/
def load (files : Files) (readOnly lockFree : Bool) : Except Error Built :=
  match loadGeneration xxh3 files false raceRetries with
  | .error (.busy m) =>
    if readOnly then .error (.busy m)
    else if lockFree then loadGeneration xxh3 files true raceRetries
    else .error (.busy "compaction in progress; retry")
  | other => other

/-- `open_with`. -/
def openWith (files : Files) (readOnly lockFree : Bool) : Except Error Handle × List DiskWrite :=
  match load xxh3 files readOnly lockFree with
  | .error e => (.error e, [])
  | .ok built =>
    if ¬readOnly ∧ built.log ≠ .current false then
      (assemble files built).repairNow xxh3 env files lockFree
    else (.ok (assemble files built), [])

end opening

/-! ## A log cut at its committed end -/

section cut
variable {xxh3 : Bytes → UInt64} {wal : Bytes}

/-- A whole record is read the same from a longer and a shorter image. -/
theorem nextRecord_take {pos n : Nat} {r : Record}
    (h : nextRecord xxh3 wal pos = .ok (.record r)) (hn : pos + r.len ≤ n) :
    nextRecord xxh3 (wal.take n) pos = .ok (.record r) := by
  obtain ⟨-, hlen, hin, -⟩ := nextRecord_record h
  have hmin := r.len_pos
  have hrest : (wal.take n).drop pos = (wal.drop pos).take (n - pos) := List.drop_take
  have hword : ∀ {off k : Nat}, off + k ≤ n - pos →
      range ((wal.drop pos).take (n - pos)) off k = range (wal.drop pos) off k :=
    fun hk => range_take hk
  have hu32 : u32At ((wal.drop pos).take (n - pos)) 0 = u32At (wal.drop pos) 0 :=
    u32At_congr (hword (by omega))
  have hu16 : u16At ((wal.drop pos).take (n - pos)) 4 = u16At (wal.drop pos) 4 :=
    u16At_congr (hword (by omega))
  have hbyte : byteAt ((wal.drop pos).take (n - pos)) 6 = byteAt (wal.drop pos) 6 :=
    byteAt_take (by omega)
  have hlen' : (u32At (wal.drop pos) 0).toNat = r.len := by
    rw [u32At_drop, Nat.add_zero, hlen]
  have htake : ((wal.drop pos).take (n - pos)).take r.len = (wal.drop pos).take r.len := by
    rw [List.take_take, Nat.min_eq_left (by omega)]
  unfold nextRecord readRecord at h ⊢
  rw [if_neg (by omega)] at h
  rw [if_neg (by rw [List.length_take]; omega), hrest]
  rw [if_neg (by rw [List.length_drop, recordHeaderLen]; omega)] at h
  rw [if_neg (by rw [List.length_take, List.length_drop, recordHeaderLen]; omega)]
  by_cases hhead : headed (wal.drop pos)
  · have hhead' : headed ((wal.drop pos).take (n - pos)) := by
      obtain ⟨h1, h2, h3, h4, h5⟩ := hhead
      refine ⟨by rw [hu32]; exact h1, by rw [hu32]; exact h2, ?_, by rw [hu16]; exact h4,
        by rw [hbyte]; exact h5⟩
      rw [hu32, hlen', List.length_take, List.length_drop]
      omega
    rw [dif_pos hhead] at h
    rw [dif_pos hhead']
    simp only [hu32, hlen', htake] at h ⊢
    exact h
  · rw [dif_neg hhead] at h
    cases h

/-- Cut at its end, a run is the same run. -/
theorem validated_take {pos stop n : Nat} {after : Option Nat} {rs : List Record}
    (h : Validated xxh3 wal pos after rs stop) (hn : stop = n) (hle : stop ≤ wal.length) :
    Validated xxh3 (wal.take n) pos after rs stop := by
  induction h with
  | @torn pos after h =>
    refine .torn ?_
    have hlen : (wal.take n).length = n := by rw [List.length_take]; omega
    rw [nextRecord, if_neg (by omega), readRecord, if_pos]
    rw [List.length_drop, hlen, hn, Nat.sub_self]
    decide
  | @step pos stop after r rs h hseq hrest ih =>
    have hpos := hrest.pos_le
    exact .step (nextRecord_take h (by omega)) hseq (ih hn hle)

/-- A record whose checksum holds but whose contents do not, or whose numbers fall
    back, reached over whole records from `pos` on. -/
inductive Malformed (xxh3 : Bytes → UInt64) (wal : Bytes) : Nat → Option Nat → Prop where
  | contents {pos : Nat} {after : Option Nat} {e : Error} (h : nextRecord xxh3 wal pos = .error e) :
      Malformed xxh3 wal pos after
  | regression {pos l : Nat} {r : Record} (h : nextRecord xxh3 wal pos = .ok (.record r))
      (hseq : r.firstSeq ≤ l) : Malformed xxh3 wal pos (some l)
  | later {pos : Nat} {after : Option Nat} {r : Record}
      (h : nextRecord xxh3 wal pos = .ok (.record r)) (hseq : ∀ l ∈ after, l < r.firstSeq)
      (hrest : Malformed xxh3 wal (pos + r.len) (some r.lastSeq)) : Malformed xxh3 wal pos after

theorem Malformed.of_not_ok {pos : Nat} {after : Option Nat}
    (h : (nextRecord xxh3 wal pos).isOk = false) : Malformed xxh3 wal pos after := by
  cases hn : nextRecord xxh3 wal pos with
  | error e => exact .contents hn
  | ok r => simp [hn, Except.isOk, Except.toBool] at h

theorem Malformed.not_validated {pos stop : Nat} {after : Option Nat} {rs : List Record}
    (h : Malformed xxh3 wal pos after) : ¬Validated xxh3 wal pos after rs stop := by
  intro hv
  induction h generalizing rs stop with
  | contents h =>
    cases hv with
    | torn h' => rw [h] at h'; cases h'
    | step h' _ _ => rw [h] at h'; cases h'
  | regression h hseq =>
    cases hv with
    | torn h' => rw [h] at h'; cases h'
    | step h' hseq' _ =>
      rw [h] at h'
      cases h'
      exact absurd (hseq' _ rfl) (by omega)
  | later h hseq hrest ih =>
    cases hv with
    | torn h' => rw [h] at h'; cases h'
    | step h' _ hrest' =>
      rw [h] at h'
      cases h'
      exact ih hrest'

end cut

/-! ## What a load finds -/

section built
variable {xxh3 : Bytes → UInt64} {base wal : Bytes} {b : Built}

/-- The overlay arena cannot take the ops. -/
def Full (ops : List (Nat × OpView)) (len : Nat) : Prop :=
  ops ≠ [] ∧ (arenaCapacity < ops.length ∨ offMask < len)

/-- Every way two images build a generation. -/
inductive Loads (xxh3 : Bytes → UInt64) (wal : Bytes) (dir : BaseDir) : Built → Prop where
  | empty (h : wal = []) : Loads xxh3 wal dir ⟨dir, [], .empty, 0⟩
  | newer {gen : UInt64} (h : parseHeader xxh3 wal = .ok gen) (hgen : dir.header.generation < gen) :
      Loads xxh3 wal dir ⟨dir, [], .newer, 0⟩
  | stale {gen : UInt64} (h : parseHeader xxh3 wal = .ok gen) (hgen : gen < dir.header.generation) :
      Loads xxh3 wal dir ⟨dir, [], .stale, Wal.headerLen⟩
  | current {rs : List Record} {stop : Nat}
      (h : parseHeader xxh3 wal = .ok dir.header.generation)
      (hrs : Validated xxh3 wal Wal.headerLen none rs stop)
      (hroom : ¬Full (opsAbove dir.header.walAppliedSeq.toNat rs) stop) :
      Loads xxh3 wal dir
        ⟨dir, opsAbove dir.header.walAppliedSeq.toNat rs, .current (stop < wal.length), stop⟩

theorem loads_of_buildGeneration (h : buildGeneration xxh3 base wal = .ok b) :
    ∃ dir, BaseDir.parse xxh3 base = .ok dir ∧ Loads xxh3 wal dir b := by
  unfold buildGeneration at h
  rw [FaultLib.bind_ok] at h
  obtain ⟨dir, hdir, h⟩ := h
  refine ⟨dir, hdir, ?_⟩
  split_ifs at h with hempty
  · cases h
    exact .empty (List.isEmpty_iff.mp hempty)
  · rw [FaultLib.bind_ok] at h
    obtain ⟨gen, hgen, h⟩ := h
    split_ifs at h with hnewer hstale
    · cases h
      exact .newer hgen hnewer
    · cases h
      exact .stale hgen hstale
    · have hsame : gen = dir.header.generation :=
        le_antisymm (not_lt.mp hnewer) (not_lt.mp hstale)
      simp only at h
      cases hcorrupt : (scan xxh3 wal Wal.headerLen none).corrupt with
      | some e => simp [hcorrupt] at h
      | none =>
        rw [hcorrupt] at h
        simp only at h
        obtain ⟨rs, hrs⟩ := validated_of_scan hcorrupt
        have hhead := headerLen_le_of_parseHeader hgen
        have hlen : (wal.take (scan xxh3 wal Wal.headerLen none).stop).length
            = (scan xxh3 wal Wal.headerLen none).stop := by
          rw [List.length_take, Nat.min_eq_left (hrs.stop_le hhead)]
        rw [records_take hrs hhead, hlen] at h
        split_ifs at h with hfull
        cases h
        subst hsame
        exact .current hgen hrs hfull

theorem buildGeneration_of_loads {dir : BaseDir} (hdir : BaseDir.parse xxh3 base = .ok dir)
    (h : Loads xxh3 wal dir b) : buildGeneration xxh3 base wal = .ok b := by
  unfold buildGeneration
  rw [hdir, FaultLib.bind_ok]
  refine ⟨dir, rfl, ?_⟩
  cases h with
  | empty h => rw [if_pos (List.isEmpty_iff.mpr h)]
  | newer h hgen =>
    have hhead := headerLen_le_of_parseHeader h
    rw [if_neg (by cases wal <;> simp_all [Wal.headerLen]), h, FaultLib.bind_ok]
    exact ⟨_, rfl, if_pos hgen⟩
  | stale h hgen =>
    have hhead := headerLen_le_of_parseHeader h
    rw [if_neg (by cases wal <;> simp_all [Wal.headerLen]), h, FaultLib.bind_ok]
    refine ⟨_, rfl, ?_⟩
    rw [if_neg (not_lt.mpr hgen.le), if_pos hgen]
  | @current rs stop h hrs hroom =>
    have hhead := headerLen_le_of_parseHeader h
    have hlen : (wal.take stop).length = stop := by
      rw [List.length_take, Nat.min_eq_left (hrs.stop_le hhead)]
    rw [if_neg (by cases wal <;> simp_all [Wal.headerLen]), h, FaultLib.bind_ok]
    refine ⟨_, rfl, ?_⟩
    rw [if_neg (lt_irrefl _), if_neg (lt_irrefl _), hrs.scan_eq]
    simp only
    rw [records_take hrs hhead, hlen]
    exact if_neg hroom

end built

/-! ## What an open does -/

section opened
variable {xxh3 : Bytes → UInt64} {files : Files} {b : Built}

theorem loadGeneration_ok {locked : Bool} {retries : Nat}
    (h : loadGeneration xxh3 files locked retries = .ok b) :
    buildGeneration xxh3 files.base.bytes files.walBytes = .ok b ∧ b.log ≠ .newer := by
  induction retries with
  | zero => cases h
  | succ n ih =>
    rw [loadGeneration, FaultLib.bind_ok] at h
    obtain ⟨b', hb', h⟩ := h
    split_ifs at h with hnewer hlocked
    · cases h
      exact ⟨hb', hnewer⟩
    · exact ih h

theorem loadGeneration_of_build {locked : Bool} {retries : Nat} (hr : 0 < retries)
    (h : buildGeneration xxh3 files.base.bytes files.walBytes = .ok b) (hnewer : b.log ≠ .newer) :
    loadGeneration xxh3 files locked retries = .ok b := by
  cases retries with
  | zero => cases hr
  | succ n =>
    rw [loadGeneration, h, FaultLib.bind_ok]
    exact ⟨b, rfl, if_pos hnewer⟩

/-- Who loads, and whether the lock is free, makes no difference to what is
    loaded. -/
theorem load_ok {readOnly lockFree : Bool} : load xxh3 files readOnly lockFree = .ok b ↔
    buildGeneration xxh3 files.base.bytes files.walBytes = .ok b ∧ b.log ≠ .newer := by
  constructor
  · intro h
    unfold load at h
    split at h
    · split_ifs at h
      exact loadGeneration_ok h
    · exact loadGeneration_ok h
  · intro h
    rw [load, loadGeneration_of_build (by decide) h.1 h.2]

/-- The catch-up of a handle just assembled finds the stamp it was assembled
    with. -/
theorem catchUp_assemble (files : Files) (b : Built) :
    (assemble files b).catchUp xxh3 files = .ok (assemble files b) := by
  have hcaught : (assemble files b).seen.caught files.stamp = .nothing := by
    simp [assemble, Seen.caught, Files.stamp]
  rw [Handle.catchUp, hcaught]

/-- The open, given what was loaded. -/
theorem openWith_of_load {env : Env} (h : buildGeneration xxh3 files.base.bytes files.walBytes = .ok b)
    (hnewer : b.log ≠ .newer) :
    openWith xxh3 env files false true =
      if b.log ≠ .current false then
        (.ok ((assemble files b).repair xxh3 env).1, ((assemble files b).repair xxh3 env).2)
      else (.ok (assemble files b), []) := by
  rw [openWith, load_ok.mpr ⟨h, hnewer⟩]
  simp only [Bool.false_eq_true, not_false_eq_true, true_and, Handle.repairNow, if_true,
    catchUp_assemble]

theorem openWith_readOnly {env : Env} {lockFree : Bool}
    (h : buildGeneration xxh3 files.base.bytes files.walBytes = .ok b) (hnewer : b.log ≠ .newer) :
    openWith xxh3 env files true lockFree = (.ok (assemble files b), []) := by
  rw [openWith, load_ok.mpr ⟨h, hnewer⟩]
  simp

theorem openWith_error {env : Env} {readOnly lockFree : Bool}
    (h : ∀ b, buildGeneration xxh3 files.base.bytes files.walBytes = .ok b → b.log = .newer) :
    ∃ e, openWith xxh3 env files readOnly lockFree = (.error e, []) := by
  cases hload : load xxh3 files readOnly lockFree with
  | error e => exact ⟨e, by rw [openWith, hload]⟩
  | ok b =>
    obtain ⟨hb, hne⟩ := load_ok.mp hload
    exact absurd (h b hb) hne

/-- A log that is the base's own and whole is left alone. -/
theorem openWith_whole {env : Env} {dir : BaseDir} {rs : List Record}
    (hdir : BaseDir.parse xxh3 files.base.bytes = .ok dir)
    (hgen : parseHeader xxh3 files.walBytes = .ok dir.header.generation)
    (hrs : Validated xxh3 files.walBytes Wal.headerLen none rs files.walBytes.length)
    (hroom : ¬Full (opsAbove dir.header.walAppliedSeq.toNat rs) files.walBytes.length) :
    ∃ h, openWith xxh3 env files false true = (.ok h, []) ∧ h.dir = dir ∧
      h.ops = opsAbove dir.header.walAppliedSeq.toNat rs := by
  have hb := buildGeneration_of_loads hdir (.current hgen hrs hroom)
  refine ⟨assemble files ⟨dir, opsAbove dir.header.walAppliedSeq.toNat rs, .current false,
    files.walBytes.length⟩, ?_, rfl, rfl⟩
  rw [openWith_of_load hb (by simp)]
  simp

/-- A repair changes what the handle saw, not what it serves. -/
theorem repair_serves (h : Handle) (env : Env) :
    (h.repair xxh3 env).1.dir = h.dir ∧ (h.repair xxh3 env).1.ops = h.ops := by
  unfold Handle.repair
  by_cases hcur : h.seen.logCurrent
  · rw [if_neg (not_not.mpr hcur)]
    split
    · split_ifs
      · exact ⟨rfl, rfl⟩
      · exact ⟨rfl, rfl⟩
    · exact ⟨rfl, rfl⟩
  · rw [if_pos hcur]
    exact ⟨rfl, rfl⟩

/-- What a successful open did to the log: nothing, cut it at the end of its
    committed records, or put a bare header in the place of a log that is missing,
    empty or older than the base. -/
inductive LogKept (xxh3 : Bytes → UInt64) (env : Env) (files : Files) (dir : BaseDir) :
    List DiskWrite → Prop where
  | untouched : LogKept xxh3 env files dir []
  | cut {w : File} {rs : List Record} {stop : Nat} (hw : files.wal = some w)
      (hgen : parseHeader xxh3 w.bytes = .ok dir.header.generation)
      (hrs : Validated xxh3 w.bytes Wal.headerLen none rs stop) (htorn : stop < w.bytes.length) :
      LogKept xxh3 env files dir [.cutLog stop]
  | replaced (hold : files.walBytes = [] ∨
        ∃ gen, parseHeader xxh3 files.walBytes = .ok gen ∧ gen < dir.header.generation) :
      LogKept xxh3 env files dir
        [.replaceLog ⟨env.fresh, encodeHeader xxh3 dir.header.generation env.nowMs⟩]

/-- A successful open: the base as it was, the log kept, the same ops a read-only
    open shows, and nothing left for the next open to write. -/
structure Kept (xxh3 : Bytes → UInt64) (env : Env) (files : Files) (h : Handle)
    (ws : List DiskWrite) : Prop where
  base : (files.after ws).base = files.base
  log : LogKept xxh3 env files h.dir ws
  readOnly : ∀ env' lockFree, ∃ h', openWith xxh3 env' files true lockFree = (.ok h', []) ∧
    h'.dir = h.dir ∧ h'.ops = h.ops
  again : ∀ env', ∃ h', openWith xxh3 env' (files.after ws) false true = (.ok h', []) ∧
    h'.dir = h.dir ∧ h'.ops = h.ops

variable {env : Env} {dir : BaseDir}

/-- The base's own log, whole or torn. -/
theorem kept_current {rs : List Record} {stop : Nat}
    (hdir : BaseDir.parse xxh3 files.base.bytes = .ok dir)
    (hgen : parseHeader xxh3 files.walBytes = .ok dir.header.generation)
    (hrs : Validated xxh3 files.walBytes Wal.headerLen none rs stop)
    (hroom : ¬Full (opsAbove dir.header.walAppliedSeq.toNat rs) stop) :
    ∃ h ws, openWith xxh3 env files false true = (.ok h, ws) ∧ Kept xxh3 env files h ws := by
  have hb := buildGeneration_of_loads hdir (.current hgen hrs hroom)
  have hhead := headerLen_le_of_parseHeader hgen
  have hstop := hrs.stop_le hhead
  have hpos := hrs.pos_le
  have hro : ∀ env' lockFree, openWith xxh3 env' files true lockFree = _ :=
    fun _ _ => openWith_readOnly hb (by simp)
  by_cases htorn : stop < files.walBytes.length
  · -- torn: the repair cuts at the offset the load remembered
    obtain ⟨w, hw⟩ : ∃ w, files.wal = some w := by
      cases hf : files.wal with
      | none => simp [Files.walBytes, hf, Wal.headerLen] at hhead
      | some w => exact ⟨w, rfl⟩
    have hbytes : files.walBytes = w.bytes := by simp [Files.walBytes, hw]
    have hafter : (files.after [.cutLog stop]).walBytes = w.bytes.take stop := by
      simp [Files.after, Files.apply, Files.walBytes, hw]
    have hlen : (w.bytes.take stop).length = stop := by
      rw [List.length_take]
      rw [hbytes] at hstop
      omega
    have hopen := @openWith_of_load xxh3 files _ env hb (by simp)
    rw [if_pos (by simp [htorn])] at hopen
    rw [hbytes] at hgen hrs htorn
    generalize hh : assemble files _ = h at hopen hro
    have hwrites : (h.repair xxh3 env).2 = [.cutLog stop] := by
      rw [← hh]
      simp [Handle.repair, assemble, isCurrent, Files.stamp, hw, htorn]
    obtain ⟨hd, ho⟩ := @repair_serves xxh3 h env
    have hserved : h.dir = dir ∧ h.ops = opsAbove dir.header.walAppliedSeq.toNat rs := by
      rw [← hh]
      exact ⟨rfl, rfl⟩
    rw [hwrites] at hopen
    refine ⟨_, _, hopen, ⟨rfl, ?_, ?_, ?_⟩⟩
    · rw [hd, hserved.1]
      exact .cut hw hgen hrs htorn
    · intro env' lockFree
      exact ⟨h, hro env' lockFree, hd.symm, ho.symm⟩
    · intro env'
      rw [hd, ho, hserved.1, hserved.2]
      refine openWith_whole hdir ?_ ?_ ?_
      · -- the cut keeps the header
        rw [hafter, ← hgen]
        have hsplit : w.bytes.take stop
            = w.bytes.take Wal.headerLen ++ (w.bytes.take stop).drop Wal.headerLen := by
          conv_lhs => rw [← List.take_append_drop Wal.headerLen (w.bytes.take stop)]
          rw [List.take_take, Nat.min_eq_left hpos]
        have hheadlen : (w.bytes.take Wal.headerLen).length = Wal.headerLen := by
          rw [List.length_take]
          rw [hbytes] at hhead
          omega
        rw [hsplit, parseHeader_append xxh3 _ hheadlen]
        conv_rhs => rw [← List.take_append_drop Wal.headerLen w.bytes]
        rw [parseHeader_append xxh3 _ hheadlen]
      · rw [hafter, hlen]
        exact validated_take hrs rfl (by omega)
      · rw [hafter, hlen]
        exact hroom
  · -- whole: nothing is written, and the next open finds the same bytes
    have heq : stop = files.walBytes.length := by omega
    have hopen := @openWith_of_load xxh3 files _ env hb (by simp)
    rw [if_neg (by simp [htorn])] at hopen
    refine ⟨_, [], hopen, ⟨rfl, .untouched, ?_, ?_⟩⟩
    · intro env' lockFree
      exact ⟨_, hro env' lockFree, rfl, rfl⟩
    · intro env'
      have hsame : files.after [] = files := rfl
      rw [hsame]
      refine openWith_whole hdir hgen ?_ ?_
      · rw [← heq]
        exact hrs
      · rw [← heq]
        exact hroom

/-- A log that is missing, empty or older than the base. -/
theorem kept_replaced {log : LogState} {pos : Nat}
    (hdir : BaseDir.parse xxh3 files.base.bytes = .ok dir)
    (hb : buildGeneration xxh3 files.base.bytes files.walBytes = .ok ⟨dir, [], log, pos⟩)
    (hlog : log = .empty ∨ log = .stale)
    (hold : files.walBytes = [] ∨
      ∃ gen, parseHeader xxh3 files.walBytes = .ok gen ∧ gen < dir.header.generation) :
    ∃ h ws, openWith xxh3 env files false true = (.ok h, ws) ∧ Kept xxh3 env files h ws := by
  have hnewer : log ≠ .newer := by rcases hlog with rfl | rfl <;> simp
  have hcurrent : isCurrent log = false := by rcases hlog with rfl | rfl <;> rfl
  have hrepair : log ≠ .current false := by rcases hlog with rfl | rfl <;> simp
  obtain ⟨hlen, hparse⟩ := parseHeader_encodeHeader xxh3 dir.header.generation env.nowMs
  have hopen := @openWith_of_load xxh3 files _ env hb hnewer
  have hro : ∀ env' lockFree, openWith xxh3 env' files true lockFree = _ :=
    fun _ _ => openWith_readOnly hb hnewer
  rw [if_pos hrepair] at hopen
  generalize hh : assemble files _ = h at hopen hro
  have hwrites : (h.repair xxh3 env).2 = [.replaceLog
      ⟨env.fresh, encodeHeader xxh3 dir.header.generation env.nowMs⟩] := by
    rw [← hh]
    simp [Handle.repair, assemble, hcurrent]
  obtain ⟨hd, ho⟩ := @repair_serves xxh3 h env
  have hserved : h.dir = dir ∧ h.ops = [] := by
    rw [← hh]
    exact ⟨rfl, rfl⟩
  rw [hwrites] at hopen
  refine ⟨_, _, hopen, ⟨rfl, ?_, ?_, ?_⟩⟩
  · rw [hd, hserved.1]
    exact .replaced hold
  · intro env' lockFree
    exact ⟨h, hro env' lockFree, hd.symm, ho.symm⟩
  · intro env'
    rw [hd, ho, hserved.1, hserved.2]
    have hwal : (files.after [.replaceLog
        ⟨env.fresh, encodeHeader xxh3 dir.header.generation env.nowMs⟩]).walBytes
        = encodeHeader xxh3 dir.header.generation env.nowMs := rfl
    -- behind a bare header there is nothing to read
    have htorn : Validated xxh3 (encodeHeader xxh3 dir.header.generation env.nowMs)
        Wal.headerLen none [] Wal.headerLen := by
      refine .torn ?_
      rw [nextRecord, if_neg (by omega), readRecord, if_pos]
      rw [List.length_drop, hlen, Nat.sub_self]
      decide
    have hagain := @openWith_whole xxh3 (files.after [.replaceLog
      ⟨env.fresh, encodeHeader xxh3 dir.header.generation env.nowMs⟩]) env' dir [] hdir
    rw [hwal, hlen] at hagain
    exact hagain hparse htorn (by simp [opsAbove, Full])

end opened

/-! ## Opening never destroys data -/

/-- A log no open takes: its header is bad or of another version, it is newer than
    its base, or it is the base's own and holds a malformed record. -/
inductive Refused (xxh3 : Bytes → UInt64) (files : Files) : Prop where
  | header {e : Error} (hne : files.walBytes ≠ []) (h : parseHeader xxh3 files.walBytes = .error e)
  | newer {dir : BaseDir} {gen : UInt64} (hdir : BaseDir.parse xxh3 files.base.bytes = .ok dir)
      (h : parseHeader xxh3 files.walBytes = .ok gen) (hgen : dir.header.generation < gen)
  | malformed {dir : BaseDir} (hdir : BaseDir.parse xxh3 files.base.bytes = .ok dir)
      (h : parseHeader xxh3 files.walBytes = .ok dir.header.generation)
      (hbad : Malformed xxh3 files.walBytes Wal.headerLen none)

theorem Refused.builds_newer {xxh3 : Bytes → UInt64} {files : Files} (h : Refused xxh3 files)
    {b : Built} (hb : buildGeneration xxh3 files.base.bytes files.walBytes = .ok b) :
    b.log = .newer := by
  obtain ⟨dir', hparse, hloads⟩ := loads_of_buildGeneration hb
  cases h with
  | header hne he =>
    cases hloads with
    | empty h => exact absurd h hne
    | newer h _ => rfl
    | stale h _ => rw [he] at h; cases h
    | current h _ _ => rw [he] at h; cases h
  | newer hdir he hgen =>
    rw [hdir] at hparse
    cases hparse
    have hlong := headerLen_le_of_parseHeader he
    cases hloads with
    | empty h => rw [h] at hlong; cases hlong
    | newer h _ => rfl
    | stale h hlt =>
      rw [he] at h
      cases h
      exact absurd hlt (not_lt.mpr hgen.le)
    | current h _ _ =>
      rw [he] at h
      cases h
      exact absurd hgen (lt_irrefl _)
  | malformed hdir he hbad =>
    rw [hdir] at hparse
    cases hparse
    have hlong := headerLen_le_of_parseHeader he
    cases hloads with
    | empty h => rw [h] at hlong; cases hlong
    | newer h _ => rfl
    | stale h hlt =>
      rw [he] at h
      cases h
      exact absurd hlt (lt_irrefl _)
    | current _ hrs _ => exact absurd hrs hbad.not_validated

/-- A writable open that finds the commit lock free either fails and writes
    nothing, or succeeds and keeps everything; a log that cannot be read is always
    the first. -/
theorem opening_keeps_data (xxh3 : Bytes → UInt64) (env : Env) (files : Files) :
    ((∃ e, openWith xxh3 env files false true = (.error e, [])) ∨
      ∃ h ws, openWith xxh3 env files false true = (.ok h, ws) ∧ Kept xxh3 env files h ws) ∧
    (Refused xxh3 files → ∃ e, openWith xxh3 env files false true = (.error e, [])) := by
  refine ⟨?_, fun h => openWith_error fun b hb => h.builds_newer hb⟩
  cases hb : buildGeneration xxh3 files.base.bytes files.walBytes with
  | error e =>
    refine .inl (openWith_error ?_)
    intro b hb'
    rw [hb] at hb'
    cases hb'
  | ok b =>
    obtain ⟨dir, hparse, hloads⟩ := loads_of_buildGeneration hb
    cases hloads with
    | empty h => exact .inr (kept_replaced hparse hb (.inl rfl) (.inl h))
    | newer h hgen =>
      refine .inl (openWith_error ?_)
      intro b' hb'
      rw [hb] at hb'
      cases hb'
      rfl
    | stale h hgen => exact .inr (kept_replaced hparse hb (.inr rfl) (.inr ⟨_, h, hgen⟩))
    | current h hrs hroom => exact .inr (kept_current hparse h hrs hroom)

/-- `render_empty_base`: the base of a fresh store. -/
def renderEmptyBase (xxh3 : Bytes → UInt64) (generation : UInt64) : Bytes :=
  ((Container.Writer.new format).withOwner (Header.owner ⟨0, 0, 0, 0, 0, generation, 0, 0⟩)).finish
    xxh3

/-- A record of one op of a kind the format does not have, its checksum right. -/
def badRecord : Bytes :=
  recordHead 48 1 1 ++ (putU64 0 ++ (putU32 16 ++ ([7, 0, 0, 0] ++ putU64 5)))

/-- A base of generation 2 beside a log of `generation` holding that record. -/
def besideBadRecord (generation : UInt64) : Files :=
  ⟨⟨0, renderEmptyBase (fun _ => 0) 2⟩,
    some ⟨1, encodeHeader (fun _ => 0) generation 0 ++ badRecord⟩⟩

/-- In the base's own log the record is refused. -/
theorem opening_keeps_data_badRecord : Refused (fun _ => 0) (besideBadRecord 2) ∧
    ∃ e, openWith (fun _ => 0) ⟨0, 9⟩ (besideBadRecord 2) false true = (.error e, []) := by
  have hparse : (BaseDir.parse (fun _ => 0) (besideBadRecord 2).base.bytes).toOption.any
      (fun d => d.header.generation = 2) = true := by decide +kernel
  have hrefused : Refused (fun _ => 0) (besideBadRecord 2) := by
    cases hdir : BaseDir.parse (fun _ => 0) (besideBadRecord 2).base.bytes with
    | error e => simp [hdir, Except.toOption] at hparse
    | ok d =>
      have hgen : d.header.generation = 2 := by simpa [hdir, Except.toOption] using hparse
      exact .malformed hdir (by rw [hgen]; decide +kernel) (.of_not_ok (by decide +kernel))
  exact ⟨hrefused, (opening_keeps_data _ ⟨0, 9⟩ (besideBadRecord 2)).2 hrefused⟩

/-- In an older log it is not looked at: the log is replaced. -/
theorem older_log_with_bad_record_is_replaced :
    Malformed (fun _ => 0) (besideBadRecord 1).walBytes Wal.headerLen none ∧
      (openWith (fun _ => 0) ⟨0, 9⟩ (besideBadRecord 1) false true).1.isOk = true ∧
      (openWith (fun _ => 0) ⟨0, 9⟩ (besideBadRecord 1) false true).2
        = [.replaceLog ⟨9, encodeHeader (fun _ => 0) 2 0⟩] := by
  refine ⟨.of_not_ok (by decide +kernel), ?_, ?_⟩
  · decide +kernel
  · decide +kernel

end GraphR.Opening
