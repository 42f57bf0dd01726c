import GraphR.Store.Image
import GraphR.Format.Wal.Cut

/-! # The files of a store and what a handle keeps of them

    A store directory holds a base file, a log file and a commit lock. Here a
    base is what the protocol sees of it: which file it is, its generation, the
    last sequence number it has folded and, standing for the state rendered in
    it, the ops it folded, one list a compaction. A log is its header's
    generation and the bytes after the header, as they are on disk; reading it
    is the byte-level `scan` and `records`.

    File identities stand for `(dev, ino)` and are never reused. Counters are
    natural numbers; `seal` refuses a sequence number past 64 bits. -/

namespace GraphR.Multi

open Wal ByteLib

/-- An op of the log with its sequence number. -/
abbrev SeqOp := Nat × Bytes

/-- An encoded op that passes `validate_op`. -/
abbrev OpBytes := { c : Bytes // ValidOp c }

/-! ## Files -/

/-- `graph.base`. -/
structure DiskBase where
  ident : Nat
  generation : Nat
  /-- `wal_applied_seq`. -/
  applied : Nat
  folded : List (List SeqOp)
  deriving DecidableEq

/-- Of bases numbered in ascending order, two of one generation are one. -/
theorem unique_of_ascending {bs : List DiskBase}
    (hasc : bs.Pairwise fun a b => a.generation < b.generation) {a b : DiskBase} (ha : a ∈ bs)
    (hb : b ∈ bs) (hgen : a.generation = b.generation) : a = b := by
  have hpair := List.pairwise_iff_getElem.mp hasc
  obtain ⟨i, hi, rfl⟩ := List.getElem_of_mem ha
  obtain ⟨j, hj, rfl⟩ := List.getElem_of_mem hb
  rcases Nat.lt_trichotomy i j with hij | rfl | hij
  · have := hpair i j hi hj hij
    omega
  · rfl
  · have := hpair j i hj hi hij
    omega

/-- `graph.wal`: its header's generation and the bytes behind the header. -/
structure DiskLog where
  ident : Nat
  generation : Nat
  frames : Bytes
  deriving DecidableEq

/-- Its length on disk. -/
def DiskLog.len (l : DiskLog) : Nat := headerLen + l.frames.length

/-- The bytes from file offset `pos` on. -/
def DiskLog.tail (l : DiskLog) (pos : Nat) : Bytes := l.frames.drop (pos - headerLen)

/-- `set_len(pos)`. -/
def DiskLog.cut (l : DiskLog) (pos : Nat) : DiskLog :=
  { l with frames := l.frames.take (pos - headerLen) }

/-- The base file's identity, and the log's identity and length. -/
structure Stamp where
  base : Nat
  wal : Option (Nat × Nat)
  deriving DecidableEq

def DiskLog.stamp (l : DiskLog) : Nat × Nat := (l.ident, l.len)

/-- What a handle saw at its last load or catch-up. -/
structure Seen where
  /-- `none` forces a full reload. -/
  stamp : Option Stamp
  /-- Offset just past the last whole record consumed. -/
  walPos : Nat
  /-- The log's header names the base's generation. -/
  logCurrent : Bool
  /-- Generation of the base on disk. -/
  baseGen : Nat
  deriving DecidableEq

namespace Seen

/-- `Seen::default()`. -/
def unseen : Seen := ⟨none, 0, false, 0⟩

/-- Account for `n` bytes this handle appended itself. -/
def appended (s : Seen) (n : Nat) : Seen :=
  { s with
    walPos := s.walPos + n
    stamp := s.stamp.map fun st => { st with wal := st.wal.map fun w => (w.1, w.2 + n) } }

end Seen

/-! ## Loaded generations -/

/-- One loaded generation: its base and the overlay of log ops above it. -/
structure Gen where
  base : DiskBase
  log : List SeqOp
  /-- Segments published into the overlay. -/
  segs : Nat
  deriving DecidableEq

/-- What a snapshot of a generation is a function of: the ops folded into its
    base, compaction by compaction, and the ops of its overlay. -/
structure View where
  folded : List (List SeqOp)
  overlay : List SeqOp
  deriving DecidableEq

/-- Every op a view shows, in order. -/
def View.ops (v : View) : List SeqOp := v.folded.flatten ++ v.overlay

namespace Gen

def view (g : Gen) : View := ⟨g.base.folded, g.log⟩

/-- Sequence number of the last published op, 0 when none. -/
def lastSeq (g : Gen) : Nat := (g.log.getLast?.map Prod.fst).getD 0

/-- The last sequence number the generation holds. -/
def servedSeq (g : Gen) : Nat := max g.base.applied g.lastSeq

/-- Room for one segment of `bytes` holding `ops` ops. -/
def reserve (g : Gen) (ops bytes : Nat) : Bool :=
  g.log.length + ops ≤ arenaCapacity ∧ g.segs < arenaCapacity ∧ bytes ≤ offMask

/-- `publish_records`: the ops of `frames` numbered above `above`, as one
    segment. -/
def publishRecords (g : Gen) (frames : Bytes) (above : Nat) : Gen :=
  { g with
    log := g.log ++ ((records frames 0 frames.length).flatMap fun r =>
      r.rawOps.map fun p => (p.1, p.2.2)).filter fun p => above < p.1
    segs := g.segs + 1 }

/-- The ops of `rs` numbered above `served`, as `publish_above` counts them. -/
def newOps (served : Nat) (rs : List Record) : Nat :=
  (rs.map fun r => if served < r.lastSeq then min (r.lastSeq - served) r.opCount else 0).sum

/-- Publish what lies above `served`; `head` bytes of the segment precede its
    records. Whether anything became visible. -/
def publishAbove (g : Gen) (served : Nat) (frames : Bytes) (head : Nat) :
    Except Error (Gen × Bool) :=
  let new := newOps served (records frames 0 frames.length)
  if new = 0 then .ok (g, false)
  else if g.reserve new (head + frames.length) then .ok (g.publishRecords frames served, true)
  else .error (.busy "overlay arena full")

/-- `publish_new`: above what the generation has. -/
def publishNew (g : Gen) (frames : Bytes) (head : Nat) : Except Error (Gen × Bool) :=
  g.publishAbove g.servedSeq frames head

end Gen

/-! ## The generation ring -/

/-- A ring slot: what it holds and how many snapshots pin it. -/
structure Slot where
  gen : Option Gen
  pins : Nat
  deriving DecidableEq

/-- The `GEN_SLOTS` slots; the current one always holds a generation. -/
structure Ring where
  cur : Fin 4
  slots : Fin 4 → Slot
  served_some : (slots cur).gen.isSome

namespace Ring

/-- The served generation. -/
def served (r : Ring) : Gen := (r.slots r.cur).gen.get r.served_some

/-- A fresh handle's ring. -/
def of (g : Gen) : Ring := ⟨0, fun i => if i = 0 then ⟨some g, 0⟩ else ⟨none, 0⟩, rfl⟩

/-- The served generation after a publication into it. -/
def serve (r : Ring) (g : Gen) : Ring :=
  ⟨r.cur, Function.update r.slots r.cur ⟨some g, (r.slots r.cur).pins⟩, by simp⟩

/-- The first slot, other than the current one, that no snapshot pins. -/
def free (r : Ring) : Option (Fin 4) :=
  (List.finRange 4).find? fun i => i ≠ r.cur ∧ (r.slots i).pins = 0

/-- Install a generation into a free slot and serve it; `none` when every
    other slot is pinned. -/
def install (r : Ring) (g : Gen) : Option Ring :=
  r.free.map fun i => ⟨i, Function.update r.slots i ⟨some g, 0⟩, by simp⟩

/-- A snapshot is taken of the served generation. -/
def pin (r : Ring) : Ring :=
  ⟨r.cur, Function.update r.slots r.cur ⟨(r.slots r.cur).gen, (r.slots r.cur).pins + 1⟩, by
    simpa using r.served_some⟩

/-- A snapshot of slot `i` is dropped. -/
def unpin (r : Ring) (i : Fin 4) : Ring :=
  ⟨r.cur, Function.update r.slots i ⟨(r.slots i).gen, (r.slots i).pins - 1⟩, by
    by_cases h : r.cur = i
    · rw [← h]
      simpa using r.served_some
    · rw [Function.update_of_ne h]
      exact r.served_some⟩

@[simp] theorem served_of (g : Gen) : (of g).served = g := rfl

@[simp] theorem served_serve (r : Ring) (g : Gen) : (r.serve g).served = g := by
  simp [served, serve]

theorem served_install {r r' : Ring} {g : Gen} (h : r.install g = some r') : r'.served = g := by
  obtain ⟨i, -, rfl⟩ := Option.map_eq_some_iff.mp h
  simp [served]

@[simp] theorem served_pin (r : Ring) : r.pin.served = r.served := by
  simp [served, pin]

@[simp] theorem served_unpin (r : Ring) (i : Fin 4) : (r.unpin i).served = r.served := by
  unfold served unpin
  by_cases h : r.cur = i
  · subst h
    simp
  · simp [Function.update_of_ne h]

end Ring

/-! ## Reading the files -/

section reading
variable (xxh3 : Bytes → UInt64)

/-- The whole records of a run of frames: where they end, or the corruption
    that stopped the scan. -/
def wholeEnd (frames : Bytes) : Except Error Nat :=
  match (scan xxh3 frames 0 none).corrupt with
  | some e => .error e
  | none => .ok (scan xxh3 frames 0 none).stop

/-- `reload_wal_tail`: publish the whole records behind `pos`; the ring and the
    new offset. -/
def reloadWalTail (r : Ring) (log : Option DiskLog) (pos : Nat) : Except Error (Ring × Nat) :=
  match log with
  | none => .ok (r, pos)
  | some l => do
    let stop ← wholeEnd xxh3 (l.tail pos)
    let (g, _) ← r.served.publishNew ((l.tail pos).take stop) 0
    .ok (r.serve g, pos + stop)

/-- `apply_log`: publish the records of a log that the served generation has
    not seen. `none` when the log belongs to another generation; else the ring
    and the log's committed length. -/
def applyLog (r : Ring) (log : Option DiskLog) : Except Error (Option (Ring × Nat)) :=
  match log with
  | none => .ok (some (r, headerLen))
  | some l =>
    if l.generation ≠ r.served.base.generation then .ok none
    else do
      let stop ← wholeEnd xxh3 l.frames
      match (records l.frames 0 stop).find? fun rec => r.served.servedSeq < rec.lastSeq with
      | none => .ok (some (r, headerLen + stop))
      | some rec => do
        let (g, _) ← r.served.publishNew (range l.frames rec.offset (stop - rec.offset)) 0
        .ok (some (r.serve g, headerLen + stop))

/-- A generation rebuilt from a base and a log, before any disk side
    effect. -/
structure Built where
  gen : Gen
  nextSeq : Nat
  goodLen : Nat
  log : LogState

/-- `matches!(log, LogState::Current { .. })`. -/
def isCurrent : LogState → Bool
  | .current _ => true
  | _ => false

/-- `build_generation`. -/
def buildGeneration (b : DiskBase) (log : Option DiskLog) : Except Error Built :=
  match log with
  | none => .ok ⟨⟨b, [], 0⟩, b.applied + 1, 0, .empty⟩
  | some l =>
    if b.generation < l.generation then .ok ⟨⟨b, [], 0⟩, b.applied + 1, 0, .newer⟩
    else if l.generation < b.generation then
      .ok ⟨⟨b, [], 0⟩, b.applied + 1, headerLen, .stale⟩
    else do
      let stop ← wholeEnd xxh3 l.frames
      let nextSeq := ((scan xxh3 l.frames 0 none).lastSeq.map fun s => max s b.applied).getD
        b.applied + 1
      match (Gen.mk b [] 0).publishAbove b.applied (l.frames.take stop) headerLen with
      | .error _ => .error (.busy "overlay arena full during replay")
      | .ok (g, _) => .ok ⟨g, nextSeq, headerLen + stop, .current (stop < l.frames.length)⟩

/-- What a full re-read made of the log: the ring after it, the log offset
    consumed, and whether the log belongs to the base. -/
structure Applied where
  ring : Ring
  pos : Nat
  current : Bool

/-- `install_or_apply`. `none` when the log is newer than the base: the caller
    re-reads. -/
def installOrApply (r : Ring) (b : DiskBase) (log : Option DiskLog) :
    Except Error (Option Applied) := do
  if b.generation = r.served.base.generation then
    match ← applyLog xxh3 r log with
    | some (r', pos) => .ok (some ⟨r', pos, log.isSome⟩)
    | none =>
      if log.any fun l => b.generation < l.generation then .ok none
      else .ok (some ⟨r, headerLen, false⟩)
  else do
    let built ← buildGeneration xxh3 b log
    let current := isCurrent built.log
    if built.log = .newer then .ok none
    else
      match r.install built.gen with
      | some r' => .ok (some ⟨r', built.goodLen, current⟩)
      | none =>
        -- every other slot is pinned: keep serving, if nothing folded is missed
        if r.served.servedSeq < b.applied then
          .error (.busy "all generation slots pinned by snapshots")
        else if built.gen.segs = 0 then .ok (some ⟨r, built.goodLen, current⟩)
        else
          match log with
          | none => .ok (some ⟨r, built.goodLen, current⟩)
          | some l => do
            let (g, _) ← r.served.publishNew (l.frames.take (built.goodLen - headerLen)) headerLen
            .ok (some ⟨r.serve g, built.goodLen, current⟩)

end reading

end GraphR.Multi
