import GraphR.Multi.Step
import GraphR.Multi.Log

/-! # The invariant of the protocol

    `hist` is the list of committed records. A base has folded a prefix of it,
    how long depends on its generation alone (`fold`); the log of a generation
    holds the records behind that prefix, and behind them at most a torn one.
    A handle serves a prefix of `hist`, at least as long as what it has consumed
    of the log its stamp names.

    What is asked of a handle (`HandleOk`) mentions the log's identity and
    generation but not its bytes, and of `hist` only the part it serves, so an
    append by another handle does not touch it. -/

namespace GraphR.Multi

open Wal ByteLib

/-! ## The shared part -/

/-- What handles are compared with: the committed records, how many of them the
    base of each generation has folded, the two files, the next file identity
    and every base that was in place. -/
structure World where
  hist : List SealedRecord
  fold : Nat → Nat
  base : DiskBase
  log : DiskLog
  fresh : Nat
  written : List DiskBase

namespace World

variable (w : World)

/-- How many records precede the log's first. -/
def start : Nat := w.fold w.log.generation

/-- The records of the log. -/
def logged : List SealedRecord := w.hist.drop w.start

end World

/-- A base holds the first `fold` records. -/
structure Folds (hist : List SealedRecord) (fold : Nat → Nat) (b : DiskBase) : Prop where
  le : fold b.generation ≤ hist.length
  ops : b.folded.flatten = opsOf (hist.take (fold b.generation))
  applied : b.applied = endSeq (hist.take (fold b.generation))

/-- The files hold the history. -/
structure DiskOk (xxh3 : Bytes → UInt64) (w : World) : Prop where
  rising : Rising w.hist
  mem : w.base ∈ w.written
  newest : ∀ b ∈ w.written, b.generation ≤ w.base.generation
  ascending : w.written.Pairwise fun a b => a.generation < b.generation
  folds : ∀ b ∈ w.written, Folds w.hist w.fold b
  fold_le : ∀ b ∈ w.written, w.fold b.generation ≤ w.fold w.base.generation
  base_fresh : w.base.ident < w.fresh
  log_fresh : w.log.ident < w.fresh
  log_le : w.log.generation ≤ w.base.generation
  /-- Only the newest base can be ahead of the log. -/
  behind : ∀ b ∈ w.written, w.log.generation < b.generation → b = w.base
  /-- Such a base has folded everything. -/
  folded_all : w.log.generation < w.base.generation → w.fold w.base.generation = w.hist.length
  start_le : w.start ≤ w.hist.length
  frames : ∃ tail, Torn xxh3 tail ∧ w.log.frames = bytesOf xxh3 w.logged ++ tail
  room : (opsOf w.logged).length ≤ arenaCapacity

/-! ## Handles -/

/-- A generation shows the first `k` records. -/
structure Gen.Serves (hist : List SealedRecord) (fold : Nat → Nat) (g : Gen) (k : Nat) : Prop where
  ge : fold g.base.generation ≤ k
  le : k ≤ hist.length
  log : g.log = opsOf ((hist.take k).drop (fold g.base.generation))

/-- Offset `pos` is where the first `j` records of the log end, all of them
    among the first `k`. -/
def AtRecord (hist : List SealedRecord) (start pos k : Nat) : Prop :=
  ∃ j, start + j ≤ k ∧ pos = headerLen + size ((hist.drop start).take j)

/-- The files a stamp names are not in the future. -/
def Stamp.Below (fresh : Nat) (st : Stamp) : Prop :=
  st.base < fresh ∧ ∀ v, st.wal = some v → v.1 < fresh

/-- A handle shows the first `k` records, and what it keeps of the files is
    true of them wherever its stamp still names them. -/
structure HandleOk (w : World) (h : Handle) (k : Nat) : Prop where
  served_mem : h.served.base ∈ w.written
  serves : h.served.Serves w.hist w.fold k
  next_pos : 1 ≤ h.nextSeq
  next_le : h.nextSeq ≤ endSeq (w.hist.take k) + 1
  disk_le : h.diskGeneration ≤ w.base.generation
  seen_le : h.seen.baseGen ≤ w.base.generation
  below : ∀ st, h.seen.stamp = some st → st.Below w.fresh
  /-- Its offset is a record's end in the log it was read from, while that is in place. -/
  pos : h.source = some w.log.ident → AtRecord w.hist w.start h.seen.walPos k
  source_below : ∀ id, h.source = some id → id < w.fresh
  source_seen : ∀ b len, h.seen.stamp = some ⟨b, some (w.log.ident, len)⟩ →
    h.source = some w.log.ident
  onBase : ∀ v, h.seen.stamp = some ⟨w.base.ident, v⟩ →
    h.seen.baseGen = w.base.generation ∧ w.fold w.base.generation ≤ k
  current : ∀ len, h.seen.stamp = some ⟨w.base.ident, some (w.log.ident, len)⟩ →
    (h.seen.logCurrent = true ↔ w.log.generation = w.base.generation)
  wal_seen : ∀ id, h.wal = some id → ∃ b len, h.seen.stamp = some ⟨b, some (id, len)⟩

/-- A base that was mapped under the stamp `now`. -/
structure MappedOk (w : World) (now : Option Stamp) (b : DiskBase) : Prop where
  mem : b ∈ w.written
  below : ∀ st, now = some st → st.Below w.fresh
  same : ∀ v, now = some ⟨w.base.ident, v⟩ → b = w.base

/-- The phases of an operation that takes no lock. -/
def LooseOk (w : World) (h : Handle) : Phase → Prop
  | .based b => ∀ x, b = some x → x < w.fresh
  | .tail now => headerLen ≤ h.seen.walPos ∧ ∃ id len len', now.wal = some (id, len) ∧
      h.seen.stamp = some ⟨now.base, some (id, len')⟩
  | .full now => ∀ st, now = some st → st.Below w.fresh
  | .mapped now b => MappedOk w now b
  | _ => True

/-- The stamp of both files as they are. -/
def World.stamp (w : World) : Stamp := ⟨w.base.ident, some w.log.stamp⟩

/-- A handle caught up under the lock, on a log that ends with its last
    record. -/
structure Synced (xxh3 : Bytes → UInt64) (w : World) (h : Handle) : Prop where
  generation : w.log.generation = w.base.generation
  frames : w.log.frames = bytesOf xxh3 w.logged
  next : h.nextSeq = endSeq w.hist + 1
  disk : h.diskGeneration = w.base.generation
  seen : h.seen = ⟨some w.stamp, w.log.len, true, w.base.generation⟩

/-- How a record relates to the history it was appended to. -/
def Origin.Makes (before : List SealedRecord) (r : SealedRecord) : Origin → Prop
  | .commit staged => r.ops = staged.map Subtype.val
  | .transact left f => ∃ v ops, View.ops v = opsOf before ∧ f v = some ops ∧
      r.ops = (left ++ ops).map Subtype.val

/-- A handle that has written `n` bytes of `r` behind the records `before`. -/
structure Appending (xxh3 : Bytes → UInt64) (w : World) (h : Handle) (before : List SealedRecord)
    (r : SealedRecord) (n : Nat) (origin : Origin) : Prop where
  generation : w.log.generation = w.base.generation
  next : h.nextSeq = endSeq before + 1
  first : r.firstSeq.toNat = endSeq before + 1
  disk : h.diskGeneration = w.base.generation
  seen : h.seen = ⟨some ⟨w.base.ident,
      some (w.log.ident, headerLen + size (before.drop w.start))⟩,
    headerLen + size (before.drop w.start), true, w.base.generation⟩
  wal : h.wal = some w.log.ident
  room : (opsOf (before.drop w.start)).length + r.ops.length ≤ arenaCapacity
  makes : origin.Makes before r
  written : (n < r.len ∧ w.hist = before ∧
      w.log.frames = bytesOf xxh3 w.logged ++ (r.bytes xxh3).take n) ∨
    (n = r.len ∧ w.hist = before ++ [r] ∧ w.log.frames = bytesOf xxh3 w.logged)

/-- The phases under the lock, for a handle that serves `k` records. -/
def LockedOk (xxh3 : Bytes → UInt64) (w : World) (acked : List SealedRecord) (h : Handle)
    (k : Nat) : Phase → Prop
  | .synced => k = w.hist.length ∧ Synced xxh3 w h
  | .appending r n origin _ => ∃ before, k = before.length ∧
      Appending xxh3 w h before r n origin ∧ acked.Sublist before
  | .compacting applied => k = w.hist.length ∧ w.log.generation < w.base.generation ∧
      h.diskGeneration = w.base.generation ∧ applied = endSeq w.hist
  | _ => True

/-- The handle is inside a locked operation. -/
def Phase.isLocked : Phase → Bool
  | .locked | .synced | .appending .. | .compacting _ | .done => true
  | _ => false

/-- What is asked of party `p`. -/
def PartyOk (xxh3 : Bytes → UInt64) (w : World) (lock : Lock) (acked : List SealedRecord) (p : Nat) :
    Party → Prop
  | .out => True
  | .creating => False
  | .opening phase =>
    match phase with
    | .based b => ∀ x, b = some x → x < w.fresh
    | .full now => ∀ st, now = some st → st.Below w.fresh
    | .mapped now b => MappedOk w now b
    | _ => False
  | .live h => (h.phase.isLocked → lock = .held (some p)) ∧ LooseOk w h h.phase ∧
      ∃ k, HandleOk w h k ∧ LockedOk xxh3 w acked h k h.phase

/-! ## The whole -/

/-- A serial execution: each record is its origin's, run on all earlier ones. -/
inductive Serial : List Origin → List SealedRecord → Prop where
  | nil : Serial [] []
  | snoc {os : List Origin} {rs : List SealedRecord} {o : Origin} {r : SealedRecord} :
      Serial os rs → o.Makes rs r → r.firstSeq.toNat = endSeq rs + 1 →
      Serial (os ++ [o]) (rs ++ [r])

/-- Before the store exists. -/
structure Unborn (s : Sys) : Prop where
  base : s.base = none
  log : ∀ l, s.log = some l → l.generation = 1 ∧ l.frames = [] ∧ l.ident < s.fresh
  hist : s.hist = []
  origins : s.origins = []
  acked : s.acked = []
  written : s.written = []
  parties : ∀ p, s.parties p = .out ∨
    (s.parties p = .creating ∧ s.lock = .held (some p)) ∨
    s.parties p = .opening (.based none) ∨ s.parties p = .opening (.full none)

/-- The world of a system whose files are `b` and `l`. -/
def Sys.world (s : Sys) (fold : Nat → Nat) (b : DiskBase) (l : DiskLog) : World :=
  ⟨s.hist, fold, b, l, s.fresh, s.written⟩

/-- Once the store exists. -/
structure Born (xxh3 : Bytes → UInt64) (s : Sys) (fold : Nat → Nat) (b : DiskBase) (l : DiskLog) :
    Prop where
  base : s.base = some b
  log : s.log = some l
  disk : DiskOk xxh3 (s.world fold b l)
  serial : Serial s.origins s.hist
  acked : s.acked.Sublist s.hist
  parties : ∀ p, PartyOk xxh3 (s.world fold b l) s.lock s.acked p (s.parties p)

/-- The invariant. -/
def Inv (xxh3 : Bytes → UInt64) (s : Sys) : Prop :=
  Unborn s ∨ ∃ fold b l, Born xxh3 s fold b l

/-! ## What follows for one handle -/

section consequences
variable {hist : List SealedRecord} {fold : Nat → Nat} {g : Gen} {k : Nat}

theorem Gen.Serves.view_ops (hs : g.Serves hist fold k) (hf : Folds hist fold g.base) :
    g.view.ops = opsOf (hist.take k) := by
  show g.base.folded.flatten ++ g.log = _
  have hsplit : hist.take k = hist.take (fold g.base.generation) ++
      (hist.take k).drop (fold g.base.generation) := by
    conv_lhs => rw [← List.take_append_drop (fold g.base.generation) (hist.take k)]
    rw [List.take_take, Nat.min_eq_left hs.ge]
  rw [hf.ops, hs.log]
  conv_rhs => rw [hsplit, opsOf_append]

/-- The last number of a run of ops. -/
theorem getLast?_opsOf (rs : List SealedRecord) :
    (((opsOf rs).getLast?).map Prod.fst).getD 0 = endSeq rs := by
  induction rs using List.reverseRecOn with
  | nil => rfl
  | append_singleton rs r _ =>
    rw [opsOf_append, opsOf_singleton, endSeq_concat,
      List.getLast?_append_of_ne_nil _ (seqOps_ne_nil r), getLast?_seqOps]
    rfl

theorem Gen.Serves.servedSeq (hs : g.Serves hist fold k) (hf : Folds hist fold g.base)
    (hrise : Rising hist) : g.servedSeq = endSeq (hist.take k) := by
  unfold Gen.servedSeq Gen.lastSeq
  rw [hf.applied, hs.log, getLast?_opsOf]
  have hmono := hrise.endSeq_mono hs.ge
  by_cases hd : (hist.take k).drop (fold g.base.generation) = []
  · -- nothing in the overlay: the base has it all
    have hlen : k ≤ fold g.base.generation := by
      rw [List.drop_eq_nil_iff, List.length_take, Nat.min_eq_left hs.le] at hd
      exact hd
    have heq : k = fold g.base.generation := Nat.le_antisymm hlen hs.ge
    rw [hd, endSeq_nil, ← heq]
    simp
  · have hlast : endSeq ((hist.take k).drop (fold g.base.generation)) = endSeq (hist.take k) := by
      unfold endSeq
      conv_rhs => rw [← List.take_append_drop (fold g.base.generation) (hist.take k)]
      rw [List.getLast?_append_of_ne_nil _ hd]
    rw [hlast]
    exact Nat.max_eq_right hmono

end consequences

end GraphR.Multi
