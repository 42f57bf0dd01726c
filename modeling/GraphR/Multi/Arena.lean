import GraphR.Library.Chunks
import GraphR.Format.Wal.Placed
import GraphR.Format.Wal.RoundTrip
import GraphR.Multi.Files

/-! # The overlay arena

    The committed ops of a generation as the source keeps them: records in
    segment cells, one entry a published op that says where it lies, and a
    frontier that is stored once a publication, after everything below it is in
    place. What it is for is a list of numbered ops that only grows: every
    publication appends the ops of its records above what is served, and what a
    reader captured before stays as it was. -/

namespace GraphR.Multi

open Wal ByteLib ChunkLib

/-! ## Cells -/

/-- Cells of chunk 0. -/
def baseCap : Nat := 64

/-- Number of chunks. -/
def chunkCount : Nat := 20

/-- An entry is `segment << 38 | offset`. -/
def offBits : Nat := 38

/-- Chunk and place of cell `i`. -/
def locate (i : Nat) : Nat × Nat :=
  let x := i / baseCap + 1
  let k := Nat.log2 x
  (k, i - baseCap * (1 <<< k - 1))

/-- One published op: its sequence number and its location. -/
structure Entry where
  seq : UInt64
  loc : UInt64
  deriving DecidableEq, Inhabited

abbrev Cells (T : Type) : Type := Chunks baseCap chunkCount T

/-- Append-only arena of committed log records. A segment cell is set once. -/
structure Arena where
  segs : Cells (Option Bytes)
  entries : Cells Entry
  nsegs : Nat
  frontier : Nat

namespace Arena

def new : Arena := ⟨.new, .new, 0, 0⟩

variable (a : Arena)

/-! ## Reads -/

/-- Entry `i`. -/
def entry (i : Nat) : Option (UInt64 × UInt64) := (a.entries.get? i).map fun e => (e.seq, e.loc)

/-- The op at `off` of a segment, by its own length field. -/
def opAt (seg : Bytes) (off : Nat) : Option Bytes :=
  if off + 4 ≤ seg.length then
    let len := (u32At seg off).toNat
    if off + len ≤ seg.length then some (range seg off len) else none
  else none

/-- The bytes of the op that lies at `loc`. -/
def opBytes (loc : UInt64) : Option Bytes := do
  let seg ← (← a.segs.get? (loc >>> offBits.toUInt64).toNat)
  opAt seg (loc &&& offMask.toUInt64).toNat

/-- The op that lies at `loc`, read in place. -/
def view (loc : UInt64) : Option OpView := (a.opBytes loc).bind OpView.trusted

/-! ## Reserving -/

/-- Make room for one segment of `bytes` holding `ops` ops. -/
def reserve (ops bytes : Nat) : Option Arena :=
  let stop := a.frontier + ops
  if arenaCapacity < stop ∨ arenaCapacity ≤ a.nsegs ∨ offMask < bytes then none
  else some { a with
    segs := a.segs.make a.nsegs
    entries := a.entries.makeTo stop chunkCount a.frontier }

/-! ## Publishing -/

/-- One store of a publication, as another thread can see it. -/
inductive Store where
  /-- The segment cell is set, unless it is set already. -/
  | seg (s : Nat) (bytes : Bytes)
  | nsegs (n : Nat)
  | seq (i : Nat) (v : UInt64)
  | loc (i : Nat) (v : UInt64)
  | frontier (n : Nat)

/-- Set segment cell `s`; a cell that is set keeps what it has. -/
def setSeg (s : Nat) (bytes : Bytes) : Arena :=
  match a.segs.get? s with
  | some none => { a with segs := a.segs.put s (some bytes) }
  | _ => a

def store (a : Arena) : Store → Arena
  | .seg s bytes => a.setSeg s bytes
  | .nsegs n => { a with nsegs := n }
  | .seq i v => { a with entries := a.entries.put i { (a.entries.get? i).getD default with seq := v } }
  | .loc i v => { a with entries := a.entries.put i { (a.entries.get? i).getD default with loc := v } }
  | .frontier n => { a with frontier := n }

/-- The stores of the entries from `i` on, and where they end: at the last op,
    or at the last cell. -/
def entryStores (s i : Nat) : List (UInt64 × Nat) → List Store × Nat
  | [] => ([], i)
  | (seq, off) :: ops =>
    if (locate i).1 < chunkCount then
      let (stores, stop) := entryStores s (i + 1) ops
      (.seq i seq :: .loc i (s.toUInt64 <<< offBits.toUInt64 ||| off.toUInt64) :: stores, stop)
    else ([], i)

/-- The stores of `publish`, in order: `ops` reads the segment from its cell and
    gives the number and the offset of each op to make visible. -/
def stores (seg : Bytes) (ops : Bytes → List (UInt64 × Nat)) : List Store :=
  if (locate a.nsegs).1 < chunkCount then
    let bytes := (((a.store (.seg a.nsegs seg)).segs.get? a.nsegs).join).getD []
    let (stores, stop) := entryStores a.nsegs a.frontier (ops bytes)
    .seg a.nsegs seg :: .nsegs (a.nsegs + 1) :: (stores ++ [.frontier stop])
  else []

/-- Publish one segment, reserved beforehand. -/
def publish (seg : Bytes) (ops : Bytes → List (UInt64 × Nat)) : Arena :=
  (a.stores seg ops).foldl store a

/-- The numbers and offsets of the ops of `seg` above `above`. -/
def opsAbove (start above : Nat) (seg : Bytes) : List (UInt64 × Nat) :=
  (((records seg start seg.length).flatMap Record.ops).filter fun p => above < p.1).map
    fun p => (p.1.toUInt64, p.2.1)

/-- `publish_records`. -/
def publishRecords (seg : Bytes) (start above : Nat) : Arena :=
  a.publish seg (opsAbove start above)

/-- `publish_above`. -/
def publishAbove (served : Nat) (seg : Bytes) (start : Nat) : Except Error (Arena × Bool) :=
  let new := Gen.newOps served (records seg start seg.length)
  if new = 0 then .ok (a, false)
  else
    match a.reserve new seg.length with
    | none => .error (.busy "overlay arena full")
    | some a => .ok (a.publishRecords seg start served, true)

/-- What a commit publishes: its staged ops, sealed from `firstSeq` on. -/
def publishOwn (xxh3 : Bytes → UInt64) (staged : RecordBuf) (firstSeq : UInt64) :
    Except Error Arena := do
  let sealed ← staged.seal xxh3 firstSeq
  match a.reserve staged.ops sealed.buf.length with
  | none => .error (.busy "overlay arena full")
  | some a => .ok (a.publishRecords sealed.buf 0 (firstSeq.toNat - 1))

end Arena

/-! ## Publications -/

/-- What a publication hands over: a segment, where its records start, the
    number above which its ops are published, and how many were counted. -/
structure Segment where
  bytes : Bytes
  start : Nat
  above : Nat
  count : Nat

namespace Segment

/-- The ops to publish, numbered, as the records of the segment hold them. -/
def published (g : Segment) : List SeqOp :=
  ((records g.bytes g.start g.bytes.length).flatMap fun r => r.rawOps.map fun p => (p.1, p.2.2)).filter
    fun p => g.above < p.1

end Segment

/-- The two ways into the arena. -/
inductive Publication where
  /-- `publish_above`: a run of records read from a log. -/
  | above (served : Nat) (seg : Bytes) (start : Nat)
  /-- `append_held`: the staged ops of a commit. -/
  | own (staged : RecordBuf) (firstSeq : UInt64)

namespace Publication

section xxh3
variable (xxh3 : Bytes → UInt64)

/-- What it hands over. -/
def segment : Publication → Except Error Segment
  | above served seg start =>
    .ok ⟨seg, start, served, Gen.newOps served (records seg start seg.length)⟩
  | own staged firstSeq => do
    let sealed ← staged.seal xxh3 firstSeq
    .ok ⟨sealed.buf, 0, firstSeq.toNat - 1, staged.ops⟩

/-- The ops it publishes. -/
def ops (p : Publication) : List SeqOp :=
  match p.segment xxh3 with
  | .ok g => g.published
  | .error _ => []

/-- What its callers promise: the records were validated, whole, to the end of
    the segment; the staging buffer holds validated ops. -/
def Whole : Publication → Prop
  | above _ seg start =>
    start ≤ seg.length ∧ ∃ after rs, Validated xxh3 seg start after rs seg.length
  | own staged _ => ∃ cs, Holds staged cs

end xxh3

end Publication

namespace Arena

section runs
variable (xxh3 : Bytes → UInt64)

/-- The arena after a publication. -/
def publication (a : Arena) : Publication → Except Error Arena
  | .above served seg start => (a.publishAbove served seg start).map Prod.fst
  | .own staged firstSeq => a.publishOwn xxh3 staged firstSeq

/-- The arena after publications, one after another. -/
def run : List Publication → Arena → Except Error Arena
  | [], a => .ok a
  | p :: ps, a => (a.publication xxh3 p).bind (run ps)

/-- The arenas other threads can see while `p` is published: the one with room
    made, and the one after each store. -/
def during (a : Arena) (p : Publication) : List Arena :=
  match p.segment xxh3 with
  | .error _ => []
  | .ok g =>
    if g.count = 0 then []
    else
      match a.reserve g.count g.bytes.length with
      | none => []
      | some r => (r.stores g.bytes (opsAbove g.start g.above)).scanl store r

/-- Every arena other threads can see in a run, in order. -/
def seen : List Publication → Arena → List Arena
  | [], a => [a]
  | p :: ps, a =>
    a :: (a.during xxh3 p ++ match a.publication xxh3 p with
      | .ok b => seen ps b
      | .error _ => [])

end runs

/-! ## What stays -/

/-- What is below the frontier of `a` is the same in `b`. -/
structure Below (a b : Arena) : Prop where
  frontier : a.frontier ≤ b.frontier
  entry : ∀ i < a.frontier, b.entry i = a.entry i
  opBytes : ∀ loc bytes, a.opBytes loc = some bytes → b.opBytes loc = some bytes

theorem Below.refl (a : Arena) : a.Below a := ⟨le_rfl, fun _ _ => rfl, fun _ _ h => h⟩

theorem Below.trans {a b c : Arena} (h : a.Below b) (h' : b.Below c) : a.Below c := by
  refine ⟨h.frontier.trans h'.frontier, ?_, ?_⟩
  · intro i hi
    rw [h'.entry i (lt_of_lt_of_le hi h.frontier), h.entry i hi]
  · intro loc bytes hat
    exact h'.opBytes loc bytes (h.opBytes loc bytes hat)

/-- Entries below `n` and the segments that are set are the same, and no chunk
    is lost. -/
structure Frame (n : Nat) (a b : Arena) : Prop where
  entry : ∀ i < n, b.entries.get? i = a.entries.get? i
  seg : ∀ s bytes, a.segs.get? s = some (some bytes) → b.segs.get? s = some (some bytes)
  made : ∀ i, a.entries.Made i → b.entries.Made i
  segMade : ∀ s, a.segs.Made s → b.segs.Made s

namespace Frame

variable {n : Nat} {a b c : Arena}

theorem refl (n : Nat) (a : Arena) : Frame n a a :=
  ⟨fun _ _ => rfl, fun _ _ h => h, fun _ h => h, fun _ h => h⟩

theorem trans (h : Frame n a b) (h' : Frame n b c) : Frame n a c := by
  refine ⟨?_, ?_, ?_, ?_⟩
  · intro i hi
    rw [h'.entry i hi, h.entry i hi]
  · intro s bytes hs
    exact h'.seg s bytes (h.seg s bytes hs)
  · intro i hi
    exact h'.made i (h.made i hi)
  · intro s hs
    exact h'.segMade s (h.segMade s hs)

/-- An op that lies in `a` lies in `b`. -/
theorem opBytes (h : Frame n a b) {loc : UInt64} {bytes : Bytes}
    (hat : a.opBytes loc = some bytes) : b.opBytes loc = some bytes := by
  unfold Arena.opBytes at hat ⊢
  cases hseg : a.segs.get? (loc >>> offBits.toUInt64).toNat with
  | none =>
    rw [hseg] at hat
    cases hat
  | some cell =>
    rw [hseg] at hat
    cases cell with
    | none => cases hat
    | some seg =>
      rw [h.seg _ _ hseg]
      exact hat

theorem below (h : Frame a.frontier a b) (hle : a.frontier ≤ b.frontier) : a.Below b := by
  refine ⟨hle, ?_, ?_⟩
  · intro i hi
    unfold Arena.entry
    rw [h.entry i hi]
  · intro loc bytes hat
    exact h.opBytes hat

end Frame

end Arena

/-! ## Where cells lie -/

theorem locate_eq (i : Nat) : locate i = ChunkLib.locate baseCap i := by
  unfold locate ChunkLib.locate capacity
  simp only [Nat.one_shiftLeft]

theorem capacity_chunkCount : capacity baseCap chunkCount = arenaCapacity := rfl

theorem baseCap_pos : 0 < baseCap := by decide

theorem locate_lt_iff {i : Nat} : (locate i).1 < chunkCount ↔ i < arenaCapacity := by
  rw [locate_eq, locate_fst_lt_iff baseCap_pos, capacity_chunkCount]

theorem get?_isSome_iff {T : Type} [Inhabited T] {c : Cells T} {i : Nat} :
    (c.get? i).isSome = true ↔ i < arenaCapacity := by
  rw [Chunks.get?_isSome baseCap_pos, capacity_chunkCount]

theorem get?_put_cell {T : Type} [Inhabited T] {c : Cells T} {i : Nat} (v : T) (hi : i < arenaCapacity)
    (j : Nat) : (c.put i v).get? j = if i = j then some v else c.get? j :=
  Chunks.get?_put baseCap_pos v hi j

theorem toNat_offBits : offBits.toUInt64.toNat % 64 = 38 := by
  simp [offBits]

theorem toNat_offMask : offMask.toUInt64.toNat = 2 ^ 38 - 1 := by
  simp [offMask]

/-- An entry's location gives back its segment and its offset. -/
theorem pack_shift {s off : Nat} (hs : s < 2 ^ 26) (hoff : off ≤ offMask) :
    ((s.toUInt64 <<< offBits.toUInt64 ||| off.toUInt64) >>> offBits.toUInt64).toNat = s ∧
    ((s.toUInt64 <<< offBits.toUInt64 ||| off.toUInt64) &&& offMask.toUInt64).toNat = off := by
  have hoff' : off < 2 ^ 38 := by
    simp only [offMask] at hoff
    omega
  have hs' : s.toUInt64.toNat = s := by
    rw [Nat.toUInt64, UInt64.toNat_ofNat', Nat.mod_eq_of_lt (by omega)]
  have ho' : off.toUInt64.toNat = off := by
    rw [Nat.toUInt64, UInt64.toNat_ofNat', Nat.mod_eq_of_lt (by omega)]
  have hpack : (s.toUInt64 <<< offBits.toUInt64 ||| off.toUInt64).toNat = s * 2 ^ 38 + off := by
    rw [UInt64.toNat_or, UInt64.toNat_shiftLeft, toNat_offBits, hs', ho', Nat.mod_eq_of_lt,
      ← Nat.shiftLeft_add_eq_or_of_lt hoff', Nat.shiftLeft_eq]
    rw [Nat.shiftLeft_eq]
    omega
  constructor
  · rw [UInt64.toNat_shiftRight, toNat_offBits, hpack, Nat.shiftRight_eq_div_pow]
    omega
  · rw [UInt64.toNat_and, hpack, toNat_offMask, Nat.and_two_pow_sub_one_eq_mod]
    omega

namespace Arena


/-! ## One store -/

/-- A store that touches no entry below `n`, and none past the last cell. -/
def Store.From (n : Nat) : Store → Prop
  | .seq i _ => n ≤ i ∧ i < arenaCapacity
  | .loc i _ => n ≤ i ∧ i < arenaCapacity
  | _ => True

/-- A store into an entry. -/
def Store.OfEntry : Store → Prop
  | .seq _ _ => True
  | .loc _ _ => True
  | _ => False

theorem Store.From.mono {n m : Nat} {st : Store} (h : st.From n) (hm : m ≤ n) : st.From m := by
  cases st with
  | seq i v => exact ⟨hm.trans h.1, h.2⟩
  | loc i v => exact ⟨hm.trans h.1, h.2⟩
  | seg s bytes => trivial
  | nsegs n => trivial
  | frontier n => trivial

section frames
variable {n : Nat} {a : Arena}

theorem frame_entry (i : Nat) (e : Entry) (hn : n ≤ i) (hi : i < arenaCapacity) :
    Frame n a { a with entries := a.entries.put i e } := by
  refine ⟨?_, fun _ _ h => h, ?_, fun _ h => h⟩
  · intro j hj
    show (a.entries.put i e).get? j = _
    rw [get?_put_cell e hi, if_neg (by omega)]
  · intro j hj
    exact hj.put i e

theorem frame_store {st : Store} (h : st.From n) : Frame n a (a.store st) := by
  cases st with
  | seq i v => exact frame_entry i _ h.1 h.2
  | loc i v => exact frame_entry i _ h.1 h.2
  | nsegs m => exact ⟨fun _ _ => rfl, fun _ _ h => h, fun _ h => h, fun _ h => h⟩
  | frontier m => exact ⟨fun _ _ => rfl, fun _ _ h => h, fun _ h => h, fun _ h => h⟩
  | seg s bytes =>
    show Frame n a (a.setSeg s bytes)
    unfold setSeg
    split
    · -- the cell was not set
      rename_i hcell
      have hs : s < arenaCapacity := get?_isSome_iff.mp (by rw [hcell]; rfl)
      refine ⟨fun _ _ => rfl, ?_, fun _ h => h, ?_⟩
      · intro t old ht
        show (a.segs.put s (some bytes)).get? t = _
        have hne : s ≠ t := by
          rintro rfl
          rw [hcell] at ht
          cases ht
        rw [get?_put_cell _ hs, if_neg hne]
        exact ht
      · intro t ht
        exact ht.put s _
    · exact Frame.refl n a

theorem frame_stores {l : List Store} (h : ∀ st ∈ l, st.From n) : Frame n a (l.foldl store a) := by
  induction l generalizing a with
  | nil => exact Frame.refl n a
  | cons st l ih =>
    have hhead : Frame n a (a.store st) := frame_store (h st (by simp))
    have htail := ih (a := a.store st) fun t ht => h t (by simp [ht])
    exact hhead.trans htail

end frames

/-! ## The stores of a publication -/

/-- Where op `op` of segment `s` lies. -/
def pack (s off : Nat) : UInt64 := s.toUInt64 <<< offBits.toUInt64 ||| off.toUInt64

theorem entryStores_cons {s i : Nat} {op : UInt64 × Nat} {ops : List (UInt64 × Nat)}
    (hi : i < arenaCapacity) :
    entryStores s i (op :: ops) = (.seq i op.1 :: .loc i (pack s op.2) :: (entryStores s (i + 1) ops).1,
      (entryStores s (i + 1) ops).2) := by
  rw [entryStores, if_pos (locate_lt_iff.mpr hi)]
  rfl

/-- Where there is room, no op is left out. -/
theorem entryStores_stop {s i : Nat} {ops : List (UInt64 × Nat)}
    (hroom : i + ops.length ≤ arenaCapacity) : (entryStores s i ops).2 = i + ops.length := by
  induction ops generalizing i with
  | nil => rfl
  | cons op ops ih =>
    rw [List.length_cons] at hroom ⊢
    rw [entryStores_cons (by omega)]
    simp only
    rw [ih (by omega)]
    omega

theorem entryStores_from {s i : Nat} {ops : List (UInt64 × Nat)}
    (hroom : i + ops.length ≤ arenaCapacity) :
    ∀ st ∈ (entryStores s i ops).1, st.From i ∧ st.OfEntry := by
  induction ops generalizing i with
  | nil => simp [entryStores]
  | cons op ops ih =>
    rw [List.length_cons] at hroom
    rw [entryStores_cons (by omega)]
    intro st hst
    simp only [List.mem_cons] at hst
    rcases hst with rfl | rfl | hst
    · exact ⟨⟨le_rfl, by omega⟩, trivial⟩
    · exact ⟨⟨le_rfl, by omega⟩, trivial⟩
    · obtain ⟨hfrom, hentry⟩ := ih (by omega) st hst
      exact ⟨hfrom.mono (by omega), hentry⟩

/-- Every entry is in place after them. -/
theorem entries_entryStores {s i : Nat} {ops : List (UInt64 × Nat)} {a : Arena}
    (hroom : i + ops.length ≤ arenaCapacity) {m : Nat} {op : UInt64 × Nat} (hop : ops[m]? = some op) :
    ((entryStores s i ops).1.foldl store a).entries.get? (i + m) = some ⟨op.1, pack s op.2⟩ := by
  induction ops generalizing i m a with
  | nil => simp at hop
  | cons first ops ih =>
    rw [List.length_cons] at hroom
    rw [entryStores_cons (by omega), List.foldl_cons, List.foldl_cons]
    cases m with
    | zero =>
      -- this entry's two stores, then stores after it
      cases hop
      have hfrom : ∀ st ∈ (entryStores s (i + 1) ops).1, st.From (i + 1) :=
        fun st hst => (entryStores_from (by omega) st hst).1
      have hrest := frame_stores (a := (a.store (.seq i op.1)).store (.loc i (pack s op.2))) hfrom
      rw [Nat.add_zero]
      refine (hrest.entry i (by omega)).trans ?_
      have hseq : (a.store (.seq i op.1)).entries.get? i
          = some { (a.entries.get? i).getD default with seq := op.1 } :=
        (get?_put_cell _ (by omega) i).trans (if_pos rfl)
      have hloc : ((a.store (.seq i op.1)).store (.loc i (pack s op.2))).entries.get? i
          = some { ((a.store (.seq i op.1)).entries.get? i).getD default with loc := pack s op.2 } :=
        (get?_put_cell _ (by omega) i).trans (if_pos rfl)
      rw [hloc, hseq]
      rfl
    | succ m =>
      have htail := ih (i := i + 1) (a := (a.store (.seq i first.1)).store (.loc i (pack s first.2)))
        (by omega) (m := m) hop
      rwa [show i + (m + 1) = i + 1 + m by omega]

/-- Only the frontier's own store moves it. -/
theorem foldl_frontier {l : List Store} {a : Arena} (h : ∀ st ∈ l, ∀ n, st ≠ .frontier n) :
    (l.foldl store a).frontier = a.frontier := by
  induction l generalizing a with
  | nil => rfl
  | cons st l ih =>
    rw [List.foldl_cons, ih fun t ht => h t (by simp [ht])]
    cases st with
    | frontier n => exact absurd rfl (h (.frontier n) (by simp) n)
    | seq i v => rfl
    | loc i v => rfl
    | nsegs m => rfl
    | seg s bytes =>
      show (a.setSeg s bytes).frontier = _
      unfold setSeg
      split <;> rfl

theorem foldl_ofEntry {l : List Store} {a : Arena} (h : ∀ st ∈ l, st.OfEntry) :
    (l.foldl store a).segs = a.segs ∧ (l.foldl store a).nsegs = a.nsegs := by
  induction l generalizing a with
  | nil => exact ⟨rfl, rfl⟩
  | cons st l ih =>
    obtain ⟨hsegs, hnsegs⟩ := ih (a := a.store st) fun t ht => h t (by simp [ht])
    rw [List.foldl_cons, hsegs, hnsegs]
    have hst := h st (by simp)
    cases st with
    | seq i v => exact ⟨rfl, rfl⟩
    | loc i v => exact ⟨rfl, rfl⟩
    | seg s bytes => exact hst.elim
    | nsegs n => exact hst.elim
    | frontier n => exact hst.elim

end Arena

end GraphR.Multi
