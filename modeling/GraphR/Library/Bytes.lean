import Mathlib.Tactic
import Mathlib.Data.List.Basic
import Mathlib.Data.List.Flatten

/-! # Byte strings and the little-endian codec

    The part of the development that is about bytes and nothing else:

    - `range` and `splice`, the read and the in-place overwrite of a run of
      bytes,
    - `leBytes` / `leNat`, the little-endian code of a natural number at a
      given width, and the fixed-width words built on it,
    - `chunk` lemmas: a table of equally long entries, read by index.

    A reader is total (a range past the end comes out short); `inBounds` says
    when nothing was cut. -/

namespace ByteLib

/-- A byte string. -/
abbrev Bytes : Type := List UInt8

/-! ## Ranges -/

/-- The bytes `bs[off .. off + n]`, cut short at the end of `bs`. -/
def range (bs : Bytes) (off n : Nat) : Bytes := (bs.drop off).take n

/-- The range `bs[off .. off + n]` lies inside `bs`. -/
def inBounds (bs : Bytes) (off n : Nat) : Prop := off + n ≤ bs.length

instance (bs : Bytes) (off n : Nat) : Decidable (inBounds bs off n) :=
  inferInstanceAs (Decidable (off + n ≤ bs.length))

/-- The byte at `i` (zero past the end). -/
def byteAt (bs : Bytes) (i : Nat) : UInt8 := bs.getD i 0

theorem length_range (bs : Bytes) (off n : Nat) :
    (range bs off n).length = min n (bs.length - off) := by
  simp [range]

theorem length_range_of_inBounds {bs : Bytes} {off n : Nat} (h : inBounds bs off n) :
    (range bs off n).length = n := by
  have h' : off + n ≤ bs.length := h
  rw [length_range]; omega

theorem range_append_right {a b : Bytes} {off n : Nat} (h : a.length ≤ off) :
    range (a ++ b) off n = range b (off - a.length) n := by
  simp [range, List.drop_append, List.drop_eq_nil_of_le h]

theorem range_append_left {a b : Bytes} {off n : Nat} (h : off + n ≤ a.length) :
    range (a ++ b) off n = range a off n := by
  unfold range
  rw [List.drop_append_of_le_length (by omega), List.take_append_of_le_length]
  simp; omega

theorem range_zero_append {a b : Bytes} {n : Nat} (h : a.length = n) :
    range (a ++ b) 0 n = a := by
  subst h
  simp [range]

theorem range_zero_self {a : Bytes} {n : Nat} (h : a.length = n) : range a 0 n = a := by
  subst h
  simp [range]

theorem range_range {bs : Bytes} {off n off' n' : Nat} (h : off' + n' ≤ n) :
    range (range bs off n) off' n' = range bs (off + off') n' := by
  unfold range
  rw [List.drop_take, List.take_take, List.drop_drop]
  congr 1
  omega

theorem range_drop (bs : Bytes) (k off n : Nat) :
    range (bs.drop k) off n = range bs (k + off) n := by
  simp [range, List.drop_drop]

theorem range_take {bs : Bytes} {k off n : Nat} (h : off + n ≤ k) :
    range (bs.take k) off n = range bs off n := by
  unfold range
  rw [List.drop_take, List.take_take]
  congr 1
  omega

@[simp] theorem range_cons_succ (b : UInt8) (bs : Bytes) (off n : Nat) :
    range (b :: bs) (off + 1) n = range bs off n := rfl

theorem byteAt_append_right {a b : Bytes} {i : Nat} (h : a.length ≤ i) :
    byteAt (a ++ b) i = byteAt b (i - a.length) := by
  simp [byteAt, List.getElem?_append_right h]

theorem byteAt_append_left {a b : Bytes} {i : Nat} (h : i < a.length) :
    byteAt (a ++ b) i = byteAt a i := by
  simp [byteAt, List.getElem?_append_left h]

theorem byteAt_range {bs : Bytes} {off n i : Nat} (h : i < n) :
    byteAt (range bs off n) i = byteAt bs (off + i) := by
  simp [byteAt, range, List.getElem?_drop, h]

theorem byteAt_take {bs : Bytes} {k i : Nat} (h : i < k) :
    byteAt (bs.take k) i = byteAt bs i := by
  simp [byteAt, h]

@[simp] theorem byteAt_cons_zero (b : UInt8) (bs : Bytes) : byteAt (b :: bs) 0 = b := rfl

@[simp] theorem byteAt_cons_succ (b : UInt8) (bs : Bytes) (i : Nat) :
    byteAt (b :: bs) (i + 1) = byteAt bs i := by
  simp [byteAt]

/-! ## Overwriting -/

/-- `bs` written over `buf` from `pos` on (`copy_from_slice` into
    `buf[pos .. pos + bs.len()]`). -/
def splice (buf : Bytes) (pos : Nat) (bs : Bytes) : Bytes :=
  buf.take pos ++ bs ++ buf.drop (pos + bs.length)

theorem splice_append {a old b bs : Bytes} (h : old.length = bs.length) :
    splice (a ++ (old ++ b)) a.length bs = a ++ (bs ++ b) := by
  unfold splice
  rw [List.take_left, ← h, ← List.length_append, ← List.append_assoc a old b, List.drop_left,
    List.append_assoc]

/-! ## The little-endian code -/

/-- `v` in `n` bytes, least significant first (high digits dropped). -/
def leBytes : Nat → Nat → Bytes
  | 0, _ => []
  | n + 1, v => UInt8.ofNat v :: leBytes n (v / 256)

/-- The number a byte string codes, least significant byte first. -/
def leNat : Bytes → Nat
  | [] => 0
  | b :: bs => b.toNat + 256 * leNat bs

@[simp] theorem length_leBytes (n v : Nat) : (leBytes n v).length = n := by
  induction n generalizing v with
  | zero => rfl
  | succ n ih => simp [leBytes, ih]

theorem leNat_leBytes (n v : Nat) : leNat (leBytes n v) = v % 256 ^ n := by
  induction n generalizing v with
  | zero => simp [leBytes, leNat, Nat.mod_one]
  | succ n ih =>
    have hb : (UInt8.ofNat v).toNat = v % 256 := by simp
    rw [leBytes, leNat, ih, hb, Nat.pow_succ', Nat.mod_mul]

theorem leNat_leBytes_of_lt {n v : Nat} (h : v < 256 ^ n) : leNat (leBytes n v) = v := by
  rw [leNat_leBytes, Nat.mod_eq_of_lt h]

/-! ## Fixed-width words -/

def putU16 (v : UInt16) : Bytes := leBytes 2 v.toNat
def putU32 (v : UInt32) : Bytes := leBytes 4 v.toNat
def putU64 (v : UInt64) : Bytes := leBytes 8 v.toNat

def u16At (bs : Bytes) (off : Nat) : UInt16 := UInt16.ofNat (leNat (range bs off 2))
def u32At (bs : Bytes) (off : Nat) : UInt32 := UInt32.ofNat (leNat (range bs off 4))
def u64At (bs : Bytes) (off : Nat) : UInt64 := UInt64.ofNat (leNat (range bs off 8))

@[simp] theorem length_putU16 (v : UInt16) : (putU16 v).length = 2 := length_leBytes 2 _
@[simp] theorem length_putU32 (v : UInt32) : (putU32 v).length = 4 := length_leBytes 4 _
@[simp] theorem length_putU64 (v : UInt64) : (putU64 v).length = 8 := length_leBytes 8 _

@[simp] theorem u16At_putU16_append (v : UInt16) (bs : Bytes) : u16At (putU16 v ++ bs) 0 = v := by
  rw [u16At, range_zero_append (length_putU16 v), putU16, leNat_leBytes_of_lt v.toNat_lt]
  simp

@[simp] theorem u32At_putU32_append (v : UInt32) (bs : Bytes) : u32At (putU32 v ++ bs) 0 = v := by
  rw [u32At, range_zero_append (length_putU32 v), putU32, leNat_leBytes_of_lt v.toNat_lt]
  simp

@[simp] theorem u64At_putU64_append (v : UInt64) (bs : Bytes) : u64At (putU64 v ++ bs) 0 = v := by
  rw [u64At, range_zero_append (length_putU64 v), putU64, leNat_leBytes_of_lt v.toNat_lt]
  simp

@[simp] theorem u16At_putU16 (v : UInt16) : u16At (putU16 v) 0 = v := by
  simpa using u16At_putU16_append v []

@[simp] theorem u32At_putU32 (v : UInt32) : u32At (putU32 v) 0 = v := by
  simpa using u32At_putU32_append v []

@[simp] theorem u64At_putU64 (v : UInt64) : u64At (putU64 v) 0 = v := by
  simpa using u64At_putU64_append v []

/-! ### A word read depends on the bytes of its range only -/

theorem u16At_congr {a b : Bytes} {i j : Nat} (h : range a i 2 = range b j 2) :
    u16At a i = u16At b j := by rw [u16At, h, u16At]

theorem u32At_congr {a b : Bytes} {i j : Nat} (h : range a i 4 = range b j 4) :
    u32At a i = u32At b j := by rw [u32At, h, u32At]

theorem u64At_congr {a b : Bytes} {i j : Nat} (h : range a i 8 = range b j 8) :
    u64At a i = u64At b j := by rw [u64At, h, u64At]

theorem u16At_append_right {a b : Bytes} {off : Nat} (h : a.length ≤ off) :
    u16At (a ++ b) off = u16At b (off - a.length) := u16At_congr (range_append_right h)

theorem u32At_append_right {a b : Bytes} {off : Nat} (h : a.length ≤ off) :
    u32At (a ++ b) off = u32At b (off - a.length) := u32At_congr (range_append_right h)

theorem u64At_append_right {a b : Bytes} {off : Nat} (h : a.length ≤ off) :
    u64At (a ++ b) off = u64At b (off - a.length) := u64At_congr (range_append_right h)

theorem u16At_append_left {a b : Bytes} {off : Nat} (h : off + 2 ≤ a.length) :
    u16At (a ++ b) off = u16At a off := u16At_congr (range_append_left h)

theorem u32At_append_left {a b : Bytes} {off : Nat} (h : off + 4 ≤ a.length) :
    u32At (a ++ b) off = u32At a off := u32At_congr (range_append_left h)

theorem u64At_append_left {a b : Bytes} {off : Nat} (h : off + 8 ≤ a.length) :
    u64At (a ++ b) off = u64At a off := u64At_congr (range_append_left h)

@[simp] theorem u16At_cons_succ (b : UInt8) (bs : Bytes) (off : Nat) :
    u16At (b :: bs) (off + 1) = u16At bs off := u16At_congr rfl

@[simp] theorem u32At_cons_succ (b : UInt8) (bs : Bytes) (off : Nat) :
    u32At (b :: bs) (off + 1) = u32At bs off := u32At_congr rfl

@[simp] theorem u64At_cons_succ (b : UInt8) (bs : Bytes) (off : Nat) :
    u64At (b :: bs) (off + 1) = u64At bs off := u64At_congr rfl

theorem u32At_range {bs : Bytes} {off n i : Nat} (h : i + 4 ≤ n) :
    u32At (range bs off n) i = u32At bs (off + i) := u32At_congr (range_range h)

theorem u64At_range {bs : Bytes} {off n i : Nat} (h : i + 8 ≤ n) :
    u64At (range bs off n) i = u64At bs (off + i) := u64At_congr (range_range h)

theorem u32At_drop (bs : Bytes) (k i : Nat) : u32At (bs.drop k) i = u32At bs (k + i) :=
  u32At_congr (range_drop bs k i 4)

/-! ## Tables of equally long entries -/

section chunk
variable {α : Type} {w : Nat} {enc : α → Bytes}

theorem length_flatMap_const (hw : ∀ x, (enc x).length = w) (xs : List α) :
    (xs.flatMap enc).length = w * xs.length := by
  induction xs with
  | nil => rfl
  | cons x xs ih =>
    rw [List.flatMap_cons, List.length_append, hw, ih, List.length_cons, Nat.mul_succ]
    omega

/-- Entry `i` of a table of `w`-byte entries starts at `w * i`. -/
theorem range_chunk (hw : ∀ x, (enc x).length = w) (xs : List α) (post : Bytes) (i : Nat)
    (hi : i < xs.length) {off n : Nat} (h : off + n ≤ w) :
    range (xs.flatMap enc ++ post) (w * i + off) n = range (enc xs[i]) off n := by
  induction xs generalizing i with
  | nil => exact absurd hi (by simp)
  | cons x xs ih =>
    have hx := hw x
    rw [List.flatMap_cons, List.append_assoc]
    cases i with
    | zero =>
      rw [Nat.mul_zero, Nat.zero_add, range_append_left (by omega)]
      rfl
    | succ i =>
      have hge : (enc x).length ≤ w * (i + 1) + off := by rw [hx, Nat.mul_succ]; omega
      have hsub : w * (i + 1) + off - (enc x).length = w * i + off := by
        rw [hx, Nat.mul_succ]; omega
      rw [range_append_right hge, hsub, ih i (by simpa using hi)]
      rfl

end chunk

end ByteLib
