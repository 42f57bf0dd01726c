import Mathlib.Tactic
import GraphR.Library.Bytes

/-! # Tables, runs and heaps

    How a file of fixed-width records is laid out and read back:

    - a table of records of one width, record `i` at `i * width`,
    - rows of records one after the other, under an index of where each starts
      (`Csr`),
    - a heap of pieces of any length, each found by its offset and length,
    - rows filled by scattering pairs over them. -/

namespace TableLib

open ByteLib

/-! ## Where a row starts -/

section starts
variable {α : Type} {rows : List (List α)} {i j : Nat}

/-- Where row `i` starts in all the rows put together. -/
def startOf (rows : List (List α)) (i : Nat) : Nat := (rows.take i).flatten.length

@[simp] theorem startOf_zero (rows : List (List α)) : startOf rows 0 = 0 := rfl

theorem startOf_succ (hi : i < rows.length) :
    startOf rows (i + 1) = startOf rows i + rows[i].length := by
  rw [startOf, startOf, List.take_succ_eq_append_getElem hi, List.flatten_append,
    List.flatten_singleton, List.length_append]

theorem startOf_length (rows : List (List α)) : startOf rows rows.length = rows.flatten.length := by
  rw [startOf, List.take_length]

theorem startOf_mono (h : i ≤ j) : startOf rows i ≤ startOf rows j := by
  have hsplit : rows.take j = rows.take i ++ (rows.take j).drop i := by
    conv_lhs => rw [← List.take_append_drop i (rows.take j), List.take_take, Nat.min_eq_left h]
  rw [startOf, startOf, hsplit, List.flatten_append, List.length_append]
  exact Nat.le_add_right _ _

theorem startOf_le (rows : List (List α)) (i : Nat) : startOf rows i ≤ rows.flatten.length := by
  rcases Nat.le_total i rows.length with hi | hi
  · rw [← startOf_length]
    exact startOf_mono hi
  · rw [startOf, List.take_of_length_le hi]

/-- Row `i` is where its start says. -/
theorem take_drop_startOf (hi : i < rows.length) :
    (rows.flatten.drop (startOf rows i)).take rows[i].length = rows[i] := by
  have hsplit : rows.flatten = (rows.take i).flatten ++ (rows[i] ++ (rows.drop (i + 1)).flatten) := by
    conv_lhs => rw [← List.take_append_drop i rows]
    rw [List.drop_eq_getElem_cons hi, List.flatten_append, List.flatten_cons]
  rw [hsplit, startOf, List.drop_left, List.take_left]

theorem getElem?_startOf (hi : i < rows.length) (hj : j < rows[i].length) :
    rows.flatten[startOf rows i + j]? = some rows[i][j] := by
  have h := congrArg (fun l : List α => l[j]?) (take_drop_startOf hi)
  simp only [List.getElem?_take, List.getElem?_drop, if_pos hj] at h
  rw [h, List.getElem?_eq_getElem hj]

end starts

/-! ## Records of one width -/

section records
variable {w : Nat} {xs : List Bytes}

theorem length_flatten_const (hw : ∀ x ∈ xs, x.length = w) : xs.flatten.length = xs.length * w := by
  induction xs with
  | nil => simp
  | cons x xs ih =>
    rw [List.flatten_cons, List.length_append, ih fun y hy => hw y (List.mem_cons_of_mem _ hy),
      hw x List.mem_cons_self, List.length_cons, Nat.succ_mul, Nat.add_comm]

/-- Record `i` of a table. -/
theorem range_flatten (hw : ∀ x ∈ xs, x.length = w) {i : Nat} (hi : i < xs.length) (post : Bytes) :
    range (xs.flatten ++ post) (i * w) w = xs[i] := by
  have hstart : startOf xs i = i * w := by
    rw [startOf, length_flatten_const fun x hx => hw x (List.mem_of_mem_take hx), List.length_take,
      Nat.min_eq_left (Nat.le_of_lt hi)]
  have hlen : i * w + w ≤ xs.flatten.length := by
    rw [length_flatten_const hw, ← Nat.succ_mul]
    exact Nat.mul_le_mul_right w hi
  rw [range_append_left hlen, range, ← hstart, ← hw _ (List.getElem_mem hi)]
  exact take_drop_startOf hi

end records

/-- Word `i` of a table of words. -/
theorem u32At_words {ws : List UInt32} {i : Nat} (hi : i < ws.length) (post : Bytes) :
    u32At (ws.flatMap putU32 ++ post) (i * 4) = ws[i] := by
  have h := @range_chunk _ 4 putU32 length_putU32 ws post i hi 0 4 (by omega)
  rw [Nat.add_zero, Nat.mul_comm, range_zero_self (length_putU32 _)] at h
  rw [← u32At_putU32 ws[i]]
  exact u32At_congr (by rw [h, range_zero_self (length_putU32 _)])

theorem length_words (ws : List UInt32) : (ws.flatMap putU32).length = ws.length * 4 := by
  rw [length_flatMap_const length_putU32, Nat.mul_comm]

/-! ## Rows under an index -/

/-- What has been written of a table of rows. -/
structure Csr where
  index : Bytes
  recs : Bytes
  total : UInt32
  deriving DecidableEq

namespace Csr

def empty : Csr := ⟨[], [], 0⟩

/-- Start a row. -/
def openRow (t : Csr) : Csr := { t with index := t.index ++ putU32 t.total }

def addRec (t : Csr) (r : Bytes) : Csr := { t with recs := t.recs ++ r, total := t.total + 1 }

/-- One more row. -/
def addRow (t : Csr) (row : List Bytes) : Csr := row.foldl addRec t.openRow

/-- The index of all the rows. -/
def close (t : Csr) : Bytes := t.index ++ putU32 t.total

def ofRows (rows : List (List Bytes)) : Csr := rows.foldl addRow empty

theorem foldl_addRec (t : Csr) (row : List Bytes) :
    row.foldl addRec t = ⟨t.index, t.recs ++ row.flatten, t.total + UInt32.ofNat row.length⟩ := by
  induction row generalizing t with
  | nil => simp
  | cons r row ih =>
    rw [List.foldl_cons, ih]
    simp only [addRec, List.flatten_cons, List.append_assoc, List.length_cons, UInt32.ofNat_add,
      mk.injEq, true_and]
    rw [UInt32.add_assoc, UInt32.add_comm 1]
    rfl

/-- What the rows leave: their records, and where each of them started. -/
theorem ofRows_eq (rows : List (List Bytes)) :
    ofRows rows = ⟨((List.range rows.length).map fun i => UInt32.ofNat (startOf rows i)).flatMap putU32,
      rows.flatten.flatten, UInt32.ofNat rows.flatten.length⟩ := by
  induction rows using List.reverseRecOn with
  | nil => rfl
  | append_singleton rows row ih =>
    have hstart : ∀ i ∈ List.range rows.length,
        UInt32.ofNat (startOf (rows ++ [row]) i) = UInt32.ofNat (startOf rows i) := by
      intro i hi
      rw [startOf, List.take_append_of_le_length (Nat.le_of_lt (List.mem_range.mp hi)), startOf]
    have hlast : startOf (rows ++ [row]) rows.length = rows.flatten.length := by
      rw [startOf, List.take_left]
    rw [ofRows, List.foldl_append, ← ofRows, ih]
    simp only [List.foldl_cons, List.foldl_nil, addRow, openRow, foldl_addRec, List.flatten_append,
      List.flatten_singleton, List.length_append, List.length_singleton, List.range_succ,
      List.map_append, List.map_congr_left hstart, List.map_singleton, List.flatMap_append,
      List.flatMap_singleton, hlast, UInt32.ofNat_add]

variable {rows : List (List Bytes)}

/-- The index is one word longer than the rows are many. -/
theorem length_close (rows : List (List Bytes)) :
    (ofRows rows).close.length = (rows.length + 1) * 4 := by
  rw [close, ofRows_eq, List.length_append, length_words]
  simp only [List.length_map, List.length_range, length_putU32]
  omega

/-- Entry `i` of the index is where row `i` starts, and the last one where they
    end. -/
theorem u32At_close {i : Nat} (hi : i ≤ rows.length) :
    u32At (ofRows rows).close (i * 4) = UInt32.ofNat (startOf rows i) := by
  rw [close, ofRows_eq]
  simp only
  rcases Nat.lt_or_eq_of_le hi with hlt | rfl
  · rw [u32At_words (by simpa using hlt)]
    simp
  · have hlen : (((List.range rows.length).map fun i => UInt32.ofNat (startOf rows i)).flatMap
        putU32).length = rows.length * 4 := by
      rw [length_words, List.length_map, List.length_range]
    rw [u32At_append_right (by omega), hlen, Nat.sub_self, u32At_putU32, startOf_length]

theorem recs_ofRows (rows : List (List Bytes)) : (ofRows rows).recs = rows.flatten.flatten := by
  rw [ofRows_eq]

theorem total_ofRows (rows : List (List Bytes)) :
    (ofRows rows).total = UInt32.ofNat rows.flatten.length := by
  rw [ofRows_eq]

end Csr

/-! ## Scattering -/

section scatter
variable {α : Type}

/-- Pairs put into the rows they name, in order. -/
def scatter (n : Nat) (events : List (Nat × α)) : List (List α) :=
  events.foldl (fun rows e => rows.modify e.1 (· ++ [e.2])) (List.replicate n [])

theorem length_scatter (n : Nat) (events : List (Nat × α)) : (scatter n events).length = n := by
  unfold scatter
  induction events using List.reverseRecOn with
  | nil => simp
  | append_singleton events e ih => rw [List.foldl_append]; simpa using ih

/-- Each row holds the pairs that name it. -/
theorem getElem?_scatter (n : Nat) (events : List (Nat × α)) {i : Nat} (hi : i < n) :
    (scatter n events)[i]? = some ((events.filter fun e => e.1 = i).map Prod.snd) := by
  unfold scatter
  induction events using List.reverseRecOn with
  | nil => simp [hi]
  | append_singleton events e ih =>
    rw [List.foldl_append, List.foldl_cons, List.foldl_nil, List.getElem?_modify, ih,
      List.filter_append, List.map_append]
    by_cases he : e.1 = i
    · simp [he]
    · simp [he]

/-- Where every pair names a row, none is lost. -/
theorem length_flatten_scatter {n : Nat} {events : List (Nat × α)} (h : ∀ e ∈ events, e.1 < n) :
    (scatter n events).flatten.length = events.length := by
  have hmodify : ∀ (rows : List (List α)) (i : Nat) (x : α), i < rows.length →
      (rows.modify i (· ++ [x])).flatten.length = rows.flatten.length + 1 := by
    intro rows i x hi
    induction rows generalizing i with
    | nil => cases hi
    | cons row rows ih =>
      cases i with
      | zero =>
        simp only [List.modify_zero_cons, List.flatten_cons, List.length_append, List.length_singleton]
        omega
      | succ i =>
        have hrest := ih i (Nat.lt_of_succ_lt_succ hi)
        simp only [List.modify_succ_cons, List.flatten_cons, List.length_append]
        omega
  induction events using List.reverseRecOn with
  | nil => simp [scatter]
  | append_singleton events e ih =>
    have hstep : scatter n (events ++ [e]) = (scatter n events).modify e.1 (· ++ [e.2]) := by
      rw [scatter, List.foldl_append]
      rfl
    rw [hstep, hmodify _ _ _ (by rw [length_scatter]; exact h e (by simp)),
      ih fun e' he' => h e' (List.mem_append_left _ he'), List.length_append, List.length_singleton]

end scatter

end TableLib
