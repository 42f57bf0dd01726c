import Mathlib.Tactic
import Mathlib.Data.Nat.Log

/-! # Arrays of doubling chunks

    A growing array whose cells never move: chunk `k` holds `base * 2 ^ k` cells
    and is made when a cell of it is first asked for. `locate` finds the chunk
    of an index and its place there, one to one onto the cells of the `n`
    chunks. -/

namespace ChunkLib

/-! ## Where a cell lies -/

section locate
variable (base : Nat)

/-- The cells of the first `k` chunks. -/
def capacity (k : Nat) : Nat := base * (2 ^ k - 1)

/-- The chunk of index `i`, and its place there. -/
def locate (i : Nat) : Nat × Nat :=
  (Nat.log2 (i / base + 1), i - capacity base (Nat.log2 (i / base + 1)))

variable {base}

theorem capacity_succ (k : Nat) : capacity base (k + 1) = capacity base k + base * 2 ^ k := by
  have hone : 1 ≤ 2 ^ k := Nat.one_le_two_pow
  rw [capacity, capacity, ← Nat.mul_add, Nat.pow_succ]
  congr 1
  omega

theorem capacity_mono {j k : Nat} (h : j ≤ k) : capacity base j ≤ capacity base k :=
  Nat.mul_le_mul_left _ (Nat.sub_le_sub_right (Nat.pow_le_pow_right (by omega) h) 1)

/-- The index lies between the chunks before its own and those up to it. -/
theorem locate_bounds (hbase : 0 < base) (i : Nat) :
    capacity base (locate base i).1 ≤ i ∧ i < capacity base ((locate base i).1 + 1) := by
  have hlow := @Nat.log2_self_le (i / base + 1) (Nat.succ_ne_zero _)
  have hhigh := @Nat.lt_log2_self (i / base + 1)
  have hdiv := Nat.div_mul_le_self i base
  have hmod := @Nat.lt_div_mul_add i base hbase
  unfold locate capacity
  constructor
  · calc base * (2 ^ (i / base + 1).log2 - 1) ≤ base * (i / base) := Nat.mul_le_mul_left _ (by omega)
      _ ≤ i := by rwa [Nat.mul_comm]
  · calc i < i / base * base + base := hmod
      _ = base * (i / base + 1) := by ring
      _ ≤ base * (2 ^ ((i / base + 1).log2 + 1) - 1) := Nat.mul_le_mul_left _ (by omega)

theorem locate_add (hbase : 0 < base) (i : Nat) :
    capacity base (locate base i).1 + (locate base i).2 = i := by
  have h := (locate_bounds hbase i).1
  unfold locate at h ⊢
  simp only at h ⊢
  omega

/-- The place is inside the chunk. -/
theorem locate_lt (hbase : 0 < base) (i : Nat) :
    (locate base i).2 < base * 2 ^ (locate base i).1 := by
  have hadd := locate_add hbase i
  have hhigh := (locate_bounds hbase i).2
  rw [capacity_succ] at hhigh
  omega

/-- An index between two chunk ends lies in the chunk between them. -/
theorem locate_fst_eq (hbase : 0 < base) {i k : Nat} (hlow : capacity base k ≤ i)
    (hhigh : i < capacity base (k + 1)) : (locate base i).1 = k := by
  obtain ⟨hlow', hhigh'⟩ := locate_bounds hbase i
  by_contra hne
  rcases Nat.lt_or_gt_of_ne hne with hlt | hgt
  · have hle : capacity base ((locate base i).1 + 1) ≤ capacity base k := capacity_mono hlt
    omega
  · have hle : capacity base (k + 1) ≤ capacity base (locate base i).1 := capacity_mono hgt
    omega

/-- Every cell of every chunk is that of one index. -/
theorem locate_cell (hbase : 0 < base) {k off : Nat} (hoff : off < base * 2 ^ k) :
    locate base (capacity base k + off) = (k, off) := by
  have hk : (locate base (capacity base k + off)).1 = k :=
    locate_fst_eq hbase (Nat.le_add_right _ _) (by rw [capacity_succ]; omega)
  have hadd := locate_add hbase (capacity base k + off)
  rw [hk] at hadd
  exact Prod.ext hk (by simpa using hadd)

theorem locate_inj (hbase : 0 < base) {i j : Nat} (h : locate base i = locate base j) : i = j := by
  rw [← locate_add hbase i, ← locate_add hbase j, h]

theorem locate_fst_lt_iff (hbase : 0 < base) {i n : Nat} :
    (locate base i).1 < n ↔ i < capacity base n := by
  obtain ⟨hlow, hhigh⟩ := locate_bounds hbase i
  constructor
  · intro h
    exact lt_of_lt_of_le hhigh (capacity_mono h)
  · intro h
    by_contra hn
    have hle : capacity base n ≤ capacity base (locate base i).1 := capacity_mono (by omega)
    omega

end locate

/-! ## The cells -/

/-- Chunks of cells, each made or not. -/
structure Chunks (base n : Nat) (T : Type) where
  chunks : (k : Fin n) → Option (Vector T (base * 2 ^ k.val))

namespace Chunks

variable {base n : Nat} {T : Type}

/-- No chunk is made. -/
def new : Chunks base n T := ⟨fun _ => none⟩

/-- The chunk of a cell is made. -/
def Made (c : Chunks base n T) (i : Nat) : Prop :=
  ∃ h : (locate base i).1 < n, (c.chunks ⟨_, h⟩).isSome = true

/-- Setting a chunk makes it, and leaves the others as they are. -/
theorem isSome_update {c : Chunks base n T} (k : Fin n) (v : Vector T (base * 2 ^ k.val)) {j : Fin n}
    (h : j = k ∨ (c.chunks j).isSome = true) :
    (Function.update c.chunks k (some v) j).isSome = true := by
  by_cases hj : j = k
  · subst hj
    simp
  · rw [Function.update_of_ne hj]
    exact h.resolve_left hj

section cells
variable [Inhabited T] (c : Chunks base n T)

/-- Chunk `k`, as it is or as it is made. -/
def chunk (k : Fin n) : Vector T (base * 2 ^ k.val) :=
  (c.chunks k).getD (Vector.replicate _ default)

/-- Make the chunk of cell `i`. -/
def make (i : Nat) : Chunks base n T :=
  if h : (locate base i).1 < n then ⟨Function.update c.chunks ⟨_, h⟩ (some (c.chunk ⟨_, h⟩))⟩ else c

/-- Place `off` of chunk `k`. -/
def place (k : Fin n) (off : Nat) : Option T := (c.chunk k)[off]?

/-- What cell `i` holds; `none` past the last chunk. -/
def get? (i : Nat) : Option T :=
  if h : (locate base i).1 < n then c.place ⟨_, h⟩ (locate base i).2 else none

/-- Store into cell `i`. -/
def put (i : Nat) (v : T) : Chunks base n T :=
  if h : (locate base i).1 < n then
    ⟨Function.update c.chunks ⟨_, h⟩ (some ((c.chunk ⟨_, h⟩).setIfInBounds (locate base i).2 v))⟩
  else c

/-- Make the chunks of the cells from `i` to `stop`, one chunk a round; `n`
    rounds are enough. -/
def makeTo (stop : Nat) : Nat → Chunks base n T → Nat → Chunks base n T
  | 0, c, _ => c
  | rounds + 1, c, i =>
    if i < stop then makeTo stop rounds (c.make i) (capacity base ((locate base i).1 + 1)) else c

end cells

section lemmas
variable [Inhabited T] {c : Chunks base n T}

theorem place_update (k : Fin n) (v : Vector T (base * 2 ^ k.val)) (j : Fin n) (off : Nat) :
    place ⟨Function.update c.chunks k (some v)⟩ j off = if j = k then v[off]? else c.place j off := by
  unfold place chunk
  by_cases h : j = k
  · subst h
    simp
  · simp [h]

theorem place_make (i : Nat) (k : Fin n) (off : Nat) : (c.make i).place k off = c.place k off := by
  unfold make
  split_ifs with h
  · rw [place_update]
    split_ifs with hk
    · subst hk
      rfl
    · rfl
  · rfl

@[simp] theorem get?_make (i j : Nat) : (c.make i).get? j = c.get? j := by
  unfold get?
  split_ifs with h
  · rw [place_make]
  · rfl

@[simp] theorem get?_makeTo (stop rounds i j : Nat) : (c.makeTo stop rounds i).get? j = c.get? j := by
  induction rounds generalizing c i with
  | zero => rfl
  | succ rounds ih =>
    rw [makeTo]
    split_ifs
    · rw [ih, get?_make]
    · rfl

theorem Made.make {j : Nat} (h : c.Made j) (i : Nat) : (c.make i).Made j := by
  obtain ⟨hj, hsome⟩ := h
  refine ⟨hj, ?_⟩
  unfold Chunks.make
  split_ifs with hi
  · exact isSome_update _ _ (.inr hsome)
  · exact hsome

theorem Made.put {j : Nat} (h : c.Made j) (i : Nat) (v : T) : (c.put i v).Made j := by
  obtain ⟨hj, hsome⟩ := h
  refine ⟨hj, ?_⟩
  unfold Chunks.put
  split_ifs with hi
  · exact isSome_update _ _ (.inr hsome)
  · exact hsome

theorem Made.makeTo {j : Nat} (h : c.Made j) (stop rounds i : Nat) :
    (c.makeTo stop rounds i).Made j := by
  induction rounds generalizing c i with
  | zero => exact h
  | succ rounds ih =>
    rw [Chunks.makeTo]
    split_ifs
    · exact ih (h.make i) _
    · exact h

/-- Making the chunk of a cell makes every cell of that chunk. -/
theorem made_make {i j : Nat} (hi : (locate base i).1 < n)
    (hj : (locate base j).1 = (locate base i).1) : (c.make i).Made j := by
  refine ⟨hj ▸ hi, ?_⟩
  unfold Chunks.make
  rw [dif_pos hi]
  exact isSome_update _ _ (.inl (Fin.ext hj))

section based
variable (hbase : 0 < base)
include hbase

theorem get?_isSome {i : Nat} : (c.get? i).isSome = true ↔ i < capacity base n := by
  rw [← locate_fst_lt_iff hbase]
  unfold get? place
  split_ifs with h
  · simp [h, locate_lt hbase i]
  · simp [h]

theorem get?_new {i : Nat} (hi : i < capacity base n) :
    (new : Chunks base n T).get? i = some default := by
  have hloc := (locate_fst_lt_iff hbase).mpr hi
  unfold get? place chunk new
  simp [hloc, locate_lt hbase i]

theorem get?_put {i : Nat} (v : T) (hi : i < capacity base n) (j : Nat) :
    (c.put i v).get? j = if i = j then some v else c.get? j := by
  have hloc := (locate_fst_lt_iff hbase).mpr hi
  unfold put get?
  rw [dif_pos hloc]
  by_cases hj : (locate base j).1 < n
  · rw [dif_pos hj, dif_pos hj, place_update]
    by_cases hij : i = j
    · subst hij
      simp [locate_lt hbase i]
    · rw [if_neg hij]
      split_ifs with hk
      · -- the same chunk, another place of it
        have hfst : (locate base j).1 = (locate base i).1 := Fin.mk.inj hk
        have hoff : (locate base i).2 ≠ (locate base j).2 := by
          intro hoff
          exact hij (locate_inj hbase (Prod.ext hfst.symm hoff))
        rw [Vector.getElem?_setIfInBounds_ne hoff, place, hk]
      · rfl
  · rw [dif_neg hj, dif_neg hj, if_neg (by rintro rfl; exact hj hloc)]

/-- After `makeTo` every cell of the range is there. -/
theorem made_makeTo {stop rounds i j : Nat} (hstop : stop ≤ capacity base n)
    (hrounds : n ≤ (locate base i).1 + rounds) (hi : i ≤ j) (hj : j < stop) :
    (c.makeTo stop rounds i).Made j := by
  induction rounds generalizing c i with
  | zero =>
    have hlt : (locate base i).1 < n := (locate_fst_lt_iff hbase).mpr (by omega)
    omega
  | succ rounds ih =>
    have hlt : (locate base i).1 < n := (locate_fst_lt_iff hbase).mpr (by omega)
    obtain ⟨hlow, hhigh⟩ := locate_bounds hbase i
    rw [Chunks.makeTo, if_pos (by omega)]
    by_cases hnext : j < capacity base ((locate base i).1 + 1)
    · exact (made_make hlt (locate_fst_eq hbase (by omega) hnext)).makeTo _ _ _
    · -- a later chunk, from its first cell on
      have hfst : (locate base (capacity base ((locate base i).1 + 1))).1
          = (locate base i).1 + 1 := by
        refine locate_fst_eq hbase le_rfl ?_
        rw [capacity_succ ((locate base i).1 + 1)]
        have hpos : 0 < base * 2 ^ ((locate base i).1 + 1) := Nat.mul_pos hbase (by positivity)
        omega
      exact ih (by rw [hfst]; omega) (by omega)

end based

end lemmas

end Chunks

end ChunkLib
