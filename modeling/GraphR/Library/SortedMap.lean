import Mathlib.Tactic
import Mathlib.Data.List.Basic
import Mathlib.Order.Basic

/-! # Finite maps as sorted association lists

    The map a `BTreeMap` is: entries in ascending key order, one per key. The
    order is a field of the structure, so a map is determined by its lookups
    (`SortedMap.ext_get`) and its entry list is the one canonical one. A hash
    map whose iteration order is never observed is the same type. -/

instance uint64LinearOrder : LinearOrder UInt64 where
  le_refl := fun _ => UInt64.le_refl _
  le_trans := fun _ _ _ => UInt64.le_trans
  le_antisymm := fun _ _ => UInt64.le_antisymm
  le_total := UInt64.le_total
  lt_iff_le_not_ge := by
    intro a b
    rw [UInt64.lt_iff_toNat_lt, UInt64.le_iff_toNat_le, UInt64.le_iff_toNat_le]
    omega
  toDecidableLE := inferInstance
  toDecidableEq := inferInstance
  toDecidableLT := inferInstance

/-- A finite map with its entries in ascending key order. -/
structure SortedMap (α β : Type) [LinearOrder α] where
  entries : List (α × β)
  sorted : entries.Pairwise fun a b => a.1 < b.1

namespace SortedMap

variable {α β γ : Type} [LinearOrder α]

/-! ## Entry lists -/

/-- The value of the first entry with key `k`. -/
def getList (k : α) : List (α × β) → Option β
  | [] => none
  | (k', v) :: rest => if k = k' then some v else getList k rest

/-- Insert in order, replacing an entry with the same key. -/
def insertList (k : α) (v : β) : List (α × β) → List (α × β)
  | [] => [(k, v)]
  | (k', v') :: rest =>
    if k < k' then (k, v) :: (k', v') :: rest
    else if k = k' then (k, v) :: rest
    else (k', v') :: insertList k v rest

theorem getList_insertList (k k' : α) (v : β) (l : List (α × β)) :
    getList k' (insertList k v l) = if k' = k then some v else getList k' l := by
  induction l with
  | nil => simp [insertList, getList]
  | cons e l ih =>
    obtain ⟨k'', w⟩ := e
    rw [insertList]
    by_cases hlt : k < k''
    · rw [if_pos hlt]
      rfl
    · rw [if_neg hlt]
      by_cases heq : k = k''
      · subst heq
        rw [if_pos rfl, getList, getList]
        by_cases hk : k' = k
        · rw [if_pos hk, if_pos hk]
        · rw [if_neg hk, if_neg hk, if_neg hk]
      · rw [if_neg heq, getList, ih, getList]
        by_cases hk : k' = k
        · subst hk
          rw [if_neg heq, if_pos rfl, if_pos rfl]
        · rw [if_neg hk, if_neg hk]

theorem mem_insertList {k : α} {v : β} {l : List (α × β)} {e : α × β}
    (h : e ∈ insertList k v l) : e = (k, v) ∨ e ∈ l := by
  induction l with
  | nil => simpa [insertList] using h
  | cons e' l ih =>
    rw [insertList] at h
    split_ifs at h with hlt heq
    · rcases List.mem_cons.mp h with h | h
      · exact .inl h
      · exact .inr h
    · rcases List.mem_cons.mp h with h | h
      · exact .inl h
      · exact .inr (List.mem_cons_of_mem _ h)
    · rcases List.mem_cons.mp h with h | h
      · exact .inr (by simp [h])
      · rcases ih h with h | h
        · exact .inl h
        · exact .inr (List.mem_cons_of_mem _ h)

theorem insertList_sorted (k : α) (v : β) {l : List (α × β)}
    (h : l.Pairwise fun a b => a.1 < b.1) :
    (insertList k v l).Pairwise fun a b => a.1 < b.1 := by
  induction l with
  | nil => simp [insertList]
  | cons e l ih =>
    obtain ⟨k', v'⟩ := e
    obtain ⟨hhead, htail⟩ := List.pairwise_cons.mp h
    rw [insertList]
    split_ifs with hlt heq
    · refine List.pairwise_cons.mpr ⟨?_, h⟩
      intro e he
      rcases List.mem_cons.mp he with rfl | he
      · exact hlt
      · exact lt_trans hlt (hhead e he)
    · subst heq
      exact List.pairwise_cons.mpr ⟨hhead, htail⟩
    · refine List.pairwise_cons.mpr ⟨?_, ih htail⟩
      intro e he
      rcases mem_insertList he with rfl | he
      · exact lt_of_le_of_ne (not_lt.mp hlt) (Ne.symm heq)
      · exact hhead e he

theorem getList_eq_some_iff {k : α} {v : β} {l : List (α × β)}
    (h : l.Pairwise fun a b => a.1 < b.1) : getList k l = some v ↔ (k, v) ∈ l := by
  induction l with
  | nil => simp [getList]
  | cons e l ih =>
    obtain ⟨k', v'⟩ := e
    obtain ⟨hhead, htail⟩ := List.pairwise_cons.mp h
    rw [getList]
    split_ifs with hk
    · subst hk
      constructor
      · intro hv
        cases hv
        exact List.mem_cons_self
      · intro hmem
        rcases List.mem_cons.mp hmem with hmem | hmem
        · cases hmem; rfl
        · exact absurd (hhead _ hmem) (lt_irrefl k)
    · rw [ih htail]
      constructor
      · exact fun hmem => List.mem_cons_of_mem _ hmem
      · intro hmem
        rcases List.mem_cons.mp hmem with hmem | hmem
        · cases hmem; exact absurd rfl hk
        · exact hmem

/-- Two sorted entry lists with the same members are equal. -/
theorem eq_of_mem_iff {l l' : List (α × β)} (h : l.Pairwise fun a b => a.1 < b.1)
    (h' : l'.Pairwise fun a b => a.1 < b.1) (hmem : ∀ e, e ∈ l ↔ e ∈ l') : l = l' := by
  refine List.Perm.eq_of_pairwise ?_ h h' ?_
  · intro a b _ _ hab hba
    exact absurd hab (lt_asymm hba)
  · have nodup : ∀ {m : List (α × β)}, (m.Pairwise fun a b => a.1 < b.1) → m.Nodup := by
      intro m hm
      exact hm.imp fun {a b} hab heq => absurd hab (by rw [heq]; exact lt_irrefl _)
    exact (List.perm_ext_iff_of_nodup (nodup h) (nodup h')).mpr hmem

/-! ## The map -/

def empty : SortedMap α β := ⟨[], List.Pairwise.nil⟩

/-- The value at `k`. -/
def get (m : SortedMap α β) (k : α) : Option β := getList k m.entries

def insert (m : SortedMap α β) (k : α) (v : β) : SortedMap α β :=
  ⟨insertList k v m.entries, insertList_sorted k v m.sorted⟩

/-- `entry(k).or_insert(d)`, updated in place by `f`. -/
def update (m : SortedMap α β) (k : α) (f : Option β → β) : SortedMap α β :=
  m.insert k (f (m.get k))

def keys (m : SortedMap α β) : List α := m.entries.map Prod.fst

/-- `retain`. -/
def filter (m : SortedMap α β) (p : α → β → Bool) : SortedMap α β :=
  ⟨m.entries.filter fun e => p e.1 e.2, m.sorted.filter _⟩

/-- Insert `f k` for every key of a list where it is defined. -/
def collect (ks : List α) (f : α → Option β) : SortedMap α β :=
  ks.foldl (fun m k => (f k).elim m (m.insert k)) empty

@[simp] theorem get_empty (k : α) : (empty : SortedMap α β).get k = none := rfl

theorem get_insert (m : SortedMap α β) (k k' : α) (v : β) :
    (m.insert k v).get k' = if k' = k then some v else m.get k' :=
  getList_insertList k k' v m.entries

theorem get_update (m : SortedMap α β) (k k' : α) (f : Option β → β) :
    (m.update k f).get k' = if k' = k then some (f (m.get k)) else m.get k' :=
  get_insert m k k' _

theorem mem_entries {m : SortedMap α β} {k : α} {v : β} : (k, v) ∈ m.entries ↔ m.get k = some v :=
  (getList_eq_some_iff m.sorted).symm

theorem mem_keys {m : SortedMap α β} {k : α} : k ∈ m.keys ↔ (m.get k).isSome := by
  constructor
  · intro h
    obtain ⟨e, he, rfl⟩ := List.mem_map.mp h
    rw [mem_entries.mp he]
    rfl
  · intro h
    obtain ⟨v, hv⟩ := Option.isSome_iff_exists.mp h
    exact List.mem_map.mpr ⟨(k, v), mem_entries.mpr hv, rfl⟩

theorem get_eq_none_iff {m : SortedMap α β} {k : α} : m.get k = none ↔ k ∉ m.keys := by
  rw [mem_keys, Option.not_isSome_iff_eq_none]

theorem keys_sorted (m : SortedMap α β) : m.keys.Pairwise (· < ·) :=
  List.pairwise_map.mpr m.sorted

/-- Counting in a list made of one piece per entry, where every member of a piece
    knows its key: only the piece of that key counts. -/
theorem count_flatMap [DecidableEq γ] (m : SortedMap α β) (f : α × β → List γ) (key : γ → α)
    (hkey : ∀ e ∈ m.entries, ∀ x ∈ f e, key x = e.1) (x : γ) :
    (m.entries.flatMap f).count x = (m.get (key x)).elim 0 fun v => (f (key x, v)).count x := by
  have hlist : ∀ l : List (α × β), l.Pairwise (fun a b => a.1 < b.1) →
      (∀ e ∈ l, ∀ x ∈ f e, key x = e.1) →
      (l.flatMap f).count x = (getList (key x) l).elim 0 fun v => (f (key x, v)).count x := by
    intro l
    induction l with
    | nil => simp [getList]
    | cons e l ih =>
      intro hsorted hk
      obtain ⟨hhead, hrest⟩ := List.pairwise_cons.mp hsorted
      have hrestKey : ∀ e ∈ l, ∀ x ∈ f e, key x = e.1 := fun e he => hk e (by simp [he])
      rw [List.flatMap_cons, List.count_append, getList]
      by_cases heq : key x = e.1
      · -- no later entry has the key
        have hzero : (l.flatMap f).count x = 0 := by
          rw [List.count_eq_zero]
          intro hmem
          obtain ⟨e', he', hx⟩ := List.mem_flatMap.mp hmem
          have hlt := hhead e' he'
          rw [← hrestKey e' he' x hx, heq] at hlt
          exact lt_irrefl _ hlt
        rw [if_pos heq, hzero, Nat.add_zero, heq]
        rfl
      · have hzero : (f e).count x = 0 := by
          rw [List.count_eq_zero]
          intro hx
          exact heq (hk e (by simp) x hx)
        rw [if_neg heq, hzero, Nat.zero_add]
        exact ih hrest hrestKey
  exact hlist m.entries m.sorted hkey

/-- A map is its lookups. -/
theorem ext_get {m m' : SortedMap α β} (h : ∀ k, m.get k = m'.get k) : m = m' := by
  have hentries : m.entries = m'.entries := by
    apply eq_of_mem_iff m.sorted m'.sorted
    rintro ⟨k, v⟩
    rw [mem_entries, mem_entries, h]
  cases m
  cases m'
  simpa using hentries

theorem get_filter (m : SortedMap α β) (p : α → β → Bool) (k : α) :
    (m.filter p).get k = (m.get k).filter (p k) := by
  cases hk : m.get k with
  | none =>
    rw [get_eq_none_iff] at hk
    rw [Option.filter_none, get_eq_none_iff]
    intro hmem
    obtain ⟨e, he, rfl⟩ := List.mem_map.mp hmem
    exact hk (List.mem_map.mpr ⟨e, (List.mem_filter.mp he).1, rfl⟩)
  | some v =>
    by_cases hp : p k v = true
    · rw [Option.filter_some_pos hp, ← mem_entries]
      exact List.mem_filter.mpr ⟨mem_entries.mpr hk, hp⟩
    · rw [Option.filter_some_neg (by simpa using hp), get_eq_none_iff]
      intro hmem
      obtain ⟨⟨k', v'⟩, he, rfl⟩ := List.mem_map.mp hmem
      obtain ⟨he, hp'⟩ := List.mem_filter.mp he
      rw [mem_entries.mp he] at hk
      cases hk
      exact hp hp'

theorem get_collect_from (ks : List α) (f : α → Option β) (m : SortedMap α β) (k : α) :
    (ks.foldl (fun m k => (f k).elim m (m.insert k)) m).get k
      = if k ∈ ks then (f k).or (m.get k) else m.get k := by
  induction ks generalizing m with
  | nil => simp
  | cons a ks ih =>
    rw [List.foldl_cons, ih]
    cases ha : f a with
    | none =>
      by_cases hk : k = a
      · subst hk
        simp [ha]
      · simp [hk]
    | some v =>
      simp only [Option.elim_some, get_insert, List.mem_cons]
      by_cases hk : k = a
      · subst hk
        simp [ha]
      · simp [hk]

theorem get_collect (ks : List α) (f : α → Option β) (k : α) :
    (collect ks f).get k = if k ∈ ks then f k else none := by
  rw [collect, get_collect_from]
  simp

end SortedMap
