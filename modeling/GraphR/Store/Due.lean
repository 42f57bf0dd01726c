import GraphR.Library.Selection
import GraphR.Store.Reach

/-! # The live set and the due list, exactly

    Over every written store `for_each_live` visits each live document once, as
    `node` gives it. `due` selects the first items and orders only those
    (`dueSelected`); it returns the sorted list of everything due, cut short. -/

namespace GraphR

open Wal ByteLib SelectLib

/-! ## The order of due items -/

namespace DueItem

/-- The order, in numbers. -/
theorem before_iff (a b : DueItem) : a.before b = true ↔
    b.rankPermille.toNat < a.rankPermille.toNat ∨
      (a.rankPermille.toNat = b.rankPermille.toNat ∧
        (b.overdueMs < a.overdueMs ∨ (a.overdueMs = b.overdueMs ∧ a.key.toNat ≤ b.key.toNat))) := by
  have hrank : a.rankPermille = b.rankPermille ↔ a.rankPermille.toNat = b.rankPermille.toNat :=
    UInt16.toNat_inj.symm
  unfold before
  split_ifs with h1 h2
  · simp only [decide_eq_true_eq, UInt16.lt_iff_toNat_lt]
    rw [ne_eq, hrank] at h1
    omega
  · simp only [decide_eq_true_eq]
    rw [ne_eq, not_not, hrank] at h1
    omega
  · simp only [decide_eq_true_eq, UInt64.le_iff_toNat_le]
    rw [ne_eq, not_not, hrank] at h1
    omega

theorem before_total (a b : DueItem) : a.before b = true ∨ b.before a = true := by
  rw [before_iff, before_iff]
  omega

theorem before_trans (a b c : DueItem) (hab : a.before b = true) (hbc : b.before c = true) :
    a.before c = true := by
  rw [before_iff] at *
  omega

/-- Items that tie have one key. -/
theorem key_of_before {a b : DueItem} (hab : a.before b = true) (hba : b.before a = true) :
    a.key = b.key := by
  rw [before_iff] at *
  exact UInt64.toNat_inj.mp (by omega)

end DueItem

/-! ## Selecting -/

/-- `select_nth_unstable_by` on due items: some rearrangement that puts into
    position `n` what a sort would. -/
structure SelectNth where
  select : Nat → List DueItem → List DueItem
  selects : ∀ n l, n < l.length → Selects (fun a b => DueItem.before a b = true) n l (select n l)

/-- A full sort is one way to select. -/
def SelectNth.bySorting : SelectNth where
  select := fun _ l => l.insertionSort fun a b => DueItem.before a b = true
  selects := by
    intro n l _
    have htotal : Std.Total fun a b : DueItem => a.before b = true := ⟨DueItem.before_total⟩
    have htrans : IsTrans DueItem fun a b => a.before b = true := ⟨DueItem.before_trans⟩
    refine selects_of_sorted ?_ (List.perm_insertionSort _ l) (List.pairwise_insertionSort _ l) n
    intro a
    exact (DueItem.before_total a a).elim id id

/-- `due`, as it is computed: the first `max` selected, then only those sorted. -/
def Snapshot.dueSelected (s : Snapshot) (S : SelectNth) (now : UInt64) (max : Nat) :
    Option (List DueItem) := do
  let live ← s.forEachLive
  let items ← live.mapM (s.dueItem now)
  let out := items.filterMap id
  let first := if max < out.length then (S.select max out).take max else out
  some (first.insertionSort fun a b => a.before b)

/-- The items of nodes with distinct keys have distinct keys. -/
theorem keys_of_dueItems {s : Snapshot} {now : UInt64} {live : List NodeRef}
    {items : List (Option DueItem)} (hkeys : (live.map NodeRef.key).Nodup)
    (h : live.mapM (s.dueItem now) = some items) :
    ((items.filterMap id).map DueItem.key).Nodup := by
  induction live generalizing items with
  | nil =>
    cases h
    simp
  | cons n live ih =>
    obtain ⟨hfresh, hrest⟩ := List.nodup_cons.mp hkeys
    rw [List.mapM_cons] at h
    obtain ⟨i, hi, h⟩ := Option.bind_eq_some_iff.mp h
    obtain ⟨is, his, h⟩ := Option.bind_eq_some_iff.mp h
    cases h
    cases i with
    | none => simpa using ih hrest his
    | some i =>
      refine List.nodup_cons.mpr ⟨?_, ih hrest his⟩
      intro hmem
      obtain ⟨j, hj, hkey⟩ := List.mem_map.mp hmem
      obtain ⟨n', hn', hitem⟩ := (FaultLib.mem_of_mapM his).mp (by simpa using hj)
      rw [(Base.dueItem_key hi).1, (Base.dueItem_key hitem).1] at hkey
      exact hfresh (List.mem_map.mpr ⟨n', hn', hkey⟩)

/-- Selecting and sorting the first `max` is sorting everything and cutting at
    `max`. -/
theorem dueSelected_eq {s : Snapshot} {live : List NodeRef} {items : List (Option DueItem)}
    (S : SelectNth) (now : UInt64) (max : Nat) (hlive : s.forEachLive = some live)
    (hkeys : (live.map NodeRef.key).Nodup) (hitems : live.mapM (s.dueItem now) = some items) :
    s.dueSelected S now max
      = some (((items.filterMap id).insertionSort fun a b => a.before b).take max) := by
  have hnodup := keys_of_dueItems hkeys hitems
  rw [Snapshot.dueSelected, hlive]
  simp only [Option.bind_eq_bind, Option.bind_some, hitems, Option.some.injEq]
  by_cases hmax : max < (items.filterMap id).length
  · rw [if_pos hmax]
    refine sort_take_of_selects DueItem.before_trans DueItem.before_total hmax (S.selects _ _ hmax) ?_
    intro a ha b hb hab hba
    exact List.inj_on_of_nodup_map hnodup ha hb (DueItem.key_of_before hab hba)
  · rw [if_neg hmax, List.take_of_length_le]
    rw [List.length_insertionSort]
    omega

/-! ## Both, on every written store -/

/-- A node a reader counts as a live document. -/
def NodeRef.live (n : NodeRef) : Bool := !n.isStub && !n.isTombstone

/-- What is due sorts strictly: by rank descending, then overdue time descending, then key
    ascending. -/
theorem dueItems_sorted {s : Snapshot} {now : UInt64} {live : List NodeRef}
    {items : List (Option DueItem)} (hkeys : (live.map NodeRef.key).Nodup)
    (h : live.mapM (s.dueItem now) = some items) :
    ((items.filterMap id).insertionSort fun a b => a.before b).Pairwise fun i j =>
      j.rankPermille < i.rankPermille ∨ (i.rankPermille = j.rankPermille ∧
        (j.overdueMs < i.overdueMs ∨ (i.overdueMs = j.overdueMs ∧ i.key < j.key))) := by
  have htotal : Std.Total fun a b : DueItem => a.before b = true := ⟨DueItem.before_total⟩
  have htrans : IsTrans DueItem fun a b => a.before b = true := ⟨DueItem.before_trans⟩
  have hsorted := List.pairwise_insertionSort (fun a b : DueItem => a.before b = true)
    (items.filterMap id)
  have hperm := List.perm_insertionSort (fun a b : DueItem => a.before b = true)
    (items.filterMap id)
  -- no two items have one key, so none tie
  have hnodup := (hperm.map DueItem.key).nodup_iff.mpr (keys_of_dueItems hkeys h)
  refine (hsorted.and (List.pairwise_map.mp hnodup)).imp ?_
  rintro i j ⟨hbefore, hne⟩
  rw [DueItem.before_iff] at hbefore
  have hkey : i.key.toNat ≠ j.key.toNat := fun heq => hne (UInt64.toNat_inj.mp heq)
  rw [UInt16.lt_iff_toNat_lt, ← UInt16.toNat_inj, UInt64.lt_iff_toNat_lt]
  omega

/-- What `for_each_live` visits: a live node has no stub flag, with a base record or
    without. -/
theorem Written.mem_liveNodes {b : Base} {ops : List Op} (h : Written b ops) {ttl : TtlConfig}
    {n : NodeRef} :
    n ∈ b.liveNodes ops ttl ↔ b.nodeAt ops ttl n.key = some n ∧ n.live = true := by
  rw [Base.mem_liveNodes]
  constructor
  · rintro ⟨hn, hlive⟩
    refine ⟨hn, ?_⟩
    simp only [Base.isLive, Bool.and_eq_true, Bool.not_eq_true', Bool.or_eq_true,
      Option.isNone_iff_eq_none] at hlive
    simp only [NodeRef.live, Bool.and_eq_true, Bool.not_eq_true', hlive.1, and_true]
    rcases hlive.2 with hstub | hnone
    · exact hstub
    · -- the second pass does not test the flag, and need not
      exact h.fresh_not_stub hn hnone
  · rintro ⟨hn, hlive⟩
    simp only [NodeRef.live, Bool.and_eq_true, Bool.not_eq_true'] at hlive
    exact ⟨hn, by simp [Base.isLive, hlive.1, hlive.2]⟩

/-- `for_each_live` visits every live document once, as `node` gives it, and nothing else.
    `due` returns the first `max` of one list: all live documents with a URL whose next
    check is not after `now`, each once, by rank descending, overdue time descending and
    key ascending. -/
theorem live_and_due_exact (xxh3 : Bytes → UInt64)
    (rank : SortedMap UrlKey NodeModel → List UInt16) (ttl : TtlConfig) (b : Base) (ops : List Op)
    (h : Reach xxh3 rank b ops) :
    ∃ live, (b.snapshot ops ttl).forEachLive = some live ∧ (live.map NodeRef.key).Nodup ∧
      (∀ k n, (b.snapshot ops ttl).node k = some (some n) → n.live = true → n ∈ live) ∧
      (∀ n ∈ live, (b.snapshot ops ttl).node n.key = some (some n) ∧ n.live = true) ∧
      ∀ now : UInt64, ∃ due : List DueItem,
        (∀ i, i ∈ due ↔ ∃ n ∈ live, ∃ next,
          ttl.nextCheckAtMs n.fetchedAtMs (max n.intervalS 1) n.rankPermille = some next ∧
            n.url ≠ "" ∧ next ≤ now ∧
              i = ⟨n.url, n.key, n.etag, now.toNat - next.toNat, n.rankPermille⟩) ∧
        (due.Pairwise fun i j => j.rankPermille < i.rankPermille ∨
          (i.rankPermille = j.rankPermille ∧ (j.overdueMs < i.overdueMs ∨
            (i.overdueMs = j.overdueMs ∧ i.key < j.key)))) ∧
        ∀ (S : SelectNth) (max : Nat),
          (b.snapshot ops ttl).dueSelected S now max = some (due.take max) := by
  have hmem := fun n => @Written.mem_liveNodes b ops h.written ttl n
  have hnode : ∀ k, (b.snapshot ops ttl).node k = some (b.nodeAt ops ttl k) :=
    fun k => Base.node_snapshot b ops ttl k
  refine ⟨b.liveNodes ops ttl, Base.forEachLive_snapshot, Base.liveNodes_nodup, ?_, ?_, ?_⟩
  · intro k n hn hlive
    rw [hnode, Option.some.injEq] at hn
    have hkey := Base.key_of_nodeAt hn
    rw [← hkey] at hn
    exact (hmem n).mpr ⟨hn, hlive⟩
  · intro n hn
    obtain ⟨hat, hlive⟩ := (hmem n).mp hn
    exact ⟨by rw [hnode, hat], hlive⟩
  · intro now
    obtain ⟨items, hitems⟩ := Option.isSome_iff_exists.mp
      (FaultLib.mapM_isSome fun (n : NodeRef) (_ : n ∈ b.liveNodes ops ttl) =>
        Base.dueItem_isSome (b.snapshot ops ttl) now n)
    refine ⟨(items.filterMap id).insertionSort fun a b => a.before b, ?_,
      dueItems_sorted Base.liveNodes_nodup hitems, ?_⟩
    · intro i
      have hlisted : i ∈ items.filterMap id ↔ some i ∈ items := by simp
      rw [List.mem_insertionSort, hlisted, FaultLib.mem_of_mapM hitems]
      exact exists_congr fun n => and_congr_right fun _ => Base.dueItem_eq_some
    · intro S max
      exact dueSelected_eq S now max Base.forEachLive_snapshot Base.liveNodes_nodup hitems

/-- Five documents, the first with an edge to a key that has none. -/
def fiveDocs : List Op :=
  [.upsert ⟨1, 5, 7, 0, "a", none, none, none⟩, .upsert ⟨2, 5, 7, 0, "b", none, none, none⟩,
    .upsert ⟨3, 5, 7, 0, "c", none, none, none⟩, .upsert ⟨4, 5, 7, 0, "d", none, none, none⟩,
    .upsert ⟨5, 5, 7, 0, "e", none, none, none⟩, .edges 1 [⟨9, 0, 0, 1⟩]]

/-- Over them: the first is touched, the second is a tombstone, the fifth removed; two new
    documents, and attributes of no document. -/
def patchedDocs : List Op :=
  [.touch 1 ⟨50, 0, none, none, 900, 1, 0, 0, false⟩,
    .touch 2 ⟨50, 3, none, none, 900, 1, 0, 0, true⟩, .remove 5,
    .upsert ⟨6, 5, 7, 0, "f", none, none, none⟩,
    .upsert ⟨8, 5, 100000000, 0, "h", none, none, none⟩, .attrs 7 [(1, "x")]]

/-- Ranks of the five documents and the stub. -/
def fiveRanks : SortedMap UrlKey NodeModel → List UInt16 := fun _ => [700, 900, 700, 700, 900, 0]

/-- What is due of them: 1 is overdue the longest, 3 and 4 tie but for their keys, and 6 has
    no rank. -/
def patchedDue : List DueItem :=
  [⟨"a", 1, none, 99414950, 700⟩, ⟨"c", 3, none, 85959993, 700⟩, ⟨"d", 4, none, 85959993, 700⟩,
    ⟨"f", 6, none, 78399993, 0⟩]

/-- What the readers return over the compacted documents. -/
def patchedCheck (nodes : SortedMap UrlKey NodeModel) : Bool :=
  let s := Base.snapshot ⟨nodes, fiveRanks nodes⟩ patchedDocs TtlConfig.default
  decide (nodes.entries.map Prod.fst = [1, 2, 3, 4, 5, 9]) &&
  decide (s.forEachLive.map (List.map NodeRef.key) = some [1, 3, 4, 6, 8]) &&
  decide (s.dueSelected .bySorting 100000000 5 = some patchedDue)

theorem live_and_due_exact_patchedDocs : ∃ nodes live,
    (Base.snapshot ⟨SortedMap.empty, []⟩ fiveDocs TtlConfig.default).compactNodes (fun _ => 0)
      = some nodes ∧ nodes.entries.map Prod.fst = [1, 2, 3, 4, 5, 9] ∧
    (Base.snapshot ⟨nodes, fiveRanks nodes⟩ patchedDocs TtlConfig.default).forEachLive = some live ∧
    live.map NodeRef.key = [1, 3, 4, 6, 8] ∧
    ∀ S, (Base.snapshot ⟨nodes, fiveRanks nodes⟩ patchedDocs TtlConfig.default).dueSelected S
        100000000 5 = some patchedDue ∧
      (Base.snapshot ⟨nodes, fiveRanks nodes⟩ patchedDocs TtlConfig.default).dueSelected S
        100000000 3 = some (patchedDue.take 3) := by
  obtain ⟨nodes, hnodes, hcheck⟩ : ∃ nodes,
      (Base.snapshot ⟨SortedMap.empty, []⟩ fiveDocs TtlConfig.default).compactNodes (fun _ => 0)
        = some nodes ∧ patchedCheck nodes = true :=
    (Option.any_eq_true _ _).mp (by decide +kernel)
  simp only [patchedCheck, Bool.and_eq_true, decide_eq_true_eq] at hcheck
  obtain ⟨⟨hkeys, hlivekeys⟩, hdue⟩ := hcheck
  have hreach : Reach (fun _ => 0) fiveRanks ⟨nodes, fiveRanks nodes⟩ ([] ++ patchedDocs) := by
    have hfirst : Reach (fun _ => 0) fiveRanks ⟨SortedMap.empty, []⟩ ([] ++ fiveDocs) :=
      .commit .create (by simp [fiveDocs, StagedOp, hasFlag, Ascending])
    exact .commit (.compact hfirst hnodes) (by simp [patchedDocs, StagedOp, hasFlag])
  rw [List.nil_append] at hreach
  obtain ⟨live, hlive, -, -, -, hdues⟩ :=
    live_and_due_exact (fun _ => 0) fiveRanks TtlConfig.default _ _ hreach
  obtain ⟨due, -, -, hselected⟩ := hdues 100000000
  have hfive : due.take 5 = patchedDue := by
    have hsorting := hselected .bySorting 5
    rw [hdue, Option.some.injEq] at hsorting
    exact hsorting.symm
  refine ⟨nodes, live, hnodes, hkeys, hlive, by simpa [hlive] using hlivekeys, fun S => ⟨?_, ?_⟩⟩
  · rw [hselected, hfive]
  · rw [hselected, ← hfive, List.take_take]
    rfl

end GraphR
