import GraphR.Store.Base

/-! # The live set

    `for_each_live` walks the base records and then the overlay keys without
    one. Over a decoded base it never faults, visits a key at most once, and
    visits exactly the nodes that `node` gives and that are neither stubs of the
    base nor tombstones (`mem_forEachLive`). What can come due is the live
    documents with a URL (`canComeDue_iff`). -/

namespace GraphR

open Wal

namespace Base

variable {b : Base} {ops : List Op} {ttl : TtlConfig}

/-- A node of a snapshot over `b` counts as live. -/
def isLive (b : Base) (n : NodeRef) : Bool :=
  !n.isTombstone && (!n.isStub || (b.nodes.get n.key).isNone)

/-- A node whose only source is the overlay has a core. -/
theorem core_of_nodeAt {k : UrlKey} {n : NodeRef} (h : b.nodeAt ops ttl k = some n)
    (hbase : b.nodes.get k = none) :
    ∃ p, foldKey k none ops = some p ∧ p.removed = false ∧ p.core.isSome := by
  unfold nodeAt mergedRef at h
  rw [hbase] at h
  cases hp : foldKey k none ops with
  | none => simp [hp] at h
  | some p =>
    rw [hp] at h
    by_cases hrem : p.removed = true
    · simp [hrem] at h
    · cases hcore : p.core with
      | none => simp [hrem, hcore] at h
      | some c => exact ⟨p, rfl, by simpa using hrem, by rw [hcore]; rfl⟩

/-- The walk over one base record. -/
theorem liveBase_snapshot {id : Nat} {k : UrlKey} {m : NodeModel}
    (h : b.nodes.entries[id]? = some (k, m)) :
    (b.snapshot ops ttl).liveBase id
      = some ((b.nodeAt ops ttl k).filter fun n => !(n.isStub || n.isTombstone)) := by
  have hget : b.nodes.get k = some m :=
    SortedMap.mem_entries.mp (List.mem_of_getElem? h)
  obtain ⟨id', hid', hentry'⟩ := idOf_of_get hget
  have hids : id' = id := by
    obtain ⟨hlt', hk', -⟩ := List.idxOf?_eq_some_iff.mp hid'
    have hlt : id < b.nodes.keys.length := by
      have := (List.getElem?_eq_some_iff.mp h).1
      simpa [SortedMap.keys] using this
    have hk : b.nodes.keys[id] = k := by
      obtain ⟨hlt₂, he⟩ := List.getElem?_eq_some_iff.mp h
      simp [SortedMap.keys, he]
    exact (List.Nodup.getElem_inj_iff (b.nodes.keys_sorted.imp ne_of_lt)).mp (hk'.trans hk.symm)
  subst hids
  have hrec : (b.snapshot ops ttl).base.nodeRec id' = some (m.toRec k) := by
    simp [snapshot, reader, h]
  have hkey : (m.toRec k).key = k := rfl
  unfold Snapshot.liveBase
  rw [hrec]
  simp only [Option.bind_eq_bind, Option.bind_some, hkey, overlay_snapshot]
  by_cases hrem : (foldKey k none ops).any (·.removed) = true
  · rw [if_pos hrem]
    unfold nodeAt mergedRef
    rw [if_pos hrem]
    rfl
  · rw [if_neg hrem]
    by_cases hcore : ((foldKey k none ops).bind (·.core)).isSome = true
    · rw [if_pos hcore, node_snapshot]
      rfl
    · -- no overlay core: the record itself, patched
      rw [if_neg hcore]
      have hnone : ((foldKey k none ops).bind fun p => p.core.map fun c => (p, c)) = none := by
        cases hp : foldKey k none ops with
        | none => rfl
        | some p =>
          rw [hp] at hcore
          cases hc : p.core with
          | none => simp [hc]
          | some c => simp [hc] at hcore
      have hnode : b.nodeAt ops ttl k = some (.make k (some id') m.url m.title m.snippet
          (baseFreshness (m.toRec k) (foldKey k none ops)) (b.rankOf k)) := by
        unfold nodeAt mergedRef
        rw [if_neg hrem, hnone, hget, hid']
        rfl
      rw [hnode]
      simp [Snapshot.baseNodeRef, snapshot, reader, h, rankOf, hid', NodeModel.url_getD_toRec]
      rfl

/-- The walk over one overlay key. -/
theorem liveFresh_snapshot (k : UrlKey) (p : OverlayNode) :
    (b.snapshot ops ttl).liveFresh k p
      = some (if p.removed || p.core.isNone || (b.nodes.get k).isSome then none
          else (b.nodeAt ops ttl k).filter fun n => !n.isTombstone) := by
  have hfind : (b.snapshot ops ttl).base.findNode k = some (b.idOf k) := rfl
  have hid : (b.idOf k).isSome = (b.nodes.get k).isSome := by
    cases hk : b.nodes.get k with
    | none => rw [idOf_eq_none.mpr hk]; rfl
    | some m =>
      obtain ⟨id, hid, -⟩ := idOf_of_get hk
      rw [hid]
      rfl
  unfold Snapshot.liveFresh
  rw [hfind]
  simp only [Option.bind_eq_bind, Option.bind_some, hid, node_snapshot]
  by_cases hskip : (p.removed || p.core.isNone || (b.nodes.get k).isSome) = true
  · rw [if_pos hskip, if_pos hskip]
  · rw [if_neg hskip, if_neg hskip]
    rfl

/-- The live nodes a snapshot over `b` visits. -/
def liveNodes (b : Base) (ops : List Op) (ttl : TtlConfig) : List NodeRef :=
  (b.nodes.entries.filterMap fun e =>
    (b.nodeAt ops ttl e.1).filter fun n => !(n.isStub || n.isTombstone)) ++
  ((OverlayView.build ops).entries.filterMap fun e =>
    if e.2.removed || e.2.core.isNone || (b.nodes.get e.1).isSome then none
    else (b.nodeAt ops ttl e.1).filter fun n => !n.isTombstone)

theorem forEachLive_snapshot : (b.snapshot ops ttl).forEachLive = some (b.liveNodes ops ttl) := by
  have hbase : (List.range b.nodes.entries.length).mapM (b.snapshot ops ttl).liveBase
      = some (b.nodes.entries.map fun e =>
          (b.nodeAt ops ttl e.1).filter fun n => !(n.isStub || n.isTombstone)) := by
    have h := FaultLib.mapM_range_eq_some
      (b.nodes.entries.map fun e =>
        (b.nodeAt ops ttl e.1).filter fun n => !(n.isStub || n.isTombstone))
      (b.snapshot ops ttl).liveBase
      (by
        intro id hid
        have hlt : id < b.nodes.entries.length := by simpa using hid
        rw [liveBase_snapshot (List.getElem?_eq_getElem hlt), List.getElem_map]
        rfl)
    rwa [List.length_map] at h
  have hfresh : (b.snapshot ops ttl).overlay.entries.mapM
        (fun e => (b.snapshot ops ttl).liveFresh e.1 e.2)
      = some ((b.snapshot ops ttl).overlay.entries.map fun e =>
          if e.2.removed || e.2.core.isNone || (b.nodes.get e.1).isSome then none
          else (b.nodeAt ops ttl e.1).filter fun n => !n.isTombstone) :=
    FaultLib.mapM_eq_some fun e _ => liveFresh_snapshot e.1 e.2
  have hcount : (b.snapshot ops ttl).base.nodeCount = b.nodes.entries.length := rfl
  unfold Snapshot.forEachLive
  rw [hcount, hbase, hfresh]
  simp only [Option.bind_eq_bind, Option.bind_some, List.filterMap_map, Function.comp_def, id]
  rfl

theorem mem_liveNodes {n : NodeRef} :
    n ∈ b.liveNodes ops ttl ↔ b.nodeAt ops ttl n.key = some n ∧ b.isLive n = true := by
  unfold liveNodes
  rw [List.mem_append, List.mem_filterMap, List.mem_filterMap]
  constructor
  · rintro (⟨⟨k, m⟩, hmem, hn⟩ | ⟨⟨k, p⟩, hmem, hn⟩)
    · obtain ⟨hnode, hlive⟩ := Option.filter_eq_some_iff.mp hn
      have hkey := key_of_nodeAt hnode
      simp only at hkey
      subst hkey
      refine ⟨hnode, ?_⟩
      simp only [Bool.not_or, Bool.and_eq_true, Bool.not_eq_true'] at hlive
      simp [isLive, hlive.1, hlive.2]
    · by_cases hskip : (p.removed || p.core.isNone || (b.nodes.get k).isSome) = true
      · simp [hskip] at hn
      · simp only [hskip, Bool.false_eq_true, if_false] at hn
        obtain ⟨hnode, hlive⟩ := Option.filter_eq_some_iff.mp hn
        have hkey := key_of_nodeAt hnode
        subst hkey
        refine ⟨hnode, ?_⟩
        simp only [Bool.or_eq_true, not_or, Bool.not_eq_true, Option.isSome_eq_false_iff] at hskip
        simp only [Bool.not_eq_true'] at hlive
        simp [isLive, hlive, hskip.2]
  · rintro ⟨hnode, hlive⟩
    simp only [isLive, Bool.and_eq_true, Bool.not_eq_true', Bool.or_eq_true,
      Option.isNone_iff_eq_none] at hlive
    obtain ⟨htomb, hstub⟩ := hlive
    cases hbase : b.nodes.get n.key with
    | some m =>
      refine .inl ⟨(n.key, m), SortedMap.mem_entries.mpr hbase, ?_⟩
      rcases hstub with hstub | hnone
      · exact Option.filter_eq_some_iff.mpr ⟨hnode, by simp [hstub, htomb]⟩
      · rw [hbase] at hnone
        cases hnone
    | none =>
      obtain ⟨p, hp, hrem, hcore⟩ := core_of_nodeAt hnode hbase
      refine .inr ⟨(n.key, p), SortedMap.mem_entries.mpr (by rw [get_build]; exact hp), ?_⟩
      have hskip : ¬((p.removed || p.core.isNone || (b.nodes.get n.key).isSome) = true) := by
        rw [hbase, hrem]
        cases hc : p.core with
        | none => rw [hc] at hcore; cases hcore
        | some c => simp
      simp only
      rw [if_neg hskip]
      exact Option.filter_eq_some_iff.mpr ⟨hnode, by simp [htomb]⟩

/-! ### Each key at most once -/

/-- The keys of what is picked from an entry list by key are among its keys, in
    order. -/
theorem keys_filterMap_sublist {α : Type} {es : List (UrlKey × α)} {f : UrlKey × α → Option NodeRef}
    (h : ∀ e n, f e = some n → n.key = e.1) :
    ((es.filterMap f).map NodeRef.key).Sublist (es.map Prod.fst) := by
  induction es with
  | nil => simp
  | cons e es ih =>
    cases he : f e with
    | none =>
      rw [List.filterMap_cons, he, List.map_cons]
      exact ih.cons _
    | some n =>
      rw [List.filterMap_cons, he, List.map_cons, List.map_cons, h e n he]
      exact ih.cons_cons _

theorem liveNodes_nodup : ((b.liveNodes ops ttl).map NodeRef.key).Nodup := by
  unfold liveNodes
  rw [List.map_append, List.nodup_append]
  refine ⟨?_, ?_, ?_⟩
  · refine List.Nodup.sublist (keys_filterMap_sublist ?_) (b.nodes.keys_sorted.imp ne_of_lt)
    intro e n hn
    exact key_of_nodeAt (Option.filter_eq_some_iff.mp hn).1
  · refine List.Nodup.sublist (keys_filterMap_sublist ?_)
      ((OverlayView.build ops).keys_sorted.imp ne_of_lt)
    intro e n hn
    by_cases hskip : (e.2.removed || e.2.core.isNone || (b.nodes.get e.1).isSome) = true
    · simp [hskip] at hn
    · simp only [hskip, Bool.false_eq_true, if_false] at hn
      exact key_of_nodeAt (Option.filter_eq_some_iff.mp hn).1
  · -- a fresh key has no base record
    intro k hk k' hk' heq
    subst heq
    obtain ⟨n, hn, rfl⟩ := List.mem_map.mp hk
    obtain ⟨⟨k, m⟩, hmem, hnode⟩ := List.mem_filterMap.mp hn
    have hkey := key_of_nodeAt (Option.filter_eq_some_iff.mp hnode).1
    obtain ⟨n', hn', hsame⟩ := List.mem_map.mp hk'
    obtain ⟨⟨k', p⟩, -, hnode'⟩ := List.mem_filterMap.mp hn'
    by_cases hskip : (p.removed || p.core.isNone || (b.nodes.get k').isSome) = true
    · simp [hskip] at hnode'
    · simp only [hskip, Bool.false_eq_true, if_false] at hnode'
      have hkey' := key_of_nodeAt (Option.filter_eq_some_iff.mp hnode').1
      have hnone : b.nodes.get k' = none := by
        simp only [Bool.or_eq_true, not_or, Bool.not_eq_true, Option.isSome_eq_false_iff,
          Option.isNone_iff_eq_none] at hskip
        exact hskip.2
      have hsome : b.nodes.get k = some m := SortedMap.mem_entries.mp hmem
      simp only at hkey
      rw [← hkey', hsame, hkey, hsome] at hnone
      cases hnone

/-! ### What can come due -/

/-- Some due list has an item for `k`. -/
def canComeDue (s : Snapshot) (k : UrlKey) : Prop :=
  ∃ now max items, s.due now max = some items ∧ ∃ i ∈ items, i.key = k

/-- A live node with a URL is due once enough time has passed. -/
theorem dueItem_last (s : Snapshot) (n : NodeRef) (hurl : n.url ≠ "") :
    ∃ i, s.dueItem (UInt64.ofNat (2 ^ 64 - 1)) n = some (some i) ∧ i.key = n.key := by
  obtain ⟨next, hnext⟩ := Option.isSome_iff_exists.mp
    (s.ttl.nextCheckAtMs_isSome n.fetchedAtMs (max n.intervalS 1) n.rankPermille)
  have hle : next ≤ UInt64.ofNat (2 ^ 64 - 1) := by
    rw [UInt64.le_iff_toNat_le]
    have := next.toNat_lt
    simp
    omega
  have hsub : ckSub (UInt64.ofNat (2 ^ 64 - 1)).toNat next.toNat
      = some ((UInt64.ofNat (2 ^ 64 - 1)).toNat - next.toNat) :=
    ckSub_of_le (UInt64.le_iff_toNat_le.mp hle)
  unfold Snapshot.dueItem
  simp only [hnext, Option.bind_eq_bind, Option.bind_some]
  rw [if_pos ⟨hle, hurl⟩, hsub]
  exact ⟨_, rfl, rfl⟩

/-- A node is listed where it has a URL and its next check is not after `now`, with how
    long it is overdue. -/
theorem dueItem_eq_some {s : Snapshot} {now : UInt64} {n : NodeRef} {i : DueItem} :
    s.dueItem now n = some (some i) ↔ ∃ next,
      s.ttl.nextCheckAtMs n.fetchedAtMs (max n.intervalS 1) n.rankPermille = some next ∧
        n.url ≠ "" ∧ next ≤ now ∧
          i = ⟨n.url, n.key, n.etag, now.toNat - next.toNat, n.rankPermille⟩ := by
  obtain ⟨next, hnext⟩ := Option.isSome_iff_exists.mp
    (s.ttl.nextCheckAtMs_isSome n.fetchedAtMs (max n.intervalS 1) n.rankPermille)
  unfold Snapshot.dueItem
  simp only [hnext, Option.bind_eq_bind, Option.bind_some, Option.some.injEq, exists_eq_left']
  by_cases hdue : next ≤ now ∧ n.url ≠ ""
  · rw [if_pos hdue, ckSub_of_le (UInt64.le_iff_toNat_le.mp hdue.1)]
    simp [hdue.1, hdue.2, eq_comm]
  · rw [if_neg hdue]
    constructor
    · rintro ⟨⟩
    · rintro ⟨hurl, hle, -⟩
      exact absurd ⟨hle, hurl⟩ hdue

/-- A due item has the key and URL of its node. -/
theorem dueItem_key {s : Snapshot} {now : UInt64} {n : NodeRef} {i : DueItem}
    (h : s.dueItem now n = some (some i)) : i.key = n.key ∧ n.url ≠ "" := by
  obtain ⟨next, -, hurl, -, rfl⟩ := dueItem_eq_some.mp h
  exact ⟨rfl, hurl⟩

theorem dueItem_isSome (s : Snapshot) (now : UInt64) (n : NodeRef) :
    (s.dueItem now n).isSome := by
  obtain ⟨next, hnext⟩ := Option.isSome_iff_exists.mp
    (s.ttl.nextCheckAtMs_isSome n.fetchedAtMs (max n.intervalS 1) n.rankPermille)
  unfold Snapshot.dueItem
  simp only [hnext, Option.bind_eq_bind, Option.bind_some]
  by_cases hdue : next ≤ now ∧ n.url ≠ ""
  · rw [if_pos hdue, ckSub_of_le (UInt64.le_iff_toNat_le.mp hdue.1)]
    rfl
  · rw [if_neg hdue]
    rfl

/-- The documents that can come due are the live ones with a URL. -/
theorem canComeDue_iff {k : UrlKey} :
    canComeDue (b.snapshot ops ttl) k ↔ ∃ n ∈ b.liveNodes ops ttl, n.key = k ∧ n.url ≠ "" := by
  constructor
  · rintro ⟨now, max, items, hdue, i, hi, rfl⟩
    unfold Snapshot.due at hdue
    rw [forEachLive_snapshot] at hdue
    simp only [Option.bind_eq_bind, Option.bind_some] at hdue
    cases hmap : (b.liveNodes ops ttl).mapM ((b.snapshot ops ttl).dueItem now) with
    | none => simp [hmap] at hdue
    | some ys =>
      simp only [hmap, Option.bind_some, Option.some.injEq] at hdue
      subst hdue
      have hmem := List.mem_of_mem_take hi
      rw [List.mem_insertionSort, List.mem_filterMap] at hmem
      obtain ⟨y, hy, rfl⟩ := hmem
      obtain ⟨n, hn, hitem⟩ := (FaultLib.mem_of_mapM hmap).mp hy
      obtain ⟨hkey, hurl⟩ := dueItem_key hitem
      exact ⟨n, hn, hkey.symm, hurl⟩
  · rintro ⟨n, hn, rfl, hurl⟩
    have hall : ((b.liveNodes ops ttl).mapM
        ((b.snapshot ops ttl).dueItem (UInt64.ofNat (2 ^ 64 - 1)))).isSome :=
      FaultLib.mapM_isSome fun n' _ => dueItem_isSome _ _ n'
    obtain ⟨ys, hys⟩ := Option.isSome_iff_exists.mp hall
    obtain ⟨i, hitem, hkey⟩ := dueItem_last (b.snapshot ops ttl) n hurl
    have hdue : (b.snapshot ops ttl).due (UInt64.ofNat (2 ^ 64 - 1)) ys.length
        = some (((ys.filterMap id).insertionSort fun a b => a.before b).take ys.length) := by
      unfold Snapshot.due
      rw [forEachLive_snapshot]
      simp only [Option.bind_eq_bind, Option.bind_some, hys]
    refine ⟨_, _, _, hdue, i, ?_, hkey⟩
    rw [List.take_of_length_le (by
      rw [List.length_insertionSort]; exact List.length_filterMap_le _ _),
      List.mem_insertionSort, List.mem_filterMap]
    exact ⟨some i, (FaultLib.mem_of_mapM hys).mpr ⟨n, hn, hitem⟩, rfl⟩

end Base

end GraphR
