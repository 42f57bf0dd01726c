import GraphR.Store.Image

/-! # Accepted images are safe to read

    A reader is `Sound` when its reads do not fault on ids below the node count
    and hand out such ids only. Every read of a snapshot over a sound reader is
    free of faults, whatever its overlay holds; and a base file that
    `BaseDir::parse` accepts has a sound reader. -/

namespace GraphR

open Wal ByteLib BaseFile

/-! ## Sound readers -/

structure BaseReader.Sound (r : BaseReader) : Prop where
  find : ∀ k, ∃ o, r.findNode k = some o ∧ ∀ id, o = some id → id < r.nodeCount
  nodeRec : ∀ id, id < r.nodeCount → (r.nodeRec id).isSome
  rank : ∀ id, (r.rankPermille id).isSome
  edges : ∀ id, id < r.nodeCount → ∃ es, r.edges id = some es ∧ ∀ e ∈ es, e.node < r.nodeCount
  inEdges : ∀ id, id < r.nodeCount →
    ∃ es, r.inEdges id = some es ∧ ∀ e ∈ es, e.node < r.nodeCount
  segs : ∀ id, id < r.nodeCount → (r.segs id).isSome
  attrs : ∀ id, id < r.nodeCount → (r.attrs id).isSome

namespace Snapshot

variable {s : Snapshot}

section sound
variable (hs : s.base.Sound)
include hs

theorem nodeIdentity_isSome {id : Nat} (hid : id < s.base.nodeCount) :
    (s.nodeIdentity id).isSome := by
  obtain ⟨r, hr⟩ := Option.isSome_iff_exists.mp (hs.nodeRec id hid)
  simp [nodeIdentity, hr]

theorem baseNodeRef_isSome {id : Nat} (hid : id < s.base.nodeCount) (patch : Option OverlayNode) :
    (s.baseNodeRef id patch).isSome := by
  obtain ⟨r, hr⟩ := Option.isSome_iff_exists.mp (hs.nodeRec id hid)
  obtain ⟨rank, hrank⟩ := Option.isSome_iff_exists.mp (hs.rank id)
  simp [baseNodeRef, hr, hrank]

theorem node_isSome (k : UrlKey) : (s.node k).isSome := by
  obtain ⟨o, ho, hlt⟩ := hs.find k
  unfold node
  by_cases hrem : (s.overlay.get k).any (·.removed) = true
  · simp only [hrem, if_true, Option.isSome_some]
  · simp only [hrem, Bool.false_eq_true, if_false, ho, Option.bind_eq_bind, Option.bind_some]
    cases hcore : (s.overlay.get k).bind fun p => p.core.map fun c => (p, c) with
    | none =>
      cases o with
      | none => rfl
      | some id =>
        simp only [Option.isSome_map]
        exact baseNodeRef_isSome hs (hlt id rfl) _
    | some pc =>
      simp only [Option.isSome_map]
      cases o with
      | none => rfl
      | some id =>
        obtain ⟨r, hr⟩ := Option.isSome_iff_exists.mp (hs.nodeRec id (hlt id rfl))
        obtain ⟨rank, hrank⟩ := Option.isSome_iff_exists.mp (hs.rank id)
        simp [coreNodeRef, hr, hrank]

theorem liveBase_isSome {id : Nat} (hid : id < s.base.nodeCount) : (s.liveBase id).isSome := by
  obtain ⟨r, hr⟩ := Option.isSome_iff_exists.mp (hs.nodeRec id hid)
  obtain ⟨n, hn⟩ := Option.isSome_iff_exists.mp (node_isSome hs r.key)
  obtain ⟨b, hb⟩ := Option.isSome_iff_exists.mp (baseNodeRef_isSome hs hid (s.overlay.get r.key))
  unfold liveBase
  simp only [hr, Option.bind_eq_bind, Option.bind_some]
  split_ifs
  · rfl
  · simp [hn]
  · simp [hb]

theorem liveFresh_isSome (k : UrlKey) (p : OverlayNode) : (s.liveFresh k p).isSome := by
  obtain ⟨o, ho, -⟩ := hs.find k
  obtain ⟨n, hn⟩ := Option.isSome_iff_exists.mp (node_isSome hs k)
  unfold liveFresh
  simp only [ho, Option.bind_eq_bind, Option.bind_some]
  split_ifs
  · rfl
  · simp [hn]

theorem forEachLive_isSome : s.forEachLive.isSome := by
  have hbase : ((List.range s.base.nodeCount).mapM s.liveBase).isSome :=
    FaultLib.mapM_isSome fun id hid => liveBase_isSome hs (List.mem_range.mp hid)
  have hfresh : (s.overlay.entries.mapM fun e => s.liveFresh e.1 e.2).isSome :=
    FaultLib.mapM_isSome fun e _ => liveFresh_isSome hs e.1 e.2
  obtain ⟨a, ha⟩ := Option.isSome_iff_exists.mp hbase
  obtain ⟨b, hb⟩ := Option.isSome_iff_exists.mp hfresh
  simp [forEachLive, ha, hb]

theorem due_isSome (now : UInt64) (max : Nat) : (s.due now max).isSome := by
  obtain ⟨live, hlive⟩ := Option.isSome_iff_exists.mp (forEachLive_isSome hs)
  have hitems : (live.mapM (s.dueItem now)).isSome :=
    FaultLib.mapM_isSome fun n _ => Base.dueItem_isSome s now n
  obtain ⟨items, hitems⟩ := Option.isSome_iff_exists.mp hitems
  simp [due, hlive, hitems]

theorem baseNeighbors_isSome (k : UrlKey) : (s.baseNeighbors k).isSome := by
  obtain ⟨o, ho, hlt⟩ := hs.find k
  unfold baseNeighbors
  simp only [ho, Option.bind_eq_bind, Option.bind_some]
  cases o with
  | none => rfl
  | some id =>
    obtain ⟨es, hes, hends⟩ := hs.edges id (hlt id rfl)
    simp only [hes, Option.bind_some]
    apply FaultLib.mapM_isSome
    intro e he
    obtain ⟨i, hi⟩ := Option.isSome_iff_exists.mp (nodeIdentity_isSome hs (hends e he))
    simp [baseEdgeRef, hi]

theorem neighbors_isSome (k : UrlKey) : (s.neighbors k).isSome := by
  unfold neighbors
  cases s.overlay.get k with
  | none => exact baseNeighbors_isSome hs k
  | some p =>
    simp only
    by_cases hrem : p.removed = true
    · simp [hrem]
    · simp only [hrem, Bool.false_eq_true, if_false]
      cases p.edges with
      | none =>
        simp only
        split_ifs
        · rfl
        · exact baseNeighbors_isSome hs k
      | some es =>
        apply FaultLib.mapM_isSome
        intro e _
        obtain ⟨o, ho, hlt⟩ := hs.find e.dst
        unfold overlayEdgeRef
        simp only [ho, Option.bind_eq_bind, Option.bind_some]
        cases o with
        | none => rfl
        | some id =>
          obtain ⟨i, hi⟩ := Option.isSome_iff_exists.mp (nodeIdentity_isSome hs (hlt id rfl))
          simp [hi]

theorem inEdges_isSome (k : UrlKey) : (s.inEdges k).isSome := by
  obtain ⟨o, ho, hlt⟩ := hs.find k
  unfold inEdges
  simp only [ho, Option.bind_eq_bind, Option.bind_some]
  cases o with
  | none => rfl
  | some id =>
    obtain ⟨es, hes, hends⟩ := hs.inEdges id (hlt id rfl)
    have hrun : (es.mapM s.baseInEdge).isSome := by
      apply FaultLib.mapM_isSome
      intro e he
      obtain ⟨i, hi⟩ := Option.isSome_iff_exists.mp (nodeIdentity_isSome hs (hends e he))
      unfold baseInEdge
      simp only [hi, Option.bind_eq_bind, Option.bind_some]
      split_ifs <;> rfl
    obtain ⟨run, hrun⟩ := Option.isSome_iff_exists.mp hrun
    simp [hes, hrun]

theorem segments_isSome (xxh3 : Bytes → UInt64) (k : UrlKey) : (s.segments xxh3 k).isSome := by
  have hbase : (s.baseSegments k).isSome := by
    obtain ⟨o, ho, hlt⟩ := hs.find k
    unfold baseSegments
    simp only [ho, Option.bind_eq_bind, Option.bind_some]
    cases o with
    | none => rfl
    | some id => exact hs.segs id (hlt id rfl)
  unfold segments
  cases s.overlay.get k with
  | none => exact hbase
  | some p =>
    simp only
    by_cases hgone : (p.removed || (p.segs.isNone && p.severed)) = true
    · simp [hgone]
    · rw [if_neg hgone]
      cases p.segs with
      | none => exact hbase
      | some vs => rfl

theorem attrs_isSome (k : UrlKey) : (s.attrs k).isSome := by
  have hbase : (s.baseAttrs k).isSome := by
    obtain ⟨o, ho, hlt⟩ := hs.find k
    unfold baseAttrs
    simp only [ho, Option.bind_eq_bind, Option.bind_some]
    cases o with
    | none => rfl
    | some id => exact hs.attrs id (hlt id rfl)
  unfold attrs
  cases s.overlay.get k with
  | none => exact hbase
  | some p =>
    simp only
    by_cases hgone : (p.removed || (p.attrs.isNone && p.severed)) = true
    · simp [hgone]
    · rw [if_neg hgone]
      cases p.attrs with
      | none => exact hbase
      | some as => rfl

theorem namedAttrs_isSome (k : UrlKey) : (s.namedAttrs k).isSome := by
  obtain ⟨as, has⟩ := Option.isSome_iff_exists.mp (attrs_isSome hs k)
  simp [namedAttrs, has]

/-- One level of a walk. -/
theorem expand_isSome (out inbound : Bool) (follow : EdgeType → Bool)
    (visit : List Hop → Hop → Bool) (depth : Nat) (w : Walk) (node : UrlKey × Bool) :
    (s.expand out inbound follow visit depth w node).isSome := by
  obtain ⟨es, hes⟩ := Option.isSome_iff_exists.mp (neighbors_isSome hs node.1)
  obtain ⟨ins, hins⟩ := Option.isSome_iff_exists.mp (inEdges_isSome hs node.1)
  unfold expand
  cases out <;> cases inbound <;> simp [hes, hins]

theorem foldlM_expand_isSome (out inbound : Bool) (follow : EdgeType → Bool)
    (visit : List Hop → Hop → Bool) (depth : Nat) (frontier : List (UrlKey × Bool)) (w : Walk) :
    (frontier.foldlM (s.expand out inbound follow visit depth) w).isSome := by
  induction frontier generalizing w with
  | nil => rfl
  | cons node frontier ih =>
    obtain ⟨w', hw'⟩ := Option.isSome_iff_exists.mp
      (expand_isSome hs out inbound follow visit depth w node)
    rw [List.foldlM_cons, hw']
    exact ih w'

theorem walkAlong_isSome (out inbound : Bool) (follow : EdgeType → Bool)
    (visit : List Hop → Hop → Bool) (src : UrlKey) (maxDepth : UInt32) :
    (s.walkAlong out inbound follow visit src maxDepth).isSome := by
  have hlevels : ∀ left depth w frontier,
      (s.walkLevels out inbound follow visit left depth w frontier).isSome := by
    intro left
    induction left with
    | zero =>
      intro depth w frontier
      rfl
    | succ left ih =>
      intro depth w frontier
      obtain ⟨w', hw'⟩ := Option.isSome_iff_exists.mp
        (foldlM_expand_isSome hs out inbound follow visit depth frontier { w with next := [] })
      unfold walkLevels
      simp only [hw', Option.bind_eq_bind, Option.bind_some]
      split_ifs
      · rfl
      · exact ih _ _ _
  rw [walkAlong, Option.isSome_map]
  exact hlevels _ _ _ _

end sound

end Snapshot

/-! ## Base files -/

namespace BaseFile

section tables
variable {s : SectionKind → Bytes}

theorem slice_isSome {table : Bytes} {width i count : Nat} (hlen : table.length = count * width)
    (hi : i < count) : slice table width i = some (recordAt table width i) := by
  unfold slice
  rw [if_pos]
  rw [hlen]
  exact Nat.mul_le_mul_right width hi

theorem labelAt_isSome {labels : Bytes} {off : UInt32} {u : Unit}
    (h : checkLabel labels off = .ok u) : (labelAt labels off).isSome := by
  unfold checkLabel at h
  unfold labelAt
  by_cases hno : off = noLabel
  · rw [if_pos hno]
    rfl
  · rw [if_neg hno] at h ⊢
    simp only [FaultLib.check_bind_ok, FaultLib.check_ok] at h
    obtain ⟨hoff, hlen, hutf⟩ := h
    rw [getU16_of_inBounds hoff]
    simp only [Option.bind_eq_bind, Option.bind_some]
    obtain ⟨t, ht⟩ := Option.isSome_iff_exists.mp (text_isSome (by omega) hutf)
    simp [ht]

/-- The search only reads records of the table and returns one of them. -/
theorem findGo_spec {nodes : Bytes} {n : Nat} (hlen : nodes.length = n * nodeLen) (key : UrlKey)
    (fuel lo hi : Nat) (hhi : hi ≤ n) :
    ∃ o, findGo nodes key fuel lo hi = some o ∧ ∀ id, o = some id → id < n := by
  induction fuel generalizing lo hi with
  | zero => exact ⟨none, rfl, by simp⟩
  | succ fuel ih =>
    unfold findGo
    by_cases hlt : lo < hi
    · have hmid : (lo + hi) / 2 < n := by omega
      have hin : (lo + hi) / 2 * nodeLen + 8 ≤ nodes.length := by
        have hle : ((lo + hi) / 2 + 1) * nodeLen ≤ nodes.length := by
          rw [hlen]
          exact Nat.mul_le_mul_right nodeLen hmid
        have hw : nodeLen = 72 := rfl
        rw [hw] at hle ⊢
        omega
      simp only [hlt, if_true, getU64_of_inBounds hin, Option.bind_eq_bind, Option.bind_some]
      split_ifs
      · exact ih _ _ hhi
      · exact ih _ _ (by omega)
      · refine ⟨_, rfl, ?_⟩
        intro id hid
        cases hid
        exact hmid
    · simp only [hlt, if_false]
      exact ⟨none, rfl, by simp⟩

/-- No index entry is above the total. -/
theorem checkMonotone_le {idx : Bytes} {total : Nat} {e : Error} {k i : Nat} {prev last : UInt32}
    (h : checkMonotone idx total e k i prev = .ok last) :
    ∀ j, i ≤ j → j < i + k → (u32At idx (j * 4)).toNat ≤ total := by
  induction k generalizing i prev with
  | zero =>
    intro j hij hj
    omega
  | succ k ih =>
    unfold checkMonotone at h
    rw [FaultLib.check_bind_ok] at h
    intro j hij hj
    rcases Nat.eq_or_lt_of_le hij with rfl | hlt
    · exact h.1.2
    · exact ih h.2 j hlt (by omega)

theorem checkCover_le {idx : Bytes} {n total : Nat} {e e' : Error} {u : Unit}
    (h : checkCover idx n total e e' = .ok u) :
    ∀ j, j ≤ n → (u32At idx (j * 4)).toNat ≤ total := by
  unfold checkCover at h
  rw [FaultLib.bind_ok] at h
  obtain ⟨last, hmono, -⟩ := h
  intro j hj
  exact checkMonotone_le hmono j (Nat.zero_le j) (by omega)

/-- A run of a checked index stays inside its table. -/
theorem runOf_spec {α : Type} {P : α → Prop} {idx table : Bytes} {width n total : Nat}
    {read : Bytes → Option α} (hidx : idx.isEmpty ∨ idx.length = (n + 1) * 4)
    (htable : table.length = total * width)
    (hle : ¬idx.isEmpty → ∀ j, j ≤ n → (u32At idx (j * 4)).toNat ≤ total)
    (hread : ∀ i, i < total → ∃ a, read (recordAt table width i) = some a ∧ P a) {id : Nat}
    (hid : id < n) :
    ∃ as, runOf idx table width read id = some as ∧ ∀ a ∈ as, P a := by
  unfold runOf
  by_cases hempty : idx.isEmpty = true
  · rw [if_pos hempty]
    exact ⟨[], rfl, by simp⟩
  · rw [if_neg hempty]
    have hlen : idx.length = (n + 1) * 4 := hidx.resolve_left hempty
    rw [getU32_of_inBounds (by omega), getU32_of_inBounds (by omega)]
    simp only [Option.bind_eq_bind, Option.bind_some]
    have hstop := hle hempty (id + 1) hid
    have hall : ∀ i ∈ List.range' (u32At idx (id * 4)).toNat
        ((u32At idx ((id + 1) * 4)).toNat - (u32At idx (id * 4)).toNat),
        ∃ a, ((slice table width i).bind read) = some a ∧ P a := by
      intro i hi
      rw [List.mem_range'_1] at hi
      have hlt : i < total := by omega
      obtain ⟨a, ha, hp⟩ := hread i hlt
      exact ⟨a, by rw [slice_isSome htable hlt]; exact ha, hp⟩
    obtain ⟨as, has⟩ := Option.isSome_iff_exists.mp (FaultLib.mapM_isSome (f := fun i =>
      (slice table width i).bind read) fun i hi => by
        obtain ⟨a, ha, -⟩ := hall i hi
        rw [ha]
        rfl)
    refine ⟨as, has, ?_⟩
    intro a ha
    obtain ⟨i, hi, hia⟩ := (FaultLib.mem_of_mapM has).mp ha
    obtain ⟨a', ha', hp⟩ := hall i hi
    rw [ha'] at hia
    cases hia
    exact hp

theorem nodeRec_isSome {h : Header} (hnodes : (s .nodes).length = h.nodeCount.toNat * nodeLen)
    (hcheck : ∀ i, i < h.nodeCount.toNat →
      checkNode (s .labels) h.segCount.toNat (recordAt (s .nodes) nodeLen i) = .ok ())
    {id : Nat} (hid : id < h.nodeCount.toNat) : (nodeRec s id).isSome := by
  have hnode := hcheck id hid
  unfold checkNode at hnode
  rw [FaultLib.bind_ok] at hnode
  obtain ⟨⟨⟩, hlabels, -⟩ := hnode
  rw [FaultLib.each_ok] at hlabels
  simp only [List.forall_mem_cons, List.not_mem_nil, false_imp_iff, implies_true,
    and_true] at hlabels
  obtain ⟨hurl, htitle, hsnippet, hetag⟩ := hlabels
  obtain ⟨url, hurl⟩ := Option.isSome_iff_exists.mp (labelAt_isSome hurl)
  obtain ⟨title, htitle⟩ := Option.isSome_iff_exists.mp (labelAt_isSome htitle)
  obtain ⟨snippet, hsnippet⟩ := Option.isSome_iff_exists.mp (labelAt_isSome hsnippet)
  obtain ⟨etag, hetag⟩ := Option.isSome_iff_exists.mp (labelAt_isSome hetag)
  simp [nodeRec, slice_isSome hnodes hid, hurl, htitle, hsnippet, hetag]

theorem segRun_isSome {h : Header} (hnodes : (s .nodes).length = h.nodeCount.toNat * nodeLen)
    (hsegs : (s .segs).length = h.segCount.toNat * segLen)
    (hcheck : ∀ i, i < h.nodeCount.toNat →
      checkNode (s .labels) h.segCount.toNat (recordAt (s .nodes) nodeLen i) = .ok ())
    (hlabels : ∀ i, i < h.segCount.toNat →
      checkLabel (s .labels) (SegRec.labelOff (recordAt (s .segs) segLen i)) = .ok ())
    {id : Nat} (hid : id < h.nodeCount.toNat) : (segRun s id).isSome := by
  have hnode := hcheck id hid
  unfold checkNode at hnode
  rw [FaultLib.bind_ok] at hnode
  obtain ⟨⟨⟩, -, hrun⟩ := hnode
  rw [FaultLib.check_ok] at hrun
  unfold segRun
  rw [slice_isSome hnodes hid]
  simp only [Option.bind_eq_bind, Option.bind_some]
  apply FaultLib.mapM_isSome
  intro i hi
  rw [List.mem_range'_1] at hi
  have hlt : i < h.segCount.toNat := by omega
  obtain ⟨l, hl⟩ := Option.isSome_iff_exists.mp (labelAt_isSome (hlabels i hlt))
  simp [segRec, slice_isSome hsegs hlt, hl]

theorem rankPermille_isSome (id : Nat) : (rankPermille s id).isSome := by
  unfold rankPermille
  split_ifs with hin
  · have hw : rankLen = 2 := rfl
    rw [getU16_of_inBounds (by rw [hw] at hin ⊢; exact hin)]
    rfl
  · rfl

/-- Edge runs of an index that covers the table, whose records all name
    nodes. -/
theorem edgeRun_spec {idx recs : Bytes} {n : UInt32} {total : Nat} {e : Error} {u : Unit}
    (hidx : idx.isEmpty ∨ idx.length = (n.toNat + 1) * 4)
    (hrecs : recs.length = total * edgeLen)
    (hle : ¬idx.isEmpty → ∀ j, j ≤ n.toNat → (u32At idx (j * 4)).toNat ≤ total)
    (hends : checkEnds recs total n e = .ok u) {id : Nat} (hid : id < n.toNat) :
    ∃ es, runOf idx recs edgeLen edgeRec id = some es ∧ ∀ e ∈ es, e.node < n.toNat := by
  apply runOf_spec hidx hrecs hle ?_ hid
  intro i hi
  refine ⟨_, rfl, ?_⟩
  unfold checkEnds at hends
  rw [FaultLib.each_ok] at hends
  have hend := hends i (List.mem_range.mpr hi)
  rw [FaultLib.check_ok] at hend
  show (u32At (recordAt recs edgeLen i) 0).toNat < n.toNat
  rw [recordAt, u32At_range (by decide), Nat.add_zero]
  exact hend

theorem checkCsr_spec {idx : Bytes} {n total : Nat} {name : String} {u : Unit}
    (h : checkCsr idx n total name = .ok u) :
    (idx.isEmpty ∨ idx.length = (n + 1) * 4) ∧
      (¬idx.isEmpty → ∀ j, j ≤ n → (u32At idx (j * 4)).toNat ≤ total) := by
  unfold checkCsr at h
  split_ifs at h with habsent
  · exact ⟨.inl habsent.1, fun hne => absurd habsent.1 hne⟩
  · rw [FaultLib.check_bind_ok] at h
    exact ⟨.inr h.1, fun _ => checkCover_le h.2⟩

theorem attrRec_isSome {blobs r : Bytes} {u : Unit} (h : checkAttr blobs r = .ok u) :
    ∃ a, attrRec blobs r = some a ∧ True := by
  unfold checkAttr at h
  rw [FaultLib.check_ok] at h
  obtain ⟨t, ht⟩ := Option.isSome_iff_exists.mp (text_isSome h.1 h.2.1)
  exact ⟨_, by simp [attrRec, ht]; rfl, trivial⟩

/-- A base file that `check_counts` accepts has a sound reader. -/
theorem reader_sound {h : Header} {u : Unit} (hok : checkCounts s h = .ok u) :
    (reader s h).Sound := by
  unfold checkCounts expect at hok
  simp only [FaultLib.bind_ok, FaultLib.check_ok, FaultLib.onlyIf_ok, FaultLib.each_ok,
    List.mem_range] at hok
  obtain ⟨_, hnodes, _, hsegs, _, hedgesLen, _, -, _, hidx, _, hcheck, _, hlabels, _, hedges, _,
    hrev, -⟩ := hok
  refine ⟨?_, fun id hid => nodeRec_isSome hnodes hcheck hid, rankPermille_isSome, ?_, ?_,
    fun id hid => segRun_isSome hnodes hsegs hcheck hlabels hid, ?_⟩
  · intro k
    have hcount : (s .nodes).length / nodeLen = h.nodeCount.toNat := by
      rw [hnodes]
      exact Nat.mul_div_cancel _ (by decide)
    show ∃ o, findNode (s .nodes) k = some o ∧ _
    unfold findNode
    rw [hcount]
    exact findGo_spec hnodes k _ _ _ le_rfl
  all_goals
    intro id hid
    have hpos : 0 < h.nodeCount.toNat := Nat.lt_of_le_of_lt (Nat.zero_le id) hid
    obtain ⟨_, hidx, -⟩ := hidx hpos
    replace hedges := hedges hpos
    replace hrev := hrev hpos
    unfold checkEdges at hedges
    unfold checkReverse at hrev
    simp only [FaultLib.bind_ok, FaultLib.check_ok, FaultLib.each_ok, List.mem_range] at hedges hrev
  · obtain ⟨_, hcover, hends⟩ := hedges
    exact edgeRun_spec (.inr hidx) hedgesLen (fun _ => checkCover_le hcover) hends hid
  · obtain ⟨_, hlen, _, hcsr, _, hends, -⟩ := hrev
    exact edgeRun_spec (checkCsr_spec hcsr).1 hlen (checkCsr_spec hcsr).2 hends hid
  · obtain ⟨_, -, _, -, _, -, _, hmod, _, hcsr, hattrs⟩ := hrev
    have htable : (s .attrs).length = (s .attrs).length / attrLen * attrLen :=
      (Nat.div_mul_cancel (Nat.dvd_of_mod_eq_zero hmod)).symm
    obtain ⟨as, has, -⟩ := runOf_spec (checkCsr_spec hcsr).1 htable (checkCsr_spec hcsr).2
      (fun i hi => attrRec_isSome (hattrs i hi)) hid
    exact Option.isSome_iff_exists.mpr ⟨as, has⟩

end tables

end BaseFile

/-! ## Log images -/

/-- The trusted walk never looks past its end. -/
theorem nextTrusted_take {wal : Bytes} {stop : Nat} (hstop : stop ≤ wal.length) (pos : Nat) :
    nextTrusted (wal.take stop) pos stop = nextTrusted wal pos stop := by
  have hlen : (wal.take stop).length = stop := by rw [List.length_take, Nat.min_eq_left hstop]
  have hmin : minRecord = 48 := rfl
  unfold nextTrusted
  by_cases hshort : stop - min pos stop < minRecord
  · rw [if_pos hshort, if_pos hshort]
  · rw [if_neg hshort, if_neg hshort]
    have hu : u32At (wal.take stop) pos = u32At wal pos :=
      u32At_congr (range_take (by omega))
    simp only [hu, hlen]
    by_cases hin : minRecord ≤ (u32At wal pos).toNat ∧ pos + (u32At wal pos).toNat ≤ stop
    · rw [dif_pos ⟨hin.2, hin⟩, dif_pos ⟨hin.2.trans hstop, hin⟩]
      simp only [range_take hin.2]
    · rw [dif_neg fun h => hin h.2, dif_neg fun h => hin h.2]

/-- Cutting a log behind its committed records leaves these records. -/
theorem records_take {xxh3 : Bytes → UInt64} {wal : Bytes} {pos stop : Nat} {after : Option Nat}
    {rs : List Record} (h : Validated xxh3 wal pos after rs stop) (hpos : pos ≤ wal.length) :
    records (wal.take stop) pos (wal.take stop).length = rs := by
  have hstop := h.stop_le hpos
  have hlen : (wal.take stop).length = stop := by rw [List.length_take, Nat.min_eq_left hstop]
  have hgo : ∀ fuel pos, recordsGo (wal.take stop) stop fuel pos = recordsGo wal stop fuel pos := by
    intro fuel
    induction fuel with
    | zero =>
      intro pos
      rfl
    | succ fuel ih =>
      intro pos
      rw [recordsGo, recordsGo, nextTrusted_take hstop]
      cases nextTrusted wal pos stop with
      | none => rfl
      | some r => simp only [ih]
  rw [records, hlen, Nat.min_self, hgo, h.recordsGo_eq stop (by omega)]

/-! ## Accepted images -/

section image
variable {xxh3 : Bytes → UInt64} {base wal : Bytes} {b : Built}

/-- What an accepted pair of images went through. -/
theorem buildGeneration_spec (h : buildGeneration xxh3 base wal = .ok b) :
    BaseDir.parse xxh3 base = .ok b.dir ∧
      (b.ops = [] ∨ ∃ rs, Validated xxh3 wal Wal.headerLen none rs b.goodLen ∧
        b.ops = opsAbove b.dir.header.walAppliedSeq.toNat rs) := by
  unfold buildGeneration at h
  rw [FaultLib.bind_ok] at h
  obtain ⟨dir, hdir, h⟩ := h
  split_ifs at h with hempty
  · cases h
    exact ⟨hdir, .inl rfl⟩
  · rw [FaultLib.bind_ok] at h
    obtain ⟨generation, hgen, h⟩ := h
    split_ifs at h with hnewer hstale
    · cases h
      exact ⟨hdir, .inl rfl⟩
    · cases h
      exact ⟨hdir, .inl rfl⟩
    · simp only at h
      cases hcorrupt : (scan xxh3 wal Wal.headerLen none).corrupt with
      | some e => simp [hcorrupt] at h
      | none =>
        rw [hcorrupt] at h
        simp only at h
        split_ifs at h with hfull
        cases h
        obtain ⟨rs, hrs⟩ := validated_of_scan hcorrupt
        refine ⟨hdir, .inr ⟨rs, hrs, ?_⟩⟩
        rw [records_take hrs (headerLen_le_of_parseHeader hgen)]

theorem buildGeneration_of_openImage (h : openImage xxh3 base wal = .ok b) :
    buildGeneration xxh3 base wal = .ok b := by
  unfold openImage at h
  rw [FaultLib.bind_ok] at h
  obtain ⟨b', hb', h⟩ := h
  rw [FaultLib.check_bind_ok] at h
  cases h.2
  exact hb'

theorem checkCounts_of_parse {d : BaseDir} (h : BaseDir.parse xxh3 base = .ok d) :
    checkCounts (d.sec base) d.header = .ok () := by
  unfold BaseDir.parse at h
  simp only [FaultLib.bind_ok] at h
  obtain ⟨dir, -, _, hcounts, h⟩ := h
  cases h
  exact hcounts

/-- Every accessor of every op of an accepted log reads without a fault. -/
theorem openImage_ops (h : openImage xxh3 base wal = .ok b) : ∀ p ∈ b.ops, p.2.read.isSome := by
  rcases (buildGeneration_spec (buildGeneration_of_openImage h)).2 with hnone | ⟨rs, hrs, hops⟩
  · simp [hnone]
  · rw [hops]
    intro p hp
    obtain ⟨hp, -⟩ := List.mem_filter.mp hp
    obtain ⟨r, hr, hp⟩ := List.mem_flatMap.mp hp
    obtain ⟨q, hq, rfl⟩ := List.mem_map.mp hp
    exact hrs.reads r hr q hq

end image

/-- No read of the snapshot faults. -/
structure Snapshot.FaultFree (xxh3 : Bytes → UInt64) (s : Snapshot) : Prop where
  node : ∀ k, (s.node k).isSome
  forEachLive : s.forEachLive.isSome
  due : ∀ now max, (s.due now max).isSome
  neighbors : ∀ k, (s.neighbors k).isSome
  inEdges : ∀ k, (s.inEdges k).isSome
  segments : ∀ k, (s.segments xxh3 k).isSome
  attrs : ∀ k, (s.attrs k).isSome
  namedAttrs : ∀ k, (s.namedAttrs k).isSome
  walk : ∀ out inbound follow visit src maxDepth,
    (s.walkAlong out inbound follow visit src maxDepth).isSome

theorem Snapshot.faultFree_of_sound (xxh3 : Bytes → UInt64) {s : Snapshot} (hs : s.base.Sound) :
    s.FaultFree xxh3 :=
  ⟨node_isSome hs, forEachLive_isSome hs, due_isSome hs, neighbors_isSome hs, inEdges_isSome hs,
    segments_isSome hs xxh3, attrs_isSome hs, namedAttrs_isSome hs, walkAlong_isSome hs⟩

/-- Whatever a pair of images `open_image` accepts holds, every accessor of
    every op in the overlay and every read of the snapshot is free of
    faults. -/
theorem openImage_faultFree (xxh3 : Bytes → UInt64) (base wal : Bytes) (b : Built)
    (h : openImage xxh3 base wal = .ok b) :
    (∀ p ∈ b.ops, p.2.read.isSome) ∧
      ∃ ops, (b.ops.map Prod.snd).mapM OpView.read = some ops ∧
        (b.snapshot base ops).FaultFree xxh3 := by
  refine ⟨openImage_ops h, ?_⟩
  have hall : ((b.ops.map Prod.snd).mapM OpView.read).isSome := by
    apply FaultLib.mapM_isSome
    intro v hv
    obtain ⟨p, hp, rfl⟩ := List.mem_map.mp hv
    exact openImage_ops h p hp
  obtain ⟨ops, hops⟩ := Option.isSome_iff_exists.mp hall
  refine ⟨ops, hops, Snapshot.faultFree_of_sound xxh3 ?_⟩
  exact reader_sound (checkCounts_of_parse (buildGeneration_spec (buildGeneration_of_openImage h)).1)

/-- A base with one node, whose url is `a`, and no edge. -/
def oneNodeBase : Bytes :=
  let node := putU64 7 ++ (List.replicate 24 0 ++ (putU32 0 ++ (putU32 noLabel ++
    (putU32 noLabel ++ (putU32 noLabel ++ List.replicate 24 0)))))
  let header : Header := ⟨0, 1, 0, 0, 0, 1, 0, 0⟩
  ((((((Container.Writer.new BaseFile.format).withOwner header.owner).add 1 node).add 3
    (List.replicate 8 0)).add 5 [1, 0, 97]).add 8 (List.replicate 2 0)).finish fun _ => 0

/-- A log of that base's generation whose one record removes the node. -/
def removeLog : Bytes :=
  encodeHeader (fun _ => 0) 1 0 ++ (removeRecord 1 7 (by decide)).bytes fun _ => 0

theorem openImage_faultFree_oneNode :
    ∃ b, openImage (fun _ => 0) oneNodeBase removeLog = .ok b ∧ b.ops.length = 1 ∧
      ∃ ops, (b.ops.map Prod.snd).mapM OpView.read = some ops ∧
        (b.snapshot oneNodeBase ops).FaultFree fun _ => 0 := by
  have hok : (openImage (fun _ => 0) oneNodeBase removeLog).toOption.any
      (fun b => b.ops.length = 1) = true := by
    decide +kernel
  cases h : openImage (fun _ => 0) oneNodeBase removeLog with
  | error e => simp [h, Except.toOption] at hok
  | ok b =>
    refine ⟨b, rfl, ?_, (openImage_faultFree _ _ _ b h).2⟩
    simpa [h, Except.toOption] using hok

end GraphR
