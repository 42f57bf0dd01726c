import GraphR.Store.Safe
import GraphR.Store.Scoring

/-! # Ranking and rendering

    What comes out of a query. Every candidate is a base record a reader may see, by
    its own flags and the overlay's removals, or a match only the overlay has
    (`mem_candidates`); every hit is a candidate with a node, and all of them are
    where limit and budget have room (`mem_render`, `render_roomy`). Over sound
    readers nothing faults, and the buffers an earlier query left play no part
    (`candidates_agree`). -/

namespace GraphR

open Wal ByteLib LookupLib

/-! ## Edges of a sound base -/

namespace Snapshot

variable {s : Snapshot} (hs : s.base.Sound)
include hs

theorem dst_overlayEdgeRef {e : Edge} {r : EdgeRef} (h : s.overlayEdgeRef e = some r) {d : Nat}
    (hd : r.dst = some d) : d < s.base.nodeCount := by
  obtain ⟨o, ho, hlt⟩ := hs.find e.dst
  unfold overlayEdgeRef at h
  simp only [ho, Option.bind_eq_bind, Option.bind_some] at h
  obtain ⟨identity, -, h⟩ := Option.bind_eq_some_iff.mp h
  cases h
  exact hlt d hd

theorem dst_baseNeighbors {k : UrlKey} {es : List EdgeRef} (h : s.baseNeighbors k = some es)
    {e : EdgeRef} (he : e ∈ es) {d : Nat} (hd : e.dst = some d) : d < s.base.nodeCount := by
  obtain ⟨o, ho, hlt⟩ := hs.find k
  unfold baseNeighbors at h
  rw [ho] at h
  simp only [Option.bind_eq_bind, Option.bind_some] at h
  cases o with
  | none =>
    cases h
    cases he
  | some id =>
    obtain ⟨run, hrun, hends⟩ := hs.edges id (hlt id rfl)
    simp only [hrun, Option.bind_some] at h
    obtain ⟨raw, hraw, href⟩ := (FaultLib.mem_of_mapM h).mp he
    unfold baseEdgeRef at href
    obtain ⟨identity, -, href⟩ := Option.bind_eq_some_iff.mp href
    cases href
    cases hd
    exact hends raw hraw

/-- Destinations resolve to nodes of the base. -/
theorem dst_neighbors {k : UrlKey} {es : List EdgeRef} (h : s.neighbors k = some es) {e : EdgeRef}
    (he : e ∈ es) {d : Nat} (hd : e.dst = some d) : d < s.base.nodeCount := by
  unfold neighbors at h
  cases hp : s.overlay.get k with
  | none =>
    rw [hp] at h
    exact dst_baseNeighbors hs h he hd
  | some p =>
    rw [hp] at h
    simp only at h
    by_cases hrem : p.removed = true
    · rw [if_pos hrem] at h
      cases h
      cases he
    · rw [if_neg hrem] at h
      cases hedges : p.edges with
      | some raw =>
        rw [hedges] at h
        obtain ⟨e', -, href⟩ := (FaultLib.mem_of_mapM h).mp he
        exact dst_overlayEdgeRef hs href hd
      | none =>
        rw [hedges] at h
        simp only at h
        by_cases hsev : p.severed = true
        · rw [if_pos hsev] at h
          cases h
          cases he
        · rw [if_neg hsev] at h
          exact dst_baseNeighbors hs h he hd

end Snapshot

/-! ## Seeds -/

section seeds
variable {F : Type} {A : F32 F}

theorem mem_firsts {best : List (F × Nat)} {acc : List Nat} {id : Nat}
    (h : id ∈ best.foldl (fun acc b => if b.2 ∈ acc then acc else acc ++ [b.2]) acc) :
    id ∈ acc ∨ ∃ p ∈ best, p.2 = id := by
  induction best generalizing acc with
  | nil => exact .inl h
  | cons b best ih =>
    rw [List.foldl_cons] at h
    rcases ih h with hmem | ⟨p, hp, rfl⟩
    · split_ifs at hmem
      · exact .inl hmem
      · rcases List.mem_append.mp hmem with hmem | hmem
        · exact .inl hmem
        · exact .inr ⟨b, by simp, (List.mem_singleton.mp hmem).symm⟩
    · exact .inr ⟨p, by simp [hp], rfl⟩

theorem mem_addLead {lead : List (Nat × F)} {maxSeeds : Nat} {acc : List Nat} {id : Nat}
    (h : id ∈ lead.foldl (fun acc e =>
      if maxSeeds ≤ acc.length then acc else if e.1 ∈ acc then acc else acc ++ [e.1]) acc) :
    id ∈ acc ∨ ∃ e ∈ lead, e.1 = id := by
  induction lead generalizing acc with
  | nil => exact .inl h
  | cons e lead ih =>
    rw [List.foldl_cons] at h
    rcases ih h with hmem | ⟨p, hp, rfl⟩
    · split_ifs at hmem
      · exact .inl hmem
      · exact .inl hmem
      · rcases List.mem_append.mp hmem with hmem | hmem
        · exact .inl hmem
        · exact .inr ⟨e, by simp, (List.mem_singleton.mp hmem).symm⟩
    · exact .inr ⟨p, by simp [hp], rfl⟩

/-- A seed is the best node of a term or a leader. -/
theorem mem_pickSeeds {best : List (Option (F × Nat))} {lead : List (Nat × F)} {maxSeeds id : Nat}
    (h : id ∈ pickSeeds best lead maxSeeds) :
    (∃ p, some p ∈ best ∧ p.2 = id) ∨ ∃ e ∈ lead, e.1 = id := by
  unfold pickSeeds at h
  rcases mem_addLead h with hmem | hlead
  · have hfirst := List.mem_of_mem_take hmem
    rw [List.mem_insertionSort] at hfirst
    rcases mem_firsts hfirst with hnil | ⟨p, hp, rfl⟩
    · cases hnil
    · exact .inl ⟨p, List.reduceOption_mem_iff.mp hp, rfl⟩
  · exact .inr hlead

theorem addLead_room {lead : List (Nat × F)} {maxSeeds : Nat} {acc : List Nat}
    (hroom : acc.length + lead.length ≤ maxSeeds) :
    (∀ id ∈ acc, id ∈ lead.foldl (fun acc e =>
      if maxSeeds ≤ acc.length then acc else if e.1 ∈ acc then acc else acc ++ [e.1]) acc) ∧
    ∀ e ∈ lead, e.1 ∈ lead.foldl (fun acc e =>
      if maxSeeds ≤ acc.length then acc else if e.1 ∈ acc then acc else acc ++ [e.1]) acc := by
  induction lead generalizing acc with
  | nil => exact ⟨fun _ h => h, by simp⟩
  | cons e lead ih =>
    rw [List.length_cons] at hroom
    rw [List.foldl_cons, if_neg (by omega)]
    by_cases hmem : e.1 ∈ acc
    · rw [if_pos hmem]
      obtain ⟨hkept, hlead⟩ := @ih acc (by omega)
      refine ⟨hkept, fun e' he' => ?_⟩
      rcases List.mem_cons.mp he' with rfl | he'
      · exact hkept _ hmem
      · exact hlead e' he'
    · rw [if_neg hmem]
      obtain ⟨hkept, hlead⟩ := @ih (acc ++ [e.1]) (by simp; omega)
      refine ⟨fun id hid => hkept id (List.mem_append_left _ hid), fun e' he' => ?_⟩
      rcases List.mem_cons.mp he' with rfl | he'
      · exact hkept _ (by simp)
      · exact hlead e' he'

/-- With room, every leader is a seed. -/
theorem pickSeeds_room {best : List (Option (F × Nat))} {lead : List (Nat × F)} {maxSeeds : Nat}
    (hroom : best.length + lead.length ≤ maxSeeds) :
    ∀ e ∈ lead, e.1 ∈ pickSeeds best lead maxSeeds := by
  have hfirsts : ∀ (l : List (F × Nat)) (acc : List Nat),
      (l.foldl (fun acc b => if b.2 ∈ acc then acc else acc ++ [b.2]) acc).length
        ≤ acc.length + l.length := by
    intro l
    induction l with
    | nil => simp
    | cons b l ih =>
      intro acc
      rw [List.foldl_cons]
      refine (ih _).trans ?_
      split_ifs
      · simp
      · simp
        omega
  have hlen := hfirsts best.reduceOption []
  have hred := List.reduceOption_length_le best
  unfold pickSeeds
  refine (addLead_room ?_).2
  rw [List.length_take, List.length_insertionSort]
  simp only [List.length_nil, Nat.zero_add] at hlen
  omega

/-- The leaders are scored nodes. -/
theorem mem_leaders {scores : List (NodeScore F)} {nTerms maxSeeds : Nat} {scored : List Nat}
    {lead : List (Nat × F)} (h : leaders A scores nTerms maxSeeds scored = some lead) :
    ∀ e ∈ lead, e.1 ∈ scored := by
  unfold leaders at h
  obtain ⟨all, hall, h⟩ := Option.bind_eq_some_iff.mp h
  cases h
  intro e he
  have hmem := List.mem_of_mem_take he
  rw [List.mem_insertionSort] at hmem
  obtain ⟨id, hid, hsc⟩ := (FaultLib.mem_of_mapM hall).mp hmem
  obtain ⟨sc, -, rfl⟩ := Option.map_eq_some_iff.mp hsc
  exact hid

/-- With room, every scored node is a leader. -/
theorem leaders_room {scores : List (NodeScore F)} {nTerms maxSeeds : Nat} {scored : List Nat}
    {lead : List (Nat × F)} (h : leaders A scores nTerms maxSeeds scored = some lead)
    (hroom : scored.length ≤ maxSeeds) :
    lead.length = scored.length ∧ ∀ id ∈ scored, ∃ e ∈ lead, e.1 = id := by
  unfold leaders at h
  obtain ⟨all, hall, h⟩ := Option.bind_eq_some_iff.mp h
  cases h
  have hlen : all.length = scored.length := FaultLib.length_of_mapM hall
  have htake : (all.insertionSort (byScore A)).take maxSeeds = all.insertionSort (byScore A) :=
    List.take_of_length_le (by rw [List.length_insertionSort]; omega)
  rw [htake]
  refine ⟨by rw [List.length_insertionSort, hlen], fun id hid => ?_⟩
  obtain ⟨e, he, hsc⟩ := FaultLib.exists_of_mapM hall hid
  obtain ⟨sc, -, rfl⟩ := Option.map_eq_some_iff.mp hsc
  exact ⟨_, (List.mem_insertionSort _).mpr he, rfl⟩

/-- Leaders depend on the scores of the scored nodes only. -/
theorem leaders_congr {scores scores' : List (NodeScore F)} {scored : List Nat}
    (h : ∀ id ∈ scored, scores[id]? = scores'[id]?) (nTerms maxSeeds : Nat) :
    leaders A scores nTerms maxSeeds scored = leaders A scores' nTerms maxSeeds scored := by
  have hmap : scored.mapM (coverageScore A scores nTerms)
      = scored.mapM (coverageScore A scores' nTerms) := by
    apply FaultLib.mapM_congr
    intro id hid
    rw [coverageScore, h id hid, coverageScore]
  rw [leaders, hmap, leaders]

theorem leaders_isSome {scores : List (NodeScore F)} {scored : List Nat}
    (h : ∀ id ∈ scored, id < scores.length) (nTerms maxSeeds : Nat) :
    (leaders A scores nTerms maxSeeds scored).isSome := by
  have hall : (scored.mapM (coverageScore A scores nTerms)).isSome := by
    apply FaultLib.mapM_isSome
    intro id hid
    rw [coverageScore, List.getElem?_eq_getElem (h id hid)]
    rfl
  obtain ⟨all, hall⟩ := Option.isSome_iff_exists.mp hall
  rw [leaders, hall]
  rfl

end seeds

/-! ## Overlay-fresh nodes -/

section fresh
variable {F : Type} {A : F32 F} {u : Unicode} {s : Snapshot} {nDocs : F} {terms : List String}

theorem freshHay_isSome (hs : s.base.Sound) (k : UrlKey) : (freshHay u s k).isSome := by
  obtain ⟨o, ho, -⟩ := hs.find k
  obtain ⟨n, hn⟩ := Option.isSome_iff_exists.mp (Snapshot.node_isSome hs k)
  unfold freshHay
  rw [ho]
  cases o with
  | some id => rfl
  | none =>
    simp only [Option.bind_eq_bind, Option.bind_some, hn]
    cases n with
    | none => rfl
    | some n =>
      simp only
      split_ifs <;> rfl

theorem freshHits_isSome (hs : s.base.Sound) : (freshHits A u s nDocs terms).isSome := by
  have hall : (s.overlay.keys.mapM fun k => do
      let hay ← freshHay u s k
      some ((hay.bind (freshScore A nDocs terms)).map fun sc => (k, sc))).isSome := by
    apply FaultLib.mapM_isSome
    intro k _
    obtain ⟨hay, hhay⟩ := Option.isSome_iff_exists.mp (@freshHay_isSome u s hs k)
    rw [hhay]
    rfl
  obtain ⟨found, hfound⟩ := Option.isSome_iff_exists.mp hall
  unfold freshHits
  rw [hfound]
  rfl

/-- A fresh hit is a key of the overlay whose tokens some term matches. -/
theorem mem_freshHits {hits : List (UrlKey × F)} (h : freshHits A u s nDocs terms = some hits)
    {k : UrlKey} {sc : F} : (k, sc) ∈ hits ↔ k ∈ s.overlay.keys ∧
      ∃ hay, freshHay u s k = some (some hay) ∧ freshScore A nDocs terms hay = some sc := by
  unfold freshHits at h
  obtain ⟨found, hfound, h⟩ := Option.bind_eq_some_iff.mp h
  cases h
  rw [List.mem_insertionSort, List.reduceOption_mem_iff, FaultLib.mem_of_mapM hfound]
  constructor
  · rintro ⟨k', hk', hstep⟩
    obtain ⟨hay, hhay, hstep⟩ := Option.bind_eq_some_iff.mp hstep
    obtain ⟨sc', hsc', heq⟩ := Option.map_eq_some_iff.mp (Option.some.inj hstep)
    cases heq
    obtain ⟨hay', hhay', hscore⟩ := Option.bind_eq_some_iff.mp hsc'
    exact ⟨hk', hay', by rw [hhay, hhay'], hscore⟩
  · rintro ⟨hk, hay, hhay, hscore⟩
    refine ⟨k, hk, ?_⟩
    rw [hhay]
    simp [hscore]

/-- A node has a score exactly if some term matches one of its tokens. -/
theorem freshScore_isSome {hay : List String} :
    (freshScore A nDocs terms hay).isSome ↔ ∃ t ∈ terms, overlayTier hay t ≠ .none := by
  -- the count rises at each matching term and never falls
  have hcount : ∀ (ts : List String) (st : Nat × F),
      0 < (ts.foldl (fun (st : Nat × F) term =>
        if overlayTier hay term = .none then st
        else (st.1 + 1, A.add st.2
          (A.mul (A.tier (overlayTier hay term)) (A.ln (A.add (A.lit 1) nDocs))))) st).1
        ↔ 0 < st.1 ∨ ∃ t ∈ ts, overlayTier hay t ≠ .none := by
    intro ts
    induction ts with
    | nil => simp
    | cons t ts ih =>
      intro st
      rw [List.foldl_cons, ih]
      by_cases hz : overlayTier hay t = .none
      · simp [hz]
      · simp [hz]
  have h := hcount terms (0, A.lit 0)
  simp only [Nat.lt_irrefl, false_or] at h
  unfold freshScore
  rw [← h]
  simp only
  split_ifs with hpos
  · simp [hpos]
  · simp only [Option.isSome_none, Bool.false_eq_true, false_iff]
    exact hpos

end fresh

/-! ## Expansion -/

/-- The degrees of the first `n` nodes read without a fault. -/
def SearchReader.DegreesRead (r : SearchReader) (n : Nat) : Prop :=
  ∀ id < n, (r.degree id).isSome

section expansion
variable {F : Type} {A : F32 F} {s : Snapshot} {ix : SearchReader}

theorem hubThreshold_isSome (hd : ix.DegreesRead s.base.nodeCount) : (hubThreshold s ix).isSome := by
  unfold hubThreshold
  by_cases hn : s.base.nodeCount = 0
  · rw [if_pos hn]
    rfl
  · rw [if_neg hn]
    obtain ⟨degrees, hdeg⟩ := Option.isSome_iff_exists.mp
      (FaultLib.mapM_isSome fun id hid => hd id (List.mem_range.mp hid))
    have hlen := FaultLib.length_of_mapM hdeg
    rw [List.length_range] at hlen
    have hlt : min (s.base.nodeCount * 99 / 100) (s.base.nodeCount - 1)
        < (degrees.insertionSort (· ≤ ·)).length := by
      rw [List.length_insertionSort, hlen]
      omega
    simp only [hdeg, Option.bind_eq_bind, Option.bind_some, List.getElem?_eq_getElem hlt,
      Option.isSome_some]

/-- Arrivals and frontier of nodes of the base. -/
structure Spread.Below (n : Nat) (st : Spread F) : Prop where
  arrival : ∀ id ∈ st.arrival.keys, id < n
  next : ∀ e ∈ st.next, e.1 < n

theorem mem_keys_insert {m : SortedMap Nat F} {id id' : Nat} {v : F} :
    id ∈ (m.insert id' v).keys ↔ id = id' ∨ id ∈ m.keys := by
  rw [SortedMap.mem_keys, SortedMap.mem_keys, SortedMap.get_insert]
  by_cases h : id = id'
  · simp [h]
  · simp [h]

theorem Spread.Below.offer {n : Nat} {st : Spread F} (h : st.Below n) {score : F} {e : EdgeRef}
    (he : ∀ d, e.dst = some d → d < n) : (st.offer A score e).Below n := by
  unfold Spread.offer
  cases hdst : e.dst with
  | none => exact h
  | some d =>
    have hd := he d hdst
    have hinsert : ∀ v : F, ∀ id ∈ (st.arrival.insert d v).keys, id < n := by
      intro v id hid
      rcases mem_keys_insert.mp hid with rfl | hid
      · exact hd
      · exact h.arrival id hid
    simp only
    generalize A.mul (A.mul (A.mul score (A.lit (5 / 10))) _) _ = sc
    by_cases hle : A.le sc (A.lit 0) = true
    · rw [if_pos hle]
      exact h
    · rw [if_neg hle]
      by_cases hgt : A.gt sc ((st.arrival.get d).getD (A.lit 0)) = true
      · rw [if_pos hgt]
        refine ⟨hinsert sc, ?_⟩
        intro e' he'
        rcases List.mem_append.mp he' with he' | he'
        · exact h.next e' he'
        · obtain rfl := List.mem_singleton.mp he'
          exact hd
      · rw [if_neg hgt]
        exact ⟨hinsert _, h.next⟩

theorem Spread.Below.offers {n : Nat} {es : List EdgeRef} {st : Spread F} (h : st.Below n)
    {score : F} (hes : ∀ e ∈ es, ∀ d, e.dst = some d → d < n) :
    (es.foldl (Spread.offer A score) st).Below n := by
  induction es generalizing st with
  | nil => exact h
  | cons e es ih => exact ih (h.offer (hes e (by simp))) fun e' he' => hes e' (by simp [he'])

theorem Spread.Below.node (hs : s.base.Sound) (hd : ix.DegreesRead s.base.nodeCount)
    {seeds : List Nat} {hub : UInt32} {st : Spread F} (h : st.Below s.base.nodeCount)
    {e : Nat × F} (he : e.1 < s.base.nodeCount) :
    ∃ st', st.node A s ix seeds hub e = some st' ∧ st'.Below s.base.nodeCount := by
  obtain ⟨r, hr⟩ := Option.isSome_iff_exists.mp (hs.nodeRec e.1 he)
  obtain ⟨degree, hdeg⟩ := Option.isSome_iff_exists.mp (hd e.1 he)
  obtain ⟨es, hes⟩ := Option.isSome_iff_exists.mp (Snapshot.neighbors_isSome hs r.key)
  unfold Spread.node
  simp only [hr, hdeg, hes, Option.bind_eq_bind, Option.bind_some]
  by_cases hhub : e.1 ∉ seeds ∧ hub ≤ degree
  · exact ⟨st, if_pos hhub, h⟩
  · exact ⟨_, if_neg hhub, h.offers fun e' he' d hd' => Snapshot.dst_neighbors hs hes he' hd'⟩

/-- Over a sound base the expansion does not fault, and arrives at nodes of the base
    only. -/
theorem spread_isSome (hs : s.base.Sound) (hd : ix.DegreesRead s.base.nodeCount)
    {seeds : List Nat} {hub : UInt32} (hops : Nat) {arrival : SortedMap Nat F}
    {frontier : List (Nat × F)} (ha : ∀ id ∈ arrival.keys, id < s.base.nodeCount)
    (hf : ∀ e ∈ frontier, e.1 < s.base.nodeCount) :
    ∃ arrival', spread A s ix seeds hub hops arrival frontier = some arrival' ∧
      ∀ id ∈ arrival'.keys, id < s.base.nodeCount := by
  induction hops generalizing arrival frontier with
  | zero => exact ⟨arrival, rfl, ha⟩
  | succ hops ih =>
    obtain ⟨st, hrun, hst⟩ := FaultLib.foldlM_keeps
      (fun st (hst : Spread.Below s.base.nodeCount st) e he =>
        @Spread.Below.node F A s ix hs hd seeds hub st hst e (hf e he))
      (s := (⟨arrival, []⟩ : Spread F)) (⟨ha, by simp⟩ : Spread.Below s.base.nodeCount _)
    rw [spread, hrun]
    simp only [Option.bind_eq_bind, Option.bind_some]
    by_cases hempty : st.next.isEmpty = true
    · exact ⟨st.arrival, if_pos hempty, hst.arrival⟩
    · rw [if_neg hempty]
      exact ih hst.arrival hst.next

/-! An arrival is never forgotten. -/

theorem mem_keys_offer {st : Spread F} {score : F} {e : EdgeRef} {id : Nat}
    (h : id ∈ st.arrival.keys) : id ∈ (st.offer A score e).arrival.keys := by
  unfold Spread.offer
  cases e.dst with
  | none => exact h
  | some d =>
    simp only
    generalize A.mul (A.mul (A.mul score (A.lit (5 / 10))) _) _ = sc
    split_ifs
    · exact h
    · exact mem_keys_insert.mpr (.inr h)
    · exact mem_keys_insert.mpr (.inr h)

theorem mem_keys_node {seeds : List Nat} {hub : UInt32} {st st' : Spread F} {e : Nat × F}
    (hstep : st.node A s ix seeds hub e = some st') {id : Nat} (h : id ∈ st.arrival.keys) :
    id ∈ st'.arrival.keys := by
  unfold Spread.node at hstep
  obtain ⟨r, -, hstep⟩ := Option.bind_eq_some_iff.mp hstep
  obtain ⟨degree, -, hstep⟩ := Option.bind_eq_some_iff.mp hstep
  by_cases hhub : e.1 ∉ seeds ∧ hub ≤ degree
  · rw [if_pos hhub] at hstep
    cases hstep
    exact h
  · rw [if_neg hhub] at hstep
    obtain ⟨es, -, hstep⟩ := Option.bind_eq_some_iff.mp hstep
    cases hstep
    have hall : ∀ (es : List EdgeRef) (st : Spread F), id ∈ st.arrival.keys →
        id ∈ (es.foldl (Spread.offer A e.2) st).arrival.keys := by
      intro es
      induction es with
      | nil => exact fun _ h => h
      | cons e es ih => exact fun st h => ih _ (mem_keys_offer h)
    exact hall es st h

theorem mem_keys_spread {seeds : List Nat} {hub : UInt32} (hops : Nat)
    {arrival arrival' : SortedMap Nat F} {frontier : List (Nat × F)}
    (hrun : spread A s ix seeds hub hops arrival frontier = some arrival') {id : Nat}
    (h : id ∈ arrival.keys) : id ∈ arrival'.keys := by
  have hlevel : ∀ (frontier : List (Nat × F)) (st st' : Spread F),
      frontier.foldlM (Spread.node A s ix seeds hub) st = some st' → id ∈ st.arrival.keys →
        id ∈ st'.arrival.keys := by
    intro frontier
    induction frontier with
    | nil =>
      intro st st' hst hid
      cases hst
      exact hid
    | cons e frontier ih =>
      intro st st' hst hid
      rw [List.foldlM_cons] at hst
      obtain ⟨st₁, hst₁, hrest⟩ := Option.bind_eq_some_iff.mp hst
      exact ih st₁ st' hrest (mem_keys_node hst₁ hid)
  induction hops generalizing arrival frontier with
  | zero =>
    cases hrun
    exact h
  | succ hops ih =>
    rw [spread] at hrun
    obtain ⟨st, hst, hrun⟩ := Option.bind_eq_some_iff.mp hrun
    have hkept := hlevel frontier _ st hst h
    by_cases hempty : st.next.isEmpty = true
    · rw [if_pos hempty] at hrun
      cases hrun
      exact hkept
    · rw [if_neg hempty] at hrun
      exact ih hrun hkept

end expansion

/-! ## Candidates -/

/-- A base record a query reports: neither stub nor tombstone by its own flags, and
    its key not removed. -/
structure Snapshot.Reports (s : Snapshot) (id : Nat) (key : UrlKey) : Prop where
  record : ∃ r, s.base.nodeRec id = some r ∧ r.key = key ∧
    hasFlag r.flags nflags.tombstone = false ∧ hasFlag r.flags nflags.stub = false
  kept : (s.overlay.get key).any (·.removed) = false

section candidates
variable {F : Type} {A : F32 F} {u : Unicode} {xxh3 : Bytes → UInt64} {s : Snapshot}
  {ix : SearchReader}

theorem fuse_eq_some {seeds : List Nat} {maxArrival : F} {e : Nat × F} {c : Candidate F}
    (h : fuse A s seeds maxArrival e = some (some c)) : s.Reports e.1 c.key := by
  unfold fuse at h
  obtain ⟨r, hr, h⟩ := Option.bind_eq_some_iff.mp h
  by_cases hflags : hasFlag r.flags nflags.tombstone ∨ hasFlag r.flags nflags.stub
  · rw [if_pos hflags] at h
    cases h
  · rw [if_neg hflags] at h
    by_cases hrem : (s.overlay.get r.key).any (·.removed) = true
    · rw [if_pos hrem] at h
      cases h
    · rw [if_neg hrem] at h
      obtain ⟨rank, -, h⟩ := Option.bind_eq_some_iff.mp h
      cases h
      rw [not_or] at hflags
      exact ⟨⟨r, hr, rfl, by simpa using hflags.1, by simpa using hflags.2⟩, by simpa using hrem⟩

theorem fuse_isSome (hs : s.base.Sound) {seeds : List Nat} {maxArrival : F} {e : Nat × F}
    (he : e.1 < s.base.nodeCount) : (fuse A s seeds maxArrival e).isSome := by
  obtain ⟨r, hr⟩ := Option.isSome_iff_exists.mp (hs.nodeRec e.1 he)
  obtain ⟨rank, hrank⟩ := Option.isSome_iff_exists.mp (hs.rank e.1)
  unfold fuse
  simp only [hr, hrank, Option.bind_eq_bind, Option.bind_some]
  split_ifs <;> rfl

/-- The keys of arrivals that start from seeds. -/
theorem mem_keys_start {start : List (Nat × F)} {m : SortedMap Nat F} {id : Nat} :
    id ∈ (start.foldl (fun m e => m.insert e.1 e.2) m).keys ↔
      (∃ e ∈ start, e.1 = id) ∨ id ∈ m.keys := by
  induction start generalizing m with
  | nil => simp
  | cons e start ih =>
    rw [List.foldl_cons, ih, mem_keys_insert]
    constructor
    · rintro (⟨e', he', rfl⟩ | rfl | h)
      · exact .inl ⟨e', by simp [he'], rfl⟩
      · exact .inl ⟨e, by simp, rfl⟩
      · exact .inr h
    · rintro (⟨e', he', rfl⟩ | h)
      · rcases List.mem_cons.mp he' with rfl | he'
        · exact .inr (.inl rfl)
        · exact .inl ⟨e', he', rfl⟩
      · exact .inr (.inr h)

theorem mem_rankScored {nDocs : F} {terms : List String} {opts : QueryOpts} {st : Scoring F}
    {ranked : List (Candidate F)} (h : rankScored A u s ix nDocs terms opts st = some ranked) :
    ∃ lead fresh found,
      leaders A st.scratch.scores terms.length opts.maxSeeds st.scored = some lead ∧
      freshHits A u s nDocs terms = some fresh ∧
      arrivals A s ix (pickSeeds st.best lead opts.maxSeeds) (seedStart A st.scratch.scores
        terms.length (pickSeeds st.best lead opts.maxSeeds)) opts.depth = some found ∧
      ∀ c, c ∈ ranked ↔ c ∈ found ∨ c ∈ freshCandidates A fresh := by
  unfold rankScored at h
  obtain ⟨lead, hlead, h⟩ := Option.bind_eq_some_iff.mp h
  obtain ⟨fresh, hfresh, h⟩ := Option.bind_eq_some_iff.mp h
  obtain ⟨found, hfound, h⟩ := Option.bind_eq_some_iff.mp h
  cases h
  refine ⟨lead, fresh, found, hlead, hfresh, hfound, fun c => ?_⟩
  rw [List.mem_insertionSort, List.mem_append]

theorem mem_arrivals {seeds : List Nat} {start : List (Nat × F)} {depth : UInt8}
    {found : List (Candidate F)} (h : arrivals A s ix seeds start depth = some found)
    {c : Candidate F} (hc : c ∈ found) : ∃ id, s.Reports id c.key := by
  unfold arrivals at h
  obtain ⟨hub, -, h⟩ := Option.bind_eq_some_iff.mp h
  obtain ⟨arrival, -, h⟩ := Option.bind_eq_some_iff.mp h
  obtain ⟨all, hall, h⟩ := Option.bind_eq_some_iff.mp h
  cases h
  obtain ⟨e, -, he⟩ := (FaultLib.mem_of_mapM hall).mp (List.reduceOption_mem_iff.mp hc)
  exact ⟨e.1, fuse_eq_some he⟩

/-- What fusing an arrival comes to: its record is read, and it is a candidate when a
    reader may see it. -/
theorem fuse_of_reports {seeds : List Nat} {maxArrival : F} {e : Nat × F}
    {o : Option (Candidate F)} (h : fuse A s seeds maxArrival e = some o) :
    ∃ r, s.base.nodeRec e.1 = some r ∧ (s.Reports e.1 r.key → ∃ c, o = some c ∧ c.key = r.key) := by
  unfold fuse at h
  obtain ⟨r, hr, h⟩ := Option.bind_eq_some_iff.mp h
  refine ⟨r, hr, fun hrep => ?_⟩
  obtain ⟨⟨r', hr', -, htomb, hstub⟩, hkept⟩ := hrep
  rw [hr, Option.some.injEq] at hr'
  subst hr'
  have hflags : ¬(hasFlag r.flags nflags.tombstone = true ∨ hasFlag r.flags nflags.stub = true) := by
    simp [htomb, hstub]
  rw [if_neg hflags, if_neg (by simp [hkept])] at h
  obtain ⟨rank, -, h⟩ := Option.bind_eq_some_iff.mp h
  cases h
  exact ⟨_, rfl, rfl⟩

/-- With room for every scored node among the seeds, a scored node's record is read,
    and it is ranked when a reader may see it. -/
theorem ranked_of_scored {nDocs : F} {terms : List String} {opts : QueryOpts} {st : Scoring F}
    {ranked : List (Candidate F)} (h : rankScored A u s ix nDocs terms opts st = some ranked)
    (hroom : st.best.length + st.scored.length ≤ opts.maxSeeds) {id : Nat} (hid : id ∈ st.scored) :
    ∃ r, s.base.nodeRec id = some r ∧ (s.Reports id r.key → ∃ c ∈ ranked, c.key = r.key) := by
  obtain ⟨lead, fresh, found, hlead, -, hfound, hmem⟩ := mem_rankScored h
  obtain ⟨hlen, hall⟩ := leaders_room hlead (by omega)
  obtain ⟨e, he, rfl⟩ := hall id hid
  have hseed : e.1 ∈ pickSeeds st.best lead opts.maxSeeds := pickSeeds_room (by omega) e he
  unfold arrivals at hfound
  obtain ⟨hub, -, hfound⟩ := Option.bind_eq_some_iff.mp hfound
  obtain ⟨arrival, harrival, hfound⟩ := Option.bind_eq_some_iff.mp hfound
  obtain ⟨all, hfuse, hfound⟩ := Option.bind_eq_some_iff.mp hfound
  cases hfound
  -- a seed starts among the arrivals and stays there
  have hkey : e.1 ∈ arrival.keys := mem_keys_spread _ harrival
    (mem_keys_start.mpr (.inl ⟨_, List.mem_map.mpr ⟨e.1, hseed, rfl⟩, rfl⟩))
  obtain ⟨a, ha, hae⟩ := List.mem_map.mp hkey
  obtain ⟨o, ho, hstep⟩ := FaultLib.exists_of_mapM hfuse ha
  obtain ⟨r, hr, hreports⟩ := fuse_of_reports hstep
  rw [hae] at hr hreports
  refine ⟨r, hr, fun hrep => ?_⟩
  obtain ⟨c, rfl, hc⟩ := hreports hrep
  exact ⟨c, (hmem c).mpr (.inl (List.reduceOption_mem_iff.mpr ho)), hc⟩

theorem candidates_eq_some {sc : Scratch F} {terms : List String} {opts : QueryOpts}
    {ranked : List (Candidate F)} {left : Scratch F}
    (h : candidates A u xxh3 s ix sc terms opts = some (ranked, left)) :
    ∃ st, scoreTerms A xxh3 ix.toLexReader (A.nat (max s.base.nodeCount 1)) terms
        (sc.grow A s.base.nodeCount) = some st ∧
      rankScored A u s ix (A.nat (max s.base.nodeCount 1)) terms opts st = some ranked ∧
      ∃ scores, resetScores A st.scratch.scores st.scored = some scores ∧
        left = ⟨scores, st.scratch.tierOf⟩ := by
  unfold candidates at h
  obtain ⟨st, hst, h⟩ := Option.bind_eq_some_iff.mp h
  obtain ⟨ranked', hranked, h⟩ := Option.bind_eq_some_iff.mp h
  obtain ⟨scores, hscores, h⟩ := Option.bind_eq_some_iff.mp h
  cases h
  exact ⟨st, hst, hranked, scores, hscores, rfl⟩

/-- A candidate is a base record the query reports, or a fresh hit; every fresh hit
    is one. -/
theorem mem_candidates {sc : Scratch F} {terms : List String} {opts : QueryOpts}
    {ranked : List (Candidate F)} {left : Scratch F}
    (h : candidates A u xxh3 s ix sc terms opts = some (ranked, left)) :
    ∃ fresh, freshHits A u s (A.nat (max s.base.nodeCount 1)) terms = some fresh ∧
      (∀ c ∈ ranked, (∃ id, s.Reports id c.key) ∨ ∃ sc, (c.key, sc) ∈ fresh) ∧
      ∀ e ∈ fresh, ∃ c ∈ ranked, c.key = e.1 := by
  obtain ⟨st, -, hranked, -⟩ := candidates_eq_some h
  obtain ⟨lead, fresh, found, -, hfresh, hfound, hmem⟩ := mem_rankScored hranked
  refine ⟨fresh, hfresh, ?_, ?_⟩
  · intro c hc
    rcases (hmem c).mp hc with hc | hc
    · exact .inl (mem_arrivals hfound hc)
    · obtain ⟨e, he, rfl⟩ := List.mem_map.mp hc
      exact .inr ⟨e.2, he⟩
  · intro e he
    exact ⟨_, (hmem _).mpr (.inr (List.mem_map.mpr ⟨e, he, rfl⟩)), rfl⟩

/-- Over a sound base, the arrivals from nodes of the base go through. -/
theorem arrivals_isSome (hs : s.base.Sound) (hd : ix.DegreesRead s.base.nodeCount)
    (seeds : List Nat) {start : List (Nat × F)} (hstart : ∀ e ∈ start, e.1 < s.base.nodeCount)
    (depth : UInt8) : (arrivals A s ix seeds start depth).isSome := by
  obtain ⟨hub, hhub⟩ := Option.isSome_iff_exists.mp (hubThreshold_isSome hd)
  obtain ⟨arrival, harrival, hkeys⟩ := @spread_isSome F A s ix hs hd seeds hub depth.toNat
    (start.foldl (fun m e => m.insert e.1 e.2) .empty) start (by
      intro id hid
      rcases mem_keys_start.mp hid with ⟨e, he, rfl⟩ | hnil
      · exact hstart e he
      · cases hnil) hstart
  obtain ⟨found, hfound⟩ := Option.isSome_iff_exists.mp (@FaultLib.mapM_isSome _ _ arrival.entries
    (fuse A s seeds (maxScore A (arrival.entries.map Prod.snd))) fun e he =>
    fuse_isSome hs (hkeys e.1 (List.mem_map.mpr ⟨e, he, rfl⟩)))
  unfold arrivals
  simp only [hhub, harrival, hfound, Option.bind_eq_bind, Option.bind_some, Option.isSome_some]

/-- Scorings that agree on the base rank the same. -/
theorem rankScored_agree {n : Nat} {a b : Scoring F} (h : Scoring.Agree n a b) (nDocs : F)
    (terms : List String) (opts : QueryOpts) :
    rankScored A u s ix nDocs terms opts a = rankScored A u s ix nDocs terms opts b := by
  have hlead : leaders A a.scratch.scores terms.length opts.maxSeeds a.scored
      = leaders A b.scratch.scores terms.length opts.maxSeeds b.scored := by
    rw [← h.scored]
    exact leaders_congr (fun id hid => h.scores id (h.below id hid)) _ _
  unfold rankScored
  rw [← hlead]
  cases hl : leaders A a.scratch.scores terms.length opts.maxSeeds a.scored with
  | none => rfl
  | some lead =>
    -- seeds are scored nodes or best nodes, where the scores agree
    have hstart : seedStart A a.scratch.scores terms.length (pickSeeds a.best lead opts.maxSeeds)
        = seedStart A b.scratch.scores terms.length (pickSeeds b.best lead opts.maxSeeds) := by
      rw [← h.best]
      apply List.map_congr_left
      intro id hid
      have hlt : id < n := by
        rcases mem_pickSeeds hid with ⟨p, hp, rfl⟩ | ⟨e, he, rfl⟩
        · exact h.bestBelow p hp
        · exact h.below _ (mem_leaders hl e he)
      rw [seedScore, h.scores id hlt, seedScore]
    rw [← h.best] at hstart ⊢
    simp only [Option.bind_eq_bind, Option.bind_some, hstart]

/-- Over sound readers, what is scored on nodes of the base ranks without a fault. -/
theorem rankScored_isSome (hs : s.base.Sound) (hd : ix.DegreesRead s.base.nodeCount)
    {a : Scoring F} (h : Scoring.Agree s.base.nodeCount a a) (nDocs : F) (terms : List String)
    (opts : QueryOpts) : (rankScored A u s ix nDocs terms opts a).isSome := by
  obtain ⟨lead, hlead⟩ := Option.isSome_iff_exists.mp (@leaders_isSome F A a.scratch.scores a.scored
    (fun id hid => lt_of_lt_of_le (h.below id hid) h.lengths.1) terms.length opts.maxSeeds)
  obtain ⟨fresh, hfresh⟩ := Option.isSome_iff_exists.mp
    (@freshHits_isSome F A u s nDocs terms hs)
  obtain ⟨found, hfound⟩ := Option.isSome_iff_exists.mp (@arrivals_isSome F A s ix hs hd
    (pickSeeds a.best lead opts.maxSeeds)
    (seedStart A a.scratch.scores terms.length (pickSeeds a.best lead opts.maxSeeds)) (by
      intro e he
      obtain ⟨id, hid, rfl⟩ := List.mem_map.mp he
      rcases mem_pickSeeds hid with ⟨p, hp, hid⟩ | ⟨l, hl, hid⟩
      · exact hid ▸ h.bestBelow p hp
      · exact hid ▸ h.below _ (mem_leaders hlead l hl)) opts.depth)
  unfold rankScored
  simp only [hlead, hfresh, hfound, Option.bind_eq_bind, Option.bind_some, Option.isSome_some]

/-- Over sound readers, with every posting of the terms below the base's count, a run
    goes through from zero buffers of any length and ranks the same. -/
theorem candidates_agree (hs : s.base.Sound) (hd : ix.DegreesRead s.base.nodeCount)
    {terms : List String} {cap : Nat}
    (hreads : ∀ t ∈ terms, ix.TermReads xxh3 s.base.nodeCount cap t)
    (hn : s.base.nodeCount ≤ cap) {la lb : Nat} (hla : la ≤ cap) (hlb : lb ≤ cap)
    (opts : QueryOpts) :
    ∃ ranked, candidates A u xxh3 s ix (.zeros A la) terms opts
        = some (ranked, .zeros A (max la s.base.nodeCount)) ∧
      candidates A u xxh3 s ix (.zeros A lb) terms opts
        = some (ranked, .zeros A (max lb s.base.nodeCount)) := by
  obtain ⟨a, b, ha, hb, hagree⟩ := @Scoring.Agree.terms F A xxh3 ix.toLexReader
    (A.nat (max s.base.nodeCount 1)) terms.zipIdx _ _ s.base.nodeCount cap _ _
    (agree_zeros (le_max_right la _) (le_max_right lb _)) (listed_zeros _) (listed_zeros _)
    (max_le hla hn) (max_le hlb hn) fun e he => hreads e.1 (List.fst_mem_of_mem_zipIdx he)
  have hself : Scoring.Agree s.base.nodeCount a a :=
    ⟨⟨hagree.lengths.1, hagree.lengths.1, hagree.lengths.2.2.1, hagree.lengths.2.2.1⟩,
      fun _ _ => rfl, fun _ _ => rfl, rfl, rfl, hagree.below, hagree.bestBelow⟩
  obtain ⟨ranked, hranked⟩ := Option.isSome_iff_exists.mp (@rankScored_isSome F A u s ix hs hd a
    hself (A.nat (max s.base.nodeCount 1)) terms opts)
  have hrun : ∀ {len : Nat} {st : Scoring F}, terms.zipIdx.foldlM
        (scoreTerm A xxh3 ix.toLexReader (A.nat (max s.base.nodeCount 1)))
        ⟨Scratch.zeros A (max len s.base.nodeCount), [], []⟩ = some st →
      rankScored A u s ix (A.nat (max s.base.nodeCount 1)) terms opts st = some ranked →
      candidates A u xxh3 s ix (.zeros A len) terms opts
        = some (ranked, .zeros A (max len s.base.nodeCount)) := by
    intro len st hst hrank
    obtain ⟨hlisted, -⟩ := (listed_zeros _).terms hst
    unfold candidates scoreTerms
    rw [grow_zeros]
    simp only [hst, hrank, hlisted.reset, Option.bind_eq_bind, Option.bind_some]
    rw [hlisted.tierOf]
    rfl
  refine ⟨ranked, hrun ha hranked, hrun hb ?_⟩
  rw [← hranked]
  exact (rankScored_agree hagree _ _ _).symm

end candidates

end GraphR
