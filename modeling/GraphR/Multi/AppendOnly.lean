import GraphR.Multi.Arena

/-! # The arena only grows

    Each publication counts right, appends its ops to the list the arena stands
    for, and keeps what is below every frontier a reader may have captured; so
    does a run of them. -/

namespace GraphR.Multi

open Wal ByteLib ChunkLib

/-! ## What a publication hands over -/

namespace Segment

/-- The ops to publish, each with its number and where it lies. -/
def raws (g : Segment) : List (Nat × Nat × Bytes) :=
  ((records g.bytes g.start g.bytes.length).flatMap Record.rawOps).filter fun p => g.above < p.1

theorem published_eq (g : Segment) : g.published = g.raws.map fun p => (p.1, p.2.2) := by
  unfold published raws
  rw [← List.map_flatMap, List.filter_map]
  rfl

/-- What is handed over holds: the records lie in the segment, and as many ops
    were counted as there are to publish. -/
structure Sound (g : Segment) : Prop where
  placed : ∀ r ∈ records g.bytes g.start g.bytes.length, Placed g.bytes r
  count : g.count = g.published.length

section sound
variable {g : Segment}

/-- What `publish` iterates over. -/
theorem opsAbove_eq (h : g.Sound) :
    Arena.opsAbove g.start g.above g.bytes = g.raws.map fun p => (p.1.toUInt64, p.2.1) := by
  have hpairs : ∀ rs : List Record, (∀ r ∈ rs, Placed g.bytes r) →
      (rs.flatMap Record.ops).map (fun p => (p.1, p.2.1))
        = (rs.flatMap Record.rawOps).map fun p => (p.1, p.2.1) := by
    intro rs hrs
    induction rs with
    | nil => rfl
    | cons r rs ih =>
      rw [List.flatMap_cons, List.flatMap_cons, List.map_append, List.map_append,
        (hrs r (by simp)).ops_eq, ih fun t ht => hrs t (by simp [ht])]
  have h := congrArg (fun l : List (Nat × Nat) =>
    (l.filter fun p => g.above < p.1).map fun p => (p.1.toUInt64, p.2)) (hpairs _ h.placed)
  simp only [List.filter_map, List.map_map] at h
  exact h

theorem raws_placed (h : g.Sound) {p : Nat × Nat × Bytes} (hp : p ∈ g.raws) :
    p.1 < 2 ^ 64 ∧ ValidOp p.2.2 ∧ p.2.1 + p.2.2.length ≤ g.bytes.length ∧
      range g.bytes p.2.1 p.2.2.length = p.2.2 := by
  obtain ⟨r, hr, hraw⟩ := List.mem_flatMap.mp (List.mem_of_mem_filter hp)
  have hplaced := h.placed r hr
  have hseq : p.1 ∈ (List.range r.opCount).map (r.firstSeq + ·) := by
    rw [← hplaced.seqs]
    exact List.mem_map_of_mem hraw
  obtain ⟨k, hk, hk'⟩ := List.mem_map.mp hseq
  have hlast := hplaced.last
  have hle : p.1 ≤ r.lastSeq := by
    have := List.mem_range.mp hk
    rw [← hk']
    show r.firstSeq + k ≤ r.firstSeq + r.opCount - 1
    omega
  exact ⟨by omega, hplaced.valid p hraw, hplaced.inside p hraw, hplaced.there p hraw⟩

end sound

/-- The count of `publish_above` is right wherever the served number falls. -/
theorem newOps_eq {g : Segment} (h : ∀ r ∈ records g.bytes g.start g.bytes.length, Placed g.bytes r) :
    Gen.newOps g.above (records g.bytes g.start g.bytes.length) = g.published.length := by
  rw [published_eq, List.length_map]
  unfold raws Gen.newOps
  generalize records g.bytes g.start g.bytes.length = rs at h
  induction rs with
  | nil => rfl
  | cons r rs ih =>
    rw [List.flatMap_cons, List.filter_append, List.length_append, List.map_cons, List.sum_cons,
      (h r (by simp)).length_above, ih fun t ht => h t (by simp [ht])]

end Segment

namespace Publication
section xxh3
variable {xxh3 : Bytes → UInt64}

theorem Whole.sound {p : Publication} {g : Segment} (hp : p.Whole xxh3)
    (hg : p.segment xxh3 = .ok g) : g.Sound := by
  cases p with
  | above served seg start =>
    obtain ⟨hstart, after, rs, hrs⟩ := hp
    cases hg
    have hplaced : ∀ r ∈ records seg start seg.length, Placed seg r := by
      rw [hrs.records_eq hstart]
      exact hrs.placed
    exact ⟨hplaced, Segment.newOps_eq (g := ⟨seg, start, served, _⟩) hplaced⟩
  | own staged firstSeq =>
    obtain ⟨cs, hcs⟩ := hp
    cases hs : staged.seal xxh3 firstSeq with
    | error e => simp [segment, hs, bind, Except.bind] at hg
    | ok sealed =>
      simp only [segment, hs, bind, Except.bind, Except.ok.injEq] at hg
      subst hg
      obtain ⟨r, hfirst, hops, hbytes⟩ := hcs.sealed_bytes xxh3 hs
      have hrun : Validated xxh3 sealed.buf 0 none [r.toRecord xxh3 0] sealed.buf.length := by
        rw [hbytes]
        exact r.validated_alone
      have hplaced := hrun.placed
      have hrecords := hrun.records_eq (Nat.zero_le _)
      refine ⟨by rw [hrecords]; exact hplaced, ?_⟩
      rw [← Segment.newOps_eq (by rw [hrecords]; exact hplaced)]
      simp only [hrecords, Gen.newOps, List.map_cons, List.map_nil, List.sum_cons, List.sum_nil,
        Nat.add_zero, r.toRecord_lastSeq, r.toRecord_opCount, SealedRecord.lastSeq, hops, hcs.ops]
      have hpos := r.ops_pos
      have hfirst' := r.firstSeq_pos
      rw [hops] at hpos
      rw [hfirst] at hfirst' ⊢
      rw [if_pos (by omega), Nat.min_eq_right (by omega)]

end xxh3
end Publication

namespace Arena

/-! ## One publication -/

/-- What the arena is for: a list of numbered ops, entry `i` the `i`-th of
    them. -/
structure Lists (a : Arena) (ops : List SeqOp) : Prop where
  frontier : a.frontier = ops.length
  free : ∀ s, a.nsegs ≤ s → s < arenaCapacity → a.segs.get? s = some none
  entry : ∀ i op, ops[i]? = some op →
    ∃ loc, a.entry i = some (op.1.toUInt64, loc) ∧ a.opBytes loc = some op.2
  valid : ∀ op ∈ ops, op.1 < 2 ^ 64 ∧ ValidOp op.2
  made : ∀ i < a.frontier, a.entries.Made i

theorem lists_new : Lists new [] := by
  refine ⟨rfl, ?_, by simp, by simp, ?_⟩
  · intro s _ hs
    exact Chunks.get?_new baseCap_pos (by rwa [capacity_chunkCount])
  · intro i hi
    exact absurd hi (Nat.not_lt_zero i)

/-- What `reserve` leaves behind when it succeeds. -/
structure Reserved (a r : Arena) (ops bytes : Nat) : Prop where
  room : a.frontier + ops ≤ arenaCapacity
  segRoom : a.nsegs < arenaCapacity
  fits : bytes ≤ offMask
  frontier : r.frontier = a.frontier
  nsegs : r.nsegs = a.nsegs
  entry : ∀ i, r.entries.get? i = a.entries.get? i
  seg : ∀ s, r.segs.get? s = a.segs.get? s
  kept : ∀ i, a.entries.Made i → r.entries.Made i
  made : ∀ i, a.frontier ≤ i → i < a.frontier + ops → r.entries.Made i
  segMade : r.segs.Made a.nsegs

section steps
variable {a r : Arena}

theorem reserve_spec {ops bytes : Nat} (h : a.reserve ops bytes = some r) :
    Reserved a r ops bytes := by
  unfold reserve at h
  simp only at h
  split_ifs at h with hfull
  cases h
  push Not at hfull
  obtain ⟨hroom, hseg, hbytes⟩ := hfull
  have hin : (ChunkLib.locate baseCap a.nsegs).1 < chunkCount :=
    (locate_fst_lt_iff baseCap_pos).mpr (by rwa [capacity_chunkCount])
  exact {
    room := hroom
    segRoom := hseg
    fits := hbytes
    frontier := rfl
    nsegs := rfl
    entry := fun i => Chunks.get?_makeTo _ _ _ i
    seg := fun s => Chunks.get?_make _ s
    kept := fun i hi => hi.makeTo _ _ _
    made := fun i hlow hhigh => Chunks.made_makeTo baseCap_pos (by rwa [capacity_chunkCount])
      (Nat.le_add_left _ _) hlow hhigh
    segMade := Chunks.made_make hin rfl }

/-- Room made changes nothing of the list. -/
theorem Lists.reserved {ops : List SeqOp} {n bytes : Nat} (h : a.Lists ops)
    (hr : Reserved a r n bytes) : r.Lists ops := by
  refine ⟨hr.frontier.trans h.frontier, ?_, ?_, h.valid, ?_⟩
  · intro s hs hlt
    rw [hr.seg]
    exact h.free s (hr.nsegs ▸ hs) hlt
  · intro i op hop
    obtain ⟨loc, hentry, hbytes⟩ := h.entry i op hop
    refine ⟨loc, ?_, ?_⟩
    · unfold Arena.entry
      rw [hr.entry]
      exact hentry
    · unfold Arena.opBytes
      rw [hr.seg]
      exact hbytes
  · intro i hi
    exact hr.kept i (h.made i (hr.frontier ▸ hi))

variable {ops : List SeqOp} {g : Segment}

theorem setSeg_get? {s : Nat} {bytes : Bytes} (hs : a.segs.get? s = some none) (t : Nat) :
    (a.setSeg s bytes).segs.get? t = if s = t then some (some bytes) else a.segs.get? t := by
  unfold setSeg
  rw [hs]
  exact get?_put_cell _ (get?_isSome_iff.mp (by rw [hs]; rfl)) t

/-- The stores of a publication, in full. -/
theorem stores_eq (h : a.Lists ops) (hg : g.Sound) (hseg : a.nsegs < arenaCapacity)
    (hroom : a.frontier + g.count ≤ arenaCapacity) :
    a.stores g.bytes (opsAbove g.start g.above)
      = (.seg a.nsegs g.bytes :: .nsegs (a.nsegs + 1) ::
          (entryStores a.nsegs a.frontier (g.raws.map fun p => (p.1.toUInt64, p.2.1))).1)
        ++ [.frontier (a.frontier + g.published.length)] := by
  have hcell : (a.store (.seg a.nsegs g.bytes)).segs.get? a.nsegs = some (some g.bytes) :=
    (setSeg_get? (h.free _ le_rfl hseg) _).trans (if_pos rfl)
  have hlen : (g.raws.map fun p => (p.1.toUInt64, p.2.1)).length = g.published.length := by
    rw [Segment.published_eq, List.length_map, List.length_map]
  have hstop := @entryStores_stop a.nsegs a.frontier (g.raws.map fun p => (p.1.toUInt64, p.2.1))
    (by rwa [hlen, ← hg.count])
  unfold stores
  rw [if_pos (locate_lt_iff.mpr hseg), hcell]
  simp only [Option.join_some, Option.getD_some, Segment.opsAbove_eq hg, hstop, hlen,
    List.cons_append]

theorem foldl_frontier_last (l : List Store) (a : Arena) (n : Nat) :
    ((l ++ [Store.frontier n]).foldl store a).frontier = n := by
  rw [List.foldl_append]
  rfl

section stores
variable (h : a.Lists ops) (hg : g.Sound) (hseg : a.nsegs < arenaCapacity)
  (hroom : a.frontier + g.count ≤ arenaCapacity)
include h hg hseg hroom

omit h hseg in
theorem entries_of_publication :
    ∀ st ∈ (entryStores a.nsegs a.frontier (g.raws.map fun p => (p.1.toUInt64, p.2.1))).1,
      st.From a.frontier ∧ st.OfEntry := by
  apply entryStores_from
  rwa [List.length_map, ← List.length_map (f := fun p => (p.1, p.2.2)), ← Segment.published_eq,
    ← hg.count]

/-- No store of a publication touches what is below the frontier. -/
theorem from_stores : ∀ st ∈ a.stores g.bytes (opsAbove g.start g.above), st.From a.frontier := by
  rw [stores_eq h hg hseg hroom]
  intro st hst
  simp only [List.mem_append, List.mem_cons, List.not_mem_nil, or_false] at hst
  rcases hst with (rfl | rfl | hst) | rfl
  · trivial
  · trivial
  · exact (entries_of_publication hg hroom st hst).1
  · trivial

/-- The frontier moves once, with the last store. -/
theorem frontier_stores {l : List Store} (hl : l <+: a.stores g.bytes (opsAbove g.start g.above)) :
    (l.foldl store a).frontier = a.frontier ∨ l = a.stores g.bytes (opsAbove g.start g.above) ∧
      (l.foldl store a).frontier = a.frontier + g.published.length := by
  rw [stores_eq h hg hseg hroom] at hl ⊢
  rcases List.prefix_concat_iff.mp hl with rfl | hl
  · exact .inr ⟨rfl, foldl_frontier_last _ a _⟩
  · refine .inl (foldl_frontier ?_)
    intro st hst n
    have hmem := hl.subset hst
    simp only [List.mem_cons] at hmem
    rcases hmem with rfl | rfl | hmem
    · simp
    · simp
    · rintro rfl
      exact (entries_of_publication hg hroom _ hmem).2

/-- Of two arenas seen while it is published, the later has what the earlier
    shows. -/
theorem below_stores {l₁ l₂ : List Store}
    (hl : l₁ ++ l₂ <+: a.stores g.bytes (opsAbove g.start g.above)) :
    (l₁.foldl store a).Below ((l₁ ++ l₂).foldl store a) := by
  have hfrom := from_stores h hg hseg hroom
  have hfirst : l₁ <+: a.stores g.bytes (opsAbove g.start g.above) :=
    (List.prefix_append l₁ l₂).trans hl
  have hframe : Frame a.frontier (l₁.foldl store a) ((l₁ ++ l₂).foldl store a) := by
    rw [List.foldl_append]
    exact frame_stores fun st hst => hfrom st (hl.subset (by simp [hst]))
  rcases frontier_stores h hg hseg hroom hfirst with hsame | ⟨hall, hend⟩
  · refine (hsame ▸ hframe : Frame (l₁.foldl store a).frontier _ _).below ?_
    rcases frontier_stores h hg hseg hroom hl with hsame' | ⟨-, hend'⟩
    · rw [hsame, hsame']
    · omega
  · -- nothing is left to store
    have hnil : l₂ = [] := by
      have hlen := hl.length_le
      rw [List.length_append, hall] at hlen
      exact List.length_eq_zero_iff.mp (by omega)
    rw [hnil, List.append_nil]
    exact .refl _

end stores

/-- The op at its place in its segment. -/
theorem opAt_eq {seg c : Bytes} {off : Nat} (hin : off + c.length ≤ seg.length)
    (hc : range seg off c.length = c) (hvalid : ValidOp c) : opAt seg off = some c := by
  have hlen := hvalid.length_ge
  have hfield : (u32At seg off).toNat = c.length := by
    have hsame : u32At (range seg off c.length) 0 = u32At seg off := by
      rw [u32At_range (by omega)]
      rfl
    rw [← hsame, hc, hvalid.length_eq]
  unfold opAt
  rw [if_pos (by omega)]
  simp only [hfield]
  rw [if_pos hin, hc]

/-- A publication appends its ops to the list. -/
theorem Lists.published (h : a.Lists ops) (hg : g.Sound) (hseg : a.nsegs < arenaCapacity)
    (hroom : a.frontier + g.count ≤ arenaCapacity) (hfits : g.bytes.length ≤ offMask)
    (hmade : ∀ i < a.frontier + g.count, a.entries.Made i) :
    (a.publishRecords g.bytes g.start g.above).Lists (ops ++ g.published) := by
  have hlen : (g.raws.map fun p => (p.1.toUInt64, p.2.1)).length = g.published.length := by
    rw [Segment.published_eq, List.length_map, List.length_map]
  have hroom' : a.frontier + (g.raws.map fun p => (p.1.toUInt64, p.2.1)).length ≤ arenaCapacity := by
    rwa [hlen, ← hg.count]
  have hfroms := entries_of_publication hg hroom
  have hall : a.Below ((a.stores g.bytes (opsAbove g.start g.above)).foldl store a) :=
    @below_stores a ops g h hg hseg hroom [] _ (List.prefix_refl _)
  unfold publishRecords publish
  rw [stores_eq h hg hseg hroom] at hall ⊢
  generalize hes : (entryStores a.nsegs a.frontier
    (g.raws.map fun p => (p.1.toUInt64, p.2.1))).1 = es at hall hfroms
  rw [List.foldl_append] at hall ⊢
  simp only [List.foldl_cons, List.foldl_nil] at hall ⊢
  -- the arena before its entries
  set b := (a.store (.seg a.nsegs g.bytes)).store (.nsegs (a.nsegs + 1)) with hb
  have hbsegs : b.segs = (a.setSeg a.nsegs g.bytes).segs := rfl
  obtain ⟨hsegs, hnsegs⟩ := foldl_ofEntry (a := b) fun st hst => (hfroms st hst).2
  have hcell := h.free _ le_rfl hseg
  have hget : ∀ t, (es.foldl store b).segs.get? t
      = if a.nsegs = t then some (some g.bytes) else a.segs.get? t := by
    intro t
    rw [hsegs, hbsegs, setSeg_get? hcell]
  refine ⟨?_, ?_, ?_, ?_, ?_⟩
  · show a.frontier + g.published.length = _
    rw [List.length_append, h.frontier]
  · intro s hs hlt
    have hs' : a.nsegs + 1 ≤ s := by
      have : (es.foldl store b).nsegs ≤ s := hs
      rwa [hnsegs] at this
    show (es.foldl store b).segs.get? s = _
    rw [hget, if_neg (by omega)]
    exact h.free s (by omega) hlt
  · intro i op hop
    rcases Nat.lt_or_ge i ops.length with hi | hi
    · -- an earlier op
      rw [List.getElem?_append_left hi] at hop
      obtain ⟨loc, hentry, hbytes⟩ := h.entry i op hop
      refine ⟨loc, ?_, hall.opBytes loc _ hbytes⟩
      rw [hall.entry i (by rwa [h.frontier]), hentry]
    · rw [List.getElem?_append_right hi, Segment.published_eq, List.getElem?_map,
        Option.map_eq_some_iff] at hop
      obtain ⟨p, hp, rfl⟩ := hop
      obtain ⟨-, hvalid, hin, hthere⟩ := Segment.raws_placed hg (List.mem_of_getElem? hp)
      have hoff : p.2.1 ≤ offMask := by omega
      have hs26 : a.nsegs < 2 ^ 26 := lt_of_lt_of_le hseg (by simp [arenaCapacity])
      obtain ⟨hshift, hmask⟩ := pack_shift hs26 hoff
      have hop : (g.raws.map fun p => (p.1.toUInt64, p.2.1))[i - ops.length]?
          = some (p.1.toUInt64, p.2.1) := by
        rw [List.getElem?_map, hp]
        rfl
      have hcells := entries_entryStores (s := a.nsegs) (a := b) hroom' hop
      rw [hes, h.frontier, Nat.add_sub_cancel' hi] at hcells
      refine ⟨pack a.nsegs p.2.1, ?_, ?_⟩
      · show ((es.foldl store b).entries.get? i).map _ = _
        rw [hcells]
        rfl
      · show ((es.foldl store b).segs.get? _).bind _ = _
        unfold pack
        rw [hshift, hget, if_pos rfl]
        show opAt g.bytes _ = _
        rw [hmask]
        exact opAt_eq hin hthere hvalid
  · intro op hop
    rcases List.mem_append.mp hop with hop | hop
    · exact h.valid op hop
    · rw [Segment.published_eq] at hop
      obtain ⟨p, hp, rfl⟩ := List.mem_map.mp hop
      obtain ⟨hseq, hvalid, -, -⟩ := Segment.raws_placed hg hp
      exact ⟨hseq, hvalid⟩
  · intro i hi
    have hframe : Frame 0 b (es.foldl store b) :=
      frame_stores fun st hst => (hfroms st hst).1.mono (Nat.zero_le _)
    have hframe' : Frame 0 a b := (@frame_store 0 a (.seg a.nsegs g.bytes) trivial).trans
      (@frame_store 0 _ (.nsegs (a.nsegs + 1)) trivial)
    have hi' : i < a.frontier + g.published.length := hi
    exact (hframe'.trans hframe).made i (hmade i (by rw [hg.count]; exact hi'))

end steps

/-! ## Runs -/

section runs
variable {xxh3 : Bytes → UInt64} {a b : Arena} {ops : List SeqOp}

/-- A publication appends the segment it hands over, unless none of it is
    new. -/
theorem publication_ok {p : Publication} (h : a.publication xxh3 p = .ok b) :
    ∃ g, p.segment xxh3 = .ok g ∧ (g.count = 0 ∧ b = a ∨ g.count ≠ 0 ∧
      ∃ r, a.reserve g.count g.bytes.length = some r ∧
        b = r.publishRecords g.bytes g.start g.above) := by
  cases p with
  | above served seg start =>
    refine ⟨_, rfl, ?_⟩
    simp only [publication, publishAbove] at h
    split_ifs at h with hnone
    · cases h
      exact .inl ⟨hnone, rfl⟩
    · cases hr : a.reserve (Gen.newOps served (records seg start seg.length)) seg.length with
      | none =>
        rw [hr] at h
        cases h
      | some r =>
        rw [hr] at h
        cases h
        exact .inr ⟨hnone, r, rfl, rfl⟩
  | own staged firstSeq =>
    simp only [publication, publishOwn] at h
    cases hs : staged.seal xxh3 firstSeq with
    | error e => simp [hs, bind, Except.bind] at h
    | ok sealed =>
      simp only [hs, bind, Except.bind] at h
      refine ⟨⟨sealed.buf, 0, firstSeq.toNat - 1, staged.ops⟩,
        by simp only [Publication.segment, hs, bind, Except.bind], .inr ⟨?_, ?_⟩⟩
      · -- nothing staged is not sealed
        intro hzero
        unfold RecordBuf.seal at hs
        rw [if_pos hzero] at hs
        cases hs
      · cases hr : a.reserve staged.ops sealed.buf.length with
        | none =>
          rw [hr] at h
          cases h
        | some r =>
          rw [hr] at h
          cases h
          exact ⟨r, rfl, rfl⟩

/-- The states of a fold are those after each beginning of the list. -/
theorem pairwise_scanl {α β : Type} {f : β → α → β} (l : List α) (b : β) :
    (l.scanl f b).Pairwise fun m m' => ∃ l₁ l₂, l₁ ++ l₂ <+: l ∧ m = l₁.foldl f b ∧
      m' = (l₁ ++ l₂).foldl f b := by
  rw [List.pairwise_iff_getElem]
  intro i j hi hj hij
  refine ⟨l.take i, (l.take j).drop i, ?_, List.getElem_scanl hi, ?_⟩
  · have hsplit : l.take i ++ (l.take j).drop i = l.take j := by
      rw [← Nat.min_eq_left hij.le, ← List.take_take, Nat.min_eq_left hij.le, List.take_append_drop]
    rw [hsplit]
    exact List.take_prefix j l
  · have hsplit : l.take i ++ (l.take j).drop i = l.take j := by
      rw [← Nat.min_eq_left hij.le, ← List.take_take, Nat.min_eq_left hij.le, List.take_append_drop]
    rw [hsplit]
    exact List.getElem_scanl hj

/-- One publication: the list grows by its ops, and what any thread saw
    stays. -/
theorem publication_spec {p : Publication} (h : a.Lists ops) (hp : p.Whole xxh3)
    (hpub : a.publication xxh3 p = .ok b) :
    b.Lists (ops ++ p.ops xxh3) ∧ a.Below b ∧ (a.during xxh3 p).Pairwise Below ∧
      ∀ m ∈ a.during xxh3 p, a.Below m ∧ m.Below b ∧
        (m.frontier = a.frontier ∨ m.frontier = b.frontier) := by
  obtain ⟨g, hg, hcase⟩ := publication_ok hpub
  have hsound := hp.sound hg
  have hops : p.ops xxh3 = g.published := by
    unfold Publication.ops
    rw [hg]
  rw [hops]
  unfold during
  rw [hg]
  simp only
  rcases hcase with ⟨hnone, rfl⟩ | ⟨hsome, r, hr, rfl⟩
  · -- nothing new
    have hnil : g.published = [] := List.length_eq_zero_iff.mp (hsound.count ▸ hnone)
    rw [if_pos hnone, hnil, List.append_nil]
    exact ⟨h, .refl b, by simp, by simp⟩
  · rw [if_neg hsome, hr]
    simp only
    have hres := reserve_spec hr
    have hlists := h.reserved hres
    have hseg : r.nsegs < arenaCapacity := hres.nsegs ▸ hres.segRoom
    have hroom : r.frontier + g.count ≤ arenaCapacity := hres.frontier ▸ hres.room
    have hmade : ∀ i < r.frontier + g.count, r.entries.Made i := by
      intro i hi
      rw [hres.frontier] at hi
      rcases Nat.lt_or_ge i a.frontier with hlt | hge
      · exact hres.kept i (h.made i hlt)
      · exact hres.made i hge hi
    have hbelow : a.Below r := by
      refine ⟨hres.frontier.ge, ?_, ?_⟩
      · intro i _
        unfold Arena.entry
        rw [hres.entry]
      · intro loc bytes hat
        unfold Arena.opBytes at hat ⊢
        rwa [hres.seg]
    have hend := hlists.published hsound hseg hroom hres.fits hmade
    have hpairs := pairwise_scanl (f := store) (r.stores g.bytes (opsAbove g.start g.above)) r
    refine ⟨hend, ?_, ?_, ?_⟩
    · exact hbelow.trans
        (@below_stores _ _ _ hlists hsound hseg hroom [] _ (List.prefix_refl _))
    · refine hpairs.imp ?_
      rintro m m' ⟨l₁, l₂, hl, rfl, rfl⟩
      exact below_stores hlists hsound hseg hroom hl
    · intro m hm
      obtain ⟨i, hi, rfl⟩ := List.mem_iff_getElem.mp hm
      rw [List.getElem_scanl]
      have hl := List.take_prefix i (r.stores g.bytes (opsAbove g.start g.above))
      obtain ⟨l₂, hl₂⟩ := hl
      have hafter := @below_stores _ _ _ hlists hsound hseg hroom _ l₂ (by rw [hl₂])
      rw [hl₂] at hafter
      have hbefore := @below_stores _ _ _ hlists hsound hseg hroom [] _
        (List.take_prefix i (r.stores g.bytes (opsAbove g.start g.above)))
      refine ⟨hbelow.trans hbefore, hafter, ?_⟩
      rcases frontier_stores hlists hsound hseg hroom
        (List.take_prefix i (r.stores g.bytes (opsAbove g.start g.above))) with hsame | ⟨hall, -⟩
      · exact .inl (hsame.trans hres.frontier)
      · rw [hall]
        exact .inr rfl

/-- Publications one after another. -/
theorem run_spec {ps : List Publication} (h : a.Lists ops) (hps : ∀ p ∈ ps, p.Whole xxh3)
    (hrun : run xxh3 ps a = .ok b) :
    b.Lists (ops ++ ps.flatMap (Publication.ops xxh3)) ∧ (seen xxh3 ps a).Pairwise Below ∧
      ∀ m ∈ seen xxh3 ps a, a.Below m ∧ m.Below b ∧
        ∃ qs c, qs <+: ps ∧ run xxh3 qs a = .ok c ∧ m.frontier = c.frontier := by
  induction ps generalizing a ops with
  | nil =>
    cases hrun
    refine ⟨by simpa using h, by simp [seen], ?_⟩
    intro m hm
    cases List.mem_singleton.mp hm
    exact ⟨.refl _, .refl _, [], _, List.prefix_refl _, rfl, rfl⟩
  | cons p ps ih =>
    cases hp : a.publication xxh3 p with
    | error e =>
      rw [run, hp] at hrun
      cases hrun
    | ok c =>
      rw [run, hp] at hrun
      obtain ⟨hlists, hac, hpairs, hduring⟩ := publication_spec h (hps p (by simp)) hp
      obtain ⟨hend, hseen, hlater⟩ := ih hlists (fun q hq => hps q (by simp [hq])) hrun
      have hcb : c.Below b := by
        have hfirst : c ∈ seen xxh3 ps c := by
          cases ps with
          | nil => simp [seen]
          | cons q ps => simp [seen]
        exact (hlater c hfirst).2.1
      rw [List.append_assoc] at hend
      refine ⟨by rwa [List.flatMap_cons], ?_, ?_⟩
      · -- the arenas of this publication, then those of the rest
        rw [seen, hp, List.pairwise_cons, List.pairwise_append]
        refine ⟨?_, hpairs, hseen, ?_⟩
        · intro m hm
          rcases List.mem_append.mp hm with hm | hm
          · exact (hduring m hm).1
          · exact hac.trans (hlater m hm).1
        · intro m hm m' hm'
          exact (hduring m hm).2.1.trans (hlater m' hm').1
      · intro m hm
        rw [seen, hp, List.mem_cons, List.mem_append] at hm
        rcases hm with rfl | hm | hm
        · exact ⟨.refl _, hac.trans hcb, [], _, List.nil_prefix, rfl, rfl⟩
        · obtain ⟨hbefore, hafter, hone⟩ := hduring m hm
          refine ⟨hbefore, hafter.trans hcb, ?_⟩
          rcases hone with hsame | hnew
          · exact ⟨[], a, List.nil_prefix, rfl, hsame⟩
          · refine ⟨[p], c, ?_, ?_, hnew⟩
            · exact ⟨ps, rfl⟩
            · rw [run, hp]
              rfl
        · obtain ⟨hbefore, hafter, qs, d, hqs, hd, hsame⟩ := hlater m hm
          refine ⟨hac.trans hbefore, hafter, p :: qs, d, ?_, ?_, hsame⟩
          · rwa [List.prefix_cons_inj]
          · rw [run, hp]
            exact hd

/-- A run of publications, each with room made just before it, and every arena
    another thread sees in it. As many ops are counted as are published,
    wherever the served number falls. Entry `i` gives the `i`-th op published,
    which reads in place as itself. Of any two arenas seen, the later has below
    the earlier's frontier what the earlier has there, and each frontier is one
    between two publications. The cells below the end that `reserve` makes room
    for are all there, and `locate` is one to one onto the cells of the
    chunks. -/
theorem publications_append {ps : List Publication} (hps : ∀ p ∈ ps, p.Whole xxh3)
    (hrun : run xxh3 ps new = .ok b) :
    (∀ p ∈ ps, ∀ g, p.segment xxh3 = .ok g → g.count = g.published.length) ∧
    b.frontier = (ps.flatMap (Publication.ops xxh3)).length ∧
    (∀ i op, (ps.flatMap (Publication.ops xxh3))[i]? = some op →
      ∃ loc v, b.entry i = some (op.1.toUInt64, loc) ∧ op.1.toUInt64.toNat = op.1 ∧
        b.opBytes loc = some op.2 ∧ b.view loc = some v ∧ validateOp op.2 = .ok v) ∧
    (seen xxh3 ps new).Pairwise Below ∧
    (∀ m ∈ seen xxh3 ps new,
      ∃ qs c, qs <+: ps ∧ run xxh3 qs new = .ok c ∧ m.frontier = c.frontier) ∧
    (∀ n bytes r, b.reserve n bytes = some r →
      (∀ i < b.frontier + n, r.entries.Made i) ∧ r.segs.Made b.nsegs) ∧
    (∀ i < arenaCapacity, (locate i).1 < chunkCount ∧ (locate i).2 < baseCap <<< (locate i).1) ∧
    (∀ i j, locate i = locate j → i = j) ∧
    ∀ k off, k < chunkCount → off < baseCap <<< k → ∃ i < arenaCapacity, locate i = (k, off) := by
  obtain ⟨hlists, hpairs, hseen⟩ := run_spec lists_new hps hrun
  rw [List.nil_append] at hlists
  refine ⟨?_, hlists.frontier, ?_, hpairs, ?_, ?_, ?_, ?_, ?_⟩
  · intro p hp g hg
    exact ((hps p hp).sound hg).count
  · intro i op hop
    obtain ⟨loc, hentry, hbytes⟩ := hlists.entry i op hop
    obtain ⟨hseq, hvalid⟩ := hlists.valid op (List.mem_of_getElem? hop)
    obtain ⟨v, hv, htrusted⟩ := hvalid.validateOp_eq
    refine ⟨loc, v, hentry, ?_, hbytes, ?_, hv⟩
    · rw [Nat.toUInt64, UInt64.toNat_ofNat', Nat.mod_eq_of_lt hseq]
    · unfold view
      rw [hbytes, Option.bind_some, htrusted]
  · intro m hm
    exact (hseen m hm).2.2
  · intro n bytes r hr
    have hres := reserve_spec hr
    refine ⟨?_, hres.segMade⟩
    intro i hi
    rcases Nat.lt_or_ge i b.frontier with hlt | hge
    · exact hres.kept i (hlists.made i hlt)
    · exact hres.made i hge hi
  · intro i hi
    refine ⟨locate_lt_iff.mpr hi, ?_⟩
    rw [locate_eq, Nat.shiftLeft_eq]
    exact locate_lt baseCap_pos i
  · intro i j hij
    rw [locate_eq, locate_eq] at hij
    exact locate_inj baseCap_pos hij
  · intro k off hk hoff
    rw [Nat.shiftLeft_eq] at hoff
    have hcell := locate_cell baseCap_pos hoff
    refine ⟨capacity baseCap k + off, ?_, by rw [locate_eq, hcell]⟩
    rw [← capacity_chunkCount, ← locate_fst_lt_iff baseCap_pos, hcell]
    exact hk

/-- A commit of two ops, then a run of two more read from the log by a handle
    that has served the first of them. -/
theorem publications_append_inside :
    ∃ (staged sealed : RecordBuf) (a : Arena),
      pushAll [.pin 9 true, .pin 8 false] RecordBuf.new = .ok staged ∧
      staged.seal (fun _ => 7) 3 = .ok sealed ∧
      run (fun _ => 7) [.own staged 1, .above 3 sealed.buf 0] new = .ok a ∧
      a.frontier = 3 ∧ (a.entry 2).map Prod.fst = some 4 := by
  obtain ⟨staged, hstaged⟩ : ∃ b, pushAll [.pin 9 true, .pin 8 false] RecordBuf.new = .ok b := ⟨_, rfl⟩
  have hholds := Holds.new.pushAll hstaged
  obtain ⟨sealed, hsealed⟩ : ∃ b, staged.seal (fun _ => 7) 3 = .ok b := by
    cases hstaged
    exact ⟨_, rfl⟩
  obtain ⟨r, -, -, hbytes⟩ := hholds.sealed_bytes _ hsealed
  have hwhole : ∀ p ∈ [Publication.own staged 1, .above 3 sealed.buf 0], p.Whole fun _ => 7 := by
    intro p hp
    rcases List.mem_pair.mp hp with rfl | rfl
    · exact ⟨_, hholds⟩
    · exact ⟨Nat.zero_le _, none, _, hbytes ▸ r.validated_alone⟩
  have hok : (run (fun _ => 7) [.own staged 1, .above 3 sealed.buf 0] new).isOk = true := by
    cases hstaged
    cases hsealed
    decide +kernel
  obtain ⟨a, ha⟩ : ∃ a, run (fun _ => 7) [.own staged 1, .above 3 sealed.buf 0] new = .ok a := by
    cases hrun : run (fun _ => 7) [.own staged 1, .above 3 sealed.buf 0] new with
    | ok a => exact ⟨a, rfl⟩
    | error e =>
      rw [hrun] at hok
      cases hok
  obtain ⟨-, hfrontier, hentry, -⟩ := publications_append hwhole ha
  have hseqs : ([Publication.own staged 1, .above 3 sealed.buf 0].flatMap
      (Publication.ops fun _ => 7)).map Prod.fst = [1, 2, 4] := by
    cases hstaged
    cases hsealed
    decide +kernel
  refine ⟨staged, sealed, a, hstaged, hsealed, ha, ?_, ?_⟩
  · rw [hfrontier, ← List.length_map (f := Prod.fst), hseqs]
    rfl
  · have hthird := congrArg (·[2]?) hseqs
    simp only [List.getElem?_map] at hthird
    obtain ⟨op, hop, hfour⟩ := Option.map_eq_some_iff.mp hthird
    obtain ⟨loc, v, he, -⟩ := hentry 2 op hop
    rw [he, hfour]
    rfl

end runs

end Arena

end GraphR.Multi
