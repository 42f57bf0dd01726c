import GraphR.Format.Wal.OpTables

/-! # The record codec round-trips

    A sequence of pushes is a list of `Push`; `Push.apply` is the call on the
    encoder and `Push.op` the decoded op its accessors must give back. What the
    buffer holds after any accepted sequence is one header and the ops back to
    back (`Holds`), so sealing it gives a `SealedRecord` and both readers of a
    sealed record apply. -/

namespace GraphR.Wal

open ByteLib

/-! ## Pushes -/

/-- One call on the encoder. -/
inductive Push where
  | upsert (doc : DocRecord) (flags : UInt16)
  | segments (key : UrlKey) (segs : List SegmentRecord)
  | edges (key : UrlKey) (es : List Edge)
  | touch (key : UrlKey) (t : TouchRecord)
  | remove (key : UrlKey)
  | pin (key : UrlKey) (pinned : Bool)
  | attrs (key : UrlKey) (as : List (UInt8 × String))
  | attrParts (key : UrlKey) (as : List AttrParts)
  deriving DecidableEq

namespace Push

/-- The call. -/
def apply (p : Push) (b : RecordBuf) : Except Error RecordBuf :=
  match p with
  | .upsert doc flags => b.pushUpsert doc flags
  | .segments key segs => b.pushSegments key segs
  | .edges key es => b.pushEdges key es
  | .touch key t => b.pushTouch key t
  | .remove key => .ok (b.pushRemove key)
  | .pin key pinned => .ok (b.pushPin key pinned)
  | .attrs key as => b.pushAttrs key as
  | .attrParts key as => b.pushAttrParts key as

/-- The pushed fields, as the accessors are to give them back. -/
def op : Push → Op
  | .upsert doc flags => .upsert (doc.toUpsert flags)
  | .segments key segs => .segs key (segs.map SegmentRecord.toView)
  | .edges key es => .edges key es
  | .touch key t => .touch key t
  | .remove key => .remove key
  | .pin key pinned => .pin key pinned
  | .attrs key as => .attrs key as
  | .attrParts key as => .attrs key (as.map fun a => (a.1, attrValue a))

/-- The bytes the call appends. -/
def bytes : Push → Bytes
  | .upsert doc flags => upsertOp doc flags
  | .segments key segs => segsOp key segs
  | .edges key es => edgesOp key es
  | .touch key t => touchOp key t
  | .remove key => opBytes opRemove 0 key []
  | .pin key pinned => opBytes opPin (if pinned then 1 else 0) key []
  | .attrs key as => attrsOp key (as.map fun (k, v) => (k, [v, "", ""]))
  | .attrParts key as => attrsOp key as

end Push

/-- A sequence of calls, all of them accepted. -/
def pushAll (ps : List Push) (b : RecordBuf) : Except Error RecordBuf :=
  ps.foldlM (fun b p => p.apply b) b

/-! ## What one push does -/

/-- Staging an op appends its bytes. -/
theorem stage_eq (b : RecordBuf) (kind oflags : UInt8) (key : UrlKey) (body : Bytes) :
    b.stage kind oflags key body = ⟨b.opened ++ opBytes kind oflags key body, b.ops + 1⟩ := by
  have hlen : (b.opened ++ (putU32 0 ++ ([kind, oflags, 0, 0] ++ putU64 key)) ++ body).length
      - b.opened.length = 16 + body.length := by
    simp
    omega
  have hsplice := splice_append (a := b.opened) (b := [kind, oflags, 0, 0] ++ (putU64 key ++ body))
    (show (putU32 0).length = (putU32 (UInt32.ofNat (16 + body.length))).length by simp)
  simp only [RecordBuf.stage, RecordBuf.begin, RecordBuf.finish, hlen]
  congr 1
  simpa [opBytes] using hsplice

/-- The attribute pushes share their body. -/
theorem pushAttrParts_ok {key : UrlKey} {as : List AttrParts} {b b' : RecordBuf}
    (h : b.pushAttrParts key as = .ok b') :
    attrsFit as ∧ b' = b.stage opAttrs 0 key (attrsBody as) := by
  unfold RecordBuf.pushAttrParts at h
  split_ifs at h with hcount
  cases ht : RecordBuf.attrPartsTotal none as with
  | error e => simp [ht] at h
  | ok total =>
    simp only [ht] at h
    split_ifs at h with hmax
    cases h
    exact ⟨⟨by omega, total, ht, by omega⟩, rfl⟩

/-- One accepted push: the buffer grows by one valid op, whose accessors give
    the pushed fields back. -/
theorem apply_ok {p : Push} {b b' : RecordBuf} (h : p.apply b = .ok b') :
    b' = ⟨b.opened ++ p.bytes, b.ops + 1⟩ ∧ ValidOp p.bytes ∧
    ∃ v, OpView.trusted p.bytes = some v ∧ v.read = some p.op := by
  cases p with
  | upsert doc flags =>
    simp only [Push.apply, RecordBuf.pushUpsert] at h
    split_ifs at h with hurl hopt
    cases h
    have hfits : doc.fits := by
      refine ⟨by omega, ?_⟩
      have hl : strLen "" ≤ maxLabel := by simp [strLen]
      simp only [optStrings, List.any_eq_true, List.mem_filterMap, decide_eq_true_eq, not_exists,
        not_and, Nat.not_lt] at hopt
      have hget : ∀ s : Option String, s ∈ [doc.title, doc.snippet, doc.etag] →
          strLen (s.getD "") ≤ maxLabel := by
        intro s hs
        cases s with
        | none => exact hl
        | some t => exact hopt t ⟨some t, hs, rfl⟩
      simp only [docStrings, List.mem_cons, List.not_mem_nil, or_false, forall_eq_or_imp,
        forall_eq]
      exact ⟨by omega, hget _ (by simp), hget _ (by simp), hget _ (by simp)⟩
    exact ⟨stage_eq _ _ _ _ _, validOp_upsert doc flags hfits, _, trusted_upsert doc flags,
      read_upsert doc flags hfits⟩
  | segments key segs =>
    simp only [Push.apply, RecordBuf.pushSegments] at h
    split_ifs at h with hcount hlabel
    cases h
    have hfits : segsFit segs := by
      refine ⟨by omega, ?_⟩
      intro s hs
      by_contra hlt
      exact hlabel (List.any_eq_true.mpr ⟨s, hs, by simpa using hlt⟩)
    exact ⟨stage_eq _ _ _ _ _, validOp_segs key segs hfits, _, trusted_segs key segs,
      read_segs key segs hfits⟩
  | edges key es =>
    simp only [Push.apply, RecordBuf.pushEdges] at h
    split_ifs at h with hcount hasc
    cases h
    have hfits : edgesFit es := ⟨by omega, by simpa using hasc⟩
    exact ⟨stage_eq _ _ _ _ _, validOp_edges key es hfits, _, trusted_edges key es,
      read_edges key es⟩
  | touch key t =>
    simp only [Push.apply, RecordBuf.pushTouch] at h
    split_ifs at h with hetag
    cases h
    exact ⟨stage_eq _ _ _ _ _, validOp_touch key t (by omega), _, trusted_touch key t,
      read_touch key t (by omega)⟩
  | remove key =>
    cases h
    exact ⟨stage_eq _ _ _ _ _, validOp_remove key, _, trusted_remove key, rfl⟩
  | pin key pinned =>
    cases h
    exact ⟨stage_eq _ _ _ _ _, validOp_pin key pinned, _, trusted_pin key pinned, rfl⟩
  | attrs key as =>
    obtain ⟨hfits, rfl⟩ := pushAttrParts_ok h
    refine ⟨stage_eq _ _ _ _ _, validOp_attrs key _ hfits, _, trusted_attrs key _, ?_⟩
    have hvalues : (as.map fun (k, v) => (k, [v, "", ""])).map (fun a => (a.1, attrValue a)) = as := by
      rw [List.map_map]
      exact (List.map_congr_left fun a _ => by simp [attrValue]).trans (List.map_id as)
    exact (read_attrs key _ hfits).trans (by rw [hvalues, Push.op])
  | attrParts key as =>
    obtain ⟨hfits, rfl⟩ := pushAttrParts_ok h
    exact ⟨stage_eq _ _ _ _ _, validOp_attrs key as hfits, _, trusted_attrs key as,
      read_attrs key as hfits⟩

/-! ## What a buffer holds -/

/-- The buffer holds the ops `cs`: a record header (of any contents: it is
    patched by `seal`) and the ops back to back, or nothing at all. -/
structure Holds (b : RecordBuf) (cs : List Bytes) : Prop where
  ops : b.ops = cs.length
  buf : (cs = [] ∧ b.buf = []) ∨
    ∃ hdr : Bytes, hdr.length = recordHeaderLen ∧ b.buf = hdr ++ cs.flatten
  valid : ∀ c ∈ cs, ValidOp c

namespace Holds

variable {b : RecordBuf} {cs : List Bytes}

theorem new : Holds RecordBuf.new [] := ⟨rfl, .inl ⟨rfl, rfl⟩, by simp⟩

/-- Appending to what is held appends after a header. -/
theorem opened (h : Holds b cs) :
    ∃ hdr : Bytes, hdr.length = recordHeaderLen ∧ b.opened = hdr ++ cs.flatten := by
  rcases h.buf with ⟨rfl, hbuf⟩ | ⟨hdr, hlen, hbuf⟩
  · exact ⟨List.replicate recordHeaderLen 0, by simp, by simp [RecordBuf.opened, hbuf]⟩
  · refine ⟨hdr, hlen, ?_⟩
    have hne : b.buf ≠ [] := by
      intro h0
      have := congrArg List.length (hbuf.symm.trans h0)
      simp [hlen, recordHeaderLen] at this
    rw [RecordBuf.opened, if_neg (by simpa using hne), hbuf]

/-- One accepted push appends one op. -/
theorem apply {p : Push} {b' : RecordBuf} (h : Holds b cs) (hp : p.apply b = .ok b') :
    Holds b' (cs ++ [p.bytes]) := by
  obtain ⟨rfl, hvalid, -⟩ := apply_ok hp
  obtain ⟨hdr, hlen, hopened⟩ := h.opened
  refine ⟨by simp [h.ops], .inr ⟨hdr, hlen, by simp [hopened]⟩, ?_⟩
  intro c hc
  rcases List.mem_append.mp hc with hc | hc
  · exact h.valid c hc
  · rw [List.mem_singleton.mp hc]
    exact hvalid

/-- A whole sequence of accepted pushes. -/
theorem pushAll {ps : List Push} {b' : RecordBuf} (h : Holds b cs)
    (hp : pushAll ps b = .ok b') : Holds b' (cs ++ ps.map Push.bytes) := by
  induction ps generalizing b cs with
  | nil =>
    cases hp
    simpa using h
  | cons p ps ih =>
    rw [Wal.pushAll, List.foldlM_cons] at hp
    cases happ : p.apply b with
    | error e => simp [happ, bind, Except.bind] at hp
    | ok b₁ =>
      simp only [happ, bind, Except.bind] at hp
      simpa using ih (h.apply happ) hp

/-- The staged walk over what is held. -/
theorem opViews (h : Holds b cs) : b.opViews = cs.filterMap OpView.trusted := by
  rcases h.buf with ⟨rfl, hbuf⟩ | ⟨hdr, hlen, hbuf⟩
  · simp [RecordBuf.opViews, hbuf, opWalk]
  · have hfuel : cs.length ≤ b.buf.length := by
      have := length_flatten_ge h.valid
      rw [hbuf, List.length_append]
      omega
    have hmin : min recordHeaderLen b.buf.length = hdr.length := by
      rw [hbuf, List.length_append]
      omega
    have hwalk := opWalk_flatten h.valid hdr hfuel
    rw [← hbuf] at hwalk
    rw [RecordBuf.opViews, hmin, hwalk]
    exact filterMap_chunksAt _ _

variable (xxh3 : Bytes → UInt64)

/-- The header goes over the first 24 bytes, its checksum over the next 8. -/
theorem splice_header {hdr head : Bytes} (flat : Bytes) (hlen : hdr.length = recordHeaderLen)
    (hhead : head.length = 24) :
    splice (splice (hdr ++ flat) 0 head) 24 (putU64 (recordSum xxh3 (splice (hdr ++ flat) 0 head)))
      = head ++ (putU64 (xxh3 (head ++ flat)) ++ flat) := by
  have hsum : recordSum xxh3 (head ++ (hdr.drop 24 ++ flat)) = xxh3 (head ++ flat) := by
    rw [recordSum, range_zero_append hhead, ← List.append_assoc, List.drop_left']
    simp [hhead, hlen, recordHeaderLen]
  have h1 := splice_append (a := []) (b := hdr.drop 24 ++ flat)
    (show (hdr.take 24).length = head.length by simp [hhead, hlen, recordHeaderLen])
  have h2 := splice_append (a := head) (b := flat)
    (show (hdr.drop 24).length = (putU64 (xxh3 (head ++ flat))).length by
      simp [hlen, recordHeaderLen])
  rw [List.nil_append, List.nil_append, ← List.append_assoc, List.take_append_drop,
    List.length_nil] at h1
  rw [hhead] at h2
  rw [h1, hsum, h2]

/-- Sealing what is held gives exactly the bytes of a sealed record. -/
theorem sealed_bytes {firstSeq : UInt64} {sealed : RecordBuf} (h : Holds b cs)
    (hs : b.seal xxh3 firstSeq = .ok sealed) :
    ∃ r : SealedRecord, r.firstSeq = firstSeq ∧ r.ops = cs ∧ sealed.buf = r.bytes xxh3 := by
  unfold RecordBuf.seal at hs
  split_ifs at hs with hops hmax hseq
  cases hs
  push Not at hseq
  have hne : cs ≠ [] := by
    rintro rfl
    exact hops (by simp [h.ops])
  rcases h.buf with ⟨rfl, -⟩ | ⟨hdr, hlen, hbuf⟩
  · exact absurd rfl hne
  · have hsize : b.buf.length = recordHeaderLen + cs.flatten.length := by
      rw [hbuf, List.length_append, hlen]
    have hover : firstSeq.toNat + (cs.length - 1) < 2 ^ 64 := by
      simpa [seqOverflows, h.ops] using hseq.2
    refine ⟨⟨firstSeq, cs, hne, h.valid, by omega, hseq.1, hover⟩, rfl, rfl, ?_⟩
    have hhead : (recordHead b.buf.length firstSeq b.ops).length = 24 := by simp [recordHead]
    have hsplice := splice_header xxh3 cs.flatten hlen hhead
    rw [← hbuf] at hsplice
    dsimp only
    rw [hsplice]
    simp only [SealedRecord.bytes, SealedRecord.head, SealedRecord.len, hsize, h.ops]

end Holds

/-! ## The round trip -/

/-- Every op of an accepted sequence of pushes has a view, and the view reads
    as what was pushed. -/
theorem pushAll_views {ps : List Push} {b b' : RecordBuf} (hp : pushAll ps b = .ok b') :
    ∀ p ∈ ps, ∃ v, OpView.trusted p.bytes = some v ∧ v.read = some p.op := by
  induction ps generalizing b with
  | nil => simp
  | cons p ps ih =>
    rw [pushAll, List.foldlM_cons] at hp
    cases happ : p.apply b with
    | error e => simp [happ, bind, Except.bind] at hp
    | ok b₁ =>
      simp only [happ, bind, Except.bind] at hp
      intro q hq
      rcases List.mem_cons.mp hq with rfl | hq
      · exact (apply_ok happ).2.2
      · exact ih hp q hq

/-- The staged walk of accepted pushes reads as the pushed ops. -/
theorem record_reads {ps : List Push} {b : RecordBuf} (hp : pushAll ps RecordBuf.new = .ok b) :
    b.opViews.mapM OpView.read = some (ps.map Push.op) := by
  have hviews := pushAll_views hp
  have hholds := Holds.new.pushAll hp
  rw [hholds.opViews, List.nil_append]
  clear hp hholds
  induction ps with
  | nil => rfl
  | cons p ps ih =>
    obtain ⟨v, hv, hread⟩ := hviews p (by simp)
    have hrest := ih fun q hq => hviews q (by simp [hq])
    rw [List.map_cons, List.filterMap_cons_some hv, List.mapM_cons, hread, hrest]
    rfl

/-- Ops read one by one, each with its number. -/
theorem seqOps_read {ps : List Push} (n : Nat)
    (h : ∀ p ∈ ps, ∃ v, OpView.trusted p.bytes = some v ∧ v.read = some p.op) :
    (((((ps.map Push.bytes).zipIdx n).map fun p => (p.2, p.1)).filterMap fun q =>
        (OpView.trusted q.2).map fun v => (q.1, v)).map fun p => (p.1, p.2.read))
      = (ps.zipIdx n).map fun q => (q.2, some q.1.op) := by
  induction ps generalizing n with
  | nil => rfl
  | cons p ps ih =>
    obtain ⟨v, hv, hread⟩ := h p (by simp)
    have hrest := ih (n + 1) (fun q hq => h q (by simp [hq]))
    simp only [List.map_cons, List.zipIdx_cons, List.filterMap_cons, hv, Option.map_some, hread,
      hrest]

/-- The views alone, numbers dropped. -/
theorem seqOps_views (cs : List Bytes) (n : Nat) :
    ((((cs.zipIdx n).map fun p => (p.2, p.1)).filterMap fun q =>
        (OpView.trusted q.2).map fun v => (q.1, v)).map Prod.snd) = cs.filterMap OpView.trusted := by
  induction cs generalizing n with
  | nil => rfl
  | cons c cs ih =>
    cases hc : OpView.trusted c with
    | none => simpa [List.zipIdx_cons, hc] using ih (n + 1)
    | some v => simpa [List.zipIdx_cons, hc] using ih (n + 1)

/-- What is sealed is found by `next_record` wherever it lies in an image, and
    reads as what was pushed, numbered from the first. -/
theorem Holds.sealed_reads (xxh3 : Bytes → UInt64) {ps : List Push} {b sealed : RecordBuf}
    {firstSeq : UInt64} (h : Holds b (ps.map Push.bytes))
    (hviews : ∀ p ∈ ps, ∃ v, OpView.trusted p.bytes = some v ∧ v.read = some p.op)
    (hseal : b.seal xxh3 firstSeq = .ok sealed) (pre post : Bytes) :
    ∃ r : Record,
      nextRecord xxh3 (pre ++ (sealed.buf ++ post)) pre.length = .ok (.record r) ∧
      r.firstSeq = firstSeq.toNat ∧ r.opCount = ps.length ∧
      (r.ops.map fun p => (p.1, p.2.2.read))
        = (ps.zipIdx firstSeq.toNat).map (fun q => (q.2, some q.1.op)) ∧
      b.opViews = r.ops.map (fun p => p.2.2) := by
  obtain ⟨r, hfirst, hops, hbytes⟩ := h.sealed_bytes xxh3 hseal
  have hread := r.ops_toRecord xxh3 pre.length
  rw [SealedRecord.seqOps, hfirst, hops] at hread
  refine ⟨r.toRecord xxh3 pre.length, ?_, ?_, ?_, ?_, ?_⟩
  · rw [hbytes, r.nextRecord_sealed]
  · rw [r.toRecord_firstSeq, hfirst]
  · rw [r.toRecord_opCount, hops, List.length_map]
  · have h := congrArg (List.map fun p : Nat × OpView => (p.1, p.2.read)) hread
    rw [List.map_map] at h
    exact h.trans (seqOps_read _ hviews)
  · have h' := congrArg (List.map Prod.snd) hread
    rw [List.map_map, seqOps_views] at h'
    exact h.opViews.trans h'.symm

/-- Whatever sequence of pushes the encoder accepts, the staged walk gives the
    pushed ops back; and once it is sealed, `next_record` finds the record
    wherever it lies in an image, with its first number and its count, and its
    ops are the pushed ones in order, numbered from the first. A segment reads
    back with its byte range, or with none. -/
theorem record_round_trip (xxh3 : Bytes → UInt64) {ps : List Push} {b : RecordBuf}
    (hpush : pushAll ps RecordBuf.new = .ok b) :
    b.opViews.map OpView.read = ps.map (fun p => some p.op) ∧
    (∀ key segs, Push.segments key segs ∈ ps → ∀ s ∈ segs, s.toView.byteRange = s.byteRange) ∧
    ∀ (firstSeq : UInt64) (sealed : RecordBuf), b.seal xxh3 firstSeq = .ok sealed →
      ∀ pre post : Bytes, ∃ r : Record,
        nextRecord xxh3 (pre ++ (sealed.buf ++ post)) pre.length = .ok (.record r) ∧
        r.firstSeq = firstSeq.toNat ∧ r.opCount = ps.length ∧
        (r.ops.map fun p => (p.1, p.2.2.read))
          = (ps.zipIdx firstSeq.toNat).map (fun q => (q.2, some q.1.op)) ∧
        b.opViews = r.ops.map (fun p => p.2.2) := by
  have hholds := Holds.new.pushAll hpush
  rw [List.nil_append] at hholds
  have hviews := pushAll_views hpush
  refine ⟨?_, fun _ _ _ s _ => byteRange_toView s, ?_⟩
  · rw [hholds.opViews, ← seqOps_views _ 0, List.map_map]
    have h := congrArg (List.map Prod.snd) (seqOps_read 0 hviews)
    rw [List.map_map, List.map_map] at h
    have hfst := congrArg (List.map fun p : Push => some p.op) (List.zipIdx_map_fst 0 ps)
    rw [List.map_map] at hfst
    exact h.trans hfst
  · intro firstSeq sealed hseal pre post
    exact hholds.sealed_reads xxh3 hviews hseal pre post

/-- An upsert with an empty title and no etag, then a pin, sealed from sequence
    number 41 and read from the middle of an image. -/
theorem record_round_trip_upsert_pin :
    ∃ (b sealed : RecordBuf) (r : Record),
      pushAll [.upsert ⟨"a", 9, 1, 2, some "", some "x", none, false⟩ 0, .pin 9 true] RecordBuf.new
        = .ok b ∧
      b.seal (fun _ => 7) 41 = .ok sealed ∧
      nextRecord (fun _ => 7) ([1, 2, 3] ++ (sealed.buf ++ [4])) 3 = .ok (.record r) ∧
      (r.ops.map fun p => (p.1, p.2.2.read))
        = [(41, some (.upsert ⟨9, 1, 2, 0, "a", some "", some "x", none⟩)),
           (42, some (.pin 9 true))] := by
  obtain ⟨r, hr, -, -, hops, -⟩ := (@record_round_trip (fun _ => 7)
    [.upsert ⟨"a", 9, 1, 2, some "", some "x", none, false⟩ 0, .pin 9 true] _ rfl).2.2
    41 _ rfl [1, 2, 3] [4]
  exact ⟨_, _, r, rfl, rfl, hr, hops⟩

end GraphR.Wal
