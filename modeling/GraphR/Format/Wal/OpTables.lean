import GraphR.Library.Faults
import GraphR.Format.Wal.OpLayout

/-! # Op layouts: the entry tables

    Segments, edges and attributes: a count, a table of fixed-width entries
    and, for segments and attributes, the strings of the entries in the same
    order. The check and the read are followed by induction on the entries
    left; what was passed is `pre` (up to the next entry) and `mid` (up to the
    next string). -/

namespace GraphR.Wal

open ByteLib

/-! ## Segments -/

/-- What the accessors of a segment give back: depth at least 1, no byte range
    as the flag. -/
def SegmentRecord.toView (s : SegmentRecord) : SegView :=
  { label := s.label, byteStart := (segRange s).1, byteLen := (segRange s).2.1,
    importance := s.importance, depth := max s.depth 1, flags := (segRange s).2.2 }

/-- A byte range reads back as itself, a missing one as none. -/
theorem byteRange_toView (s : SegmentRecord) : s.toView.byteRange = s.byteRange := by
  cases h : s.byteRange <;>
    simp [SegView.byteRange, SegmentRecord.toView, segRange, h, sflags.noRange]

@[simp] theorem length_segEntryBytes (s : SegmentRecord) : (segEntryBytes s).length = 16 := by
  simp [segEntryBytes]

section segsStep
variable {op pre tail : Bytes} {s : SegmentRecord} {e : Nat}

theorem u16At_segEntry_len (hop : op = pre ++ (segEntryBytes s ++ tail)) (he : pre.length = e)
    (h : strLen s.label ≤ maxLabel) : (u16At op (e + 10)).toNat = strLen s.label := by
  subst hop he
  rw [u16At_append_right (by omega)]
  simp [segEntryBytes, u16At_append_right, toNat_len16 h]

theorem u16At_segEntry_pad (hop : op = pre ++ (segEntryBytes s ++ tail)) (he : pre.length = e) :
    u16At op (e + 14) = 0 := by
  subst hop he
  rw [u16At_append_right (by omega)]
  simp [segEntryBytes, u16At_append_right]
  rfl

theorem reads_segEntry (hop : op = pre ++ (segEntryBytes s ++ tail)) (he : pre.length = e) :
    getU32 op e = some (segRange s).1 ∧ getU32 op (e + 4) = some (segRange s).2.1 ∧
    getU16 op (e + 8) = some s.importance ∧ getByte op (e + 12) = some (max s.depth 1) ∧
    getByte op (e + 13) = some (segRange s).2.2 := by
  have hlen : e + 16 ≤ op.length := by subst hop he; simp
  rw [getU32_of_inBounds (by omega), getU32_of_inBounds (by omega), getU16_of_inBounds (by omega),
    getByte_of_lt (by omega), getByte_of_lt (by omega)]
  subst hop he
  refine ⟨?_, ?_, ?_, ?_, ?_⟩
  · rw [u32At_append_right le_rfl]; simp [segEntryBytes]
  · rw [u32At_append_right (by omega)]; simp [segEntryBytes, u32At_append_right]
  · rw [u16At_append_right (by omega)]; simp [segEntryBytes, u16At_append_right]
  · rw [byteAt_append_right (by omega)]; simp [segEntryBytes, byteAt_append_right]
  · rw [byteAt_append_right (by omega)]; simp [segEntryBytes, byteAt_append_right]

end segsStep

/-- The bytes of the labels of `segs`, in order. -/
def labelBytes (segs : List SegmentRecord) : Bytes := segs.flatMap fun s => strBytes s.label

section segsRun
variable {op : Bytes}

/-- Entry `i` and label `i` are peeled off together. -/
theorem segs_split {pre mid : Bytes} {s : SegmentRecord} {rest : List SegmentRecord}
    (hop : op = pre ++ ((s :: rest).flatMap segEntryBytes ++ (mid ++ labelBytes (s :: rest)))) :
    op = (pre ++ segEntryBytes s) ++ (rest.flatMap segEntryBytes ++
      ((mid ++ strBytes s.label) ++ labelBytes rest)) := by
  simpa [labelBytes] using hop

theorem range_label {pre mid : Bytes} {s : SegmentRecord} {rest : List SegmentRecord} {pos : Nat}
    (hop : op = pre ++ ((s :: rest).flatMap segEntryBytes ++ (mid ++ labelBytes (s :: rest))))
    (hpos : pos = pre.length + 16 * (rest.length + 1) + mid.length) :
    range op pos (strLen s.label) = strBytes s.label ∧ pos + strLen s.label ≤ op.length := by
  have hlen := length_flatMap_const length_segEntryBytes (s :: rest)
  rw [List.length_cons] at hlen
  have hassoc : op = (pre ++ (s :: rest).flatMap segEntryBytes ++ mid) ++
      (strBytes s.label ++ labelBytes rest) := by
    rw [hop]; simp [labelBytes]
  have hle : (pre ++ (s :: rest).flatMap segEntryBytes ++ mid).length = pos := by
    simp only [List.length_append, hlen]; omega
  rw [hassoc]
  constructor
  · rw [range_append_right (by omega), hle, Nat.sub_self, strLen, range_zero_append rfl]
  · rw [List.length_append, hle, List.length_append, strLen]
    omega

theorem checkSegEntries_run {rest : List SegmentRecord}
    (hcap : ∀ s ∈ rest, strLen s.label ≤ maxLabel) {pre mid : Bytes} (i pos : Nat)
    (hop : op = pre ++ (rest.flatMap segEntryBytes ++ (mid ++ labelBytes rest)))
    (hpre : pre.length = segsFixed + i * segEntry)
    (hpos : pos = pre.length + 16 * rest.length + mid.length) :
    checkSegEntries op rest.length i pos = .ok op.length := by
  induction rest generalizing pre mid i pos with
  | nil =>
    subst hop
    simp [checkSegEntries, hpos, labelBytes]
  | cons s rest ih =>
    have hs := hcap s (by simp)
    obtain ⟨hlabel, hin⟩ := range_label hop hpos
    have hentry : op = pre ++ (segEntryBytes s ++
        (rest.flatMap segEntryBytes ++ (mid ++ labelBytes (s :: rest)))) := by
      simpa using hop
    have hrest := ih (fun t ht => hcap t (by simp [ht])) (i + 1) (pos + strLen s.label)
      (segs_split hop) (by simp [hpre, segEntry]; omega) (by simp [strLen, hpos]; omega)
    rw [List.length_cons, checkSegEntries]
    simp only [u16At_segEntry_len hentry hpre hs, u16At_segEntry_pad hentry hpre, hlabel]
    rw [if_neg (by simp; omega), utf8_strBytes]
    exact hrest

theorem walkSegs_run {rest : List SegmentRecord}
    (hcap : ∀ s ∈ rest, strLen s.label ≤ maxLabel) {pre mid : Bytes} (i pos : Nat)
    (hop : op = pre ++ (rest.flatMap segEntryBytes ++ (mid ++ labelBytes rest)))
    (hpre : pre.length = segsFixed + i * segEntry)
    (hpos : pos = pre.length + 16 * rest.length + mid.length) :
    SegsView.walk op rest.length i pos = some (rest.map SegmentRecord.toView) := by
  induction rest generalizing pre mid i pos with
  | nil => rfl
  | cons s rest ih =>
    have hs := hcap s (by simp)
    obtain ⟨hlabel, hin⟩ := range_label hop hpos
    have hentry : op = pre ++ (segEntryBytes s ++
        (rest.flatMap segEntryBytes ++ (mid ++ labelBytes (s :: rest)))) := by
      simpa using hop
    have hrest := ih (fun t ht => hcap t (by simp [ht])) (i + 1) (pos + strLen s.label)
      (segs_split hop) (by simp [hpre, segEntry]; omega) (by simp [strLen, hpos]; omega)
    have hlen : getU16 op (segsFixed + i * segEntry + 10) = some (len16 s.label) := by
      have hroom : segsFixed + i * segEntry + 16 ≤ op.length := by rw [hentry]; simp [hpre]
      rw [getU16_of_inBounds (by omega)]
      exact congrArg some (UInt16.toNat_inj.mp (by
        rw [u16At_segEntry_len hentry hpre hs, toNat_len16 hs]))
    have htext : text op pos (strLen s.label) = some s.label := by
      rw [text_of_inBounds hin, hlabel, fromUtf8_strBytes]
    obtain ⟨h1, h2, h3, h4, h5⟩ := reads_segEntry hentry hpre
    rw [List.length_cons, SegsView.walk]
    simp only [hlen, toNat_len16 hs, htext, h1, h2, h3, h4, h5, hrest, Option.bind_eq_bind,
      Option.bind_some, List.map_cons, SegmentRecord.toView]

end segsRun

section segsOp
variable (key : UrlKey) (segs : List SegmentRecord)

def segsOp : Bytes := opBytes opSegs 0 key (segsBody segs)

/-- What a segment set starts with: everything before the entries. -/
def segsHead : Bytes :=
  putU32 (UInt32.ofNat (16 + (segsBody segs).length)) ++ ([opSegs, 0, 0, 0] ++ (putU64 key ++
    [UInt8.ofNat segs.length, 0, 0, 0, 0, 0, 0, 0]))

theorem length_segsHead : (segsHead key segs).length = segsFixed := by
  simp [segsHead, segsFixed, opHeaderLen]

theorem segsOp_eq :
    segsOp key segs = segsHead key segs ++ (segs.flatMap segEntryBytes ++ ([] ++ labelBytes segs)) := by
  simp [segsOp, opBytes, segsBody, segsHead, labelBytes]

/-- The caps `push_segments` checks. -/
def segsFit (segs : List SegmentRecord) : Prop :=
  segs.length ≤ maxSegs ∧ ∀ s ∈ segs, strLen s.label ≤ maxLabel

theorem length_segsOp :
    (segsOp key segs).length = segsFixed + 16 * segs.length + (labelBytes segs).length := by
  rw [segsOp_eq, List.length_append, length_segsHead, List.length_append,
    length_flatMap_const length_segEntryBytes, List.nil_append]
  omega

theorem byteAt_segsOp_count (h : segsFit segs) :
    (byteAt (segsOp key segs) 16).toNat = segs.length := by
  have hm : maxSegs = 128 := rfl
  have := h.1
  simp [segsOp, byteAt_opBytes, segsBody]
  omega

theorem checkSegs_segsOp (h : segsFit segs) : checkSegs (segsOp key segs) = .ok () := by
  have hsize := length_segsOp key segs
  have hzero : zeros (range (segsOp key segs) 17 7) = true := by
    rw [segsOp, range_opBytes (by omega)]
    simp [segsBody]
    rfl
  have hcount := byteAt_segsOp_count key segs h
  have hrun := checkSegEntries_run h.2 0 (segsFixed + segs.length * segEntry) (segsOp_eq key segs)
    (by rw [length_segsHead]; simp) (by rw [length_segsHead]; simp [segEntry]; omega)
  have := h.1
  rw [checkSegs, if_neg (by simp [hzero, hcount]; omega)]
  simp only [hcount, hrun]
  rw [if_neg (by unfold segEntry; omega)]
  simp [bind, Except.bind]

theorem length_labelBytes_le {segs : List SegmentRecord}
    (h : ∀ s ∈ segs, strLen s.label ≤ maxLabel) :
    (labelBytes segs).length ≤ maxLabel * segs.length := by
  induction segs with
  | nil => simp [labelBytes]
  | cons s segs ih =>
    have hs := h s (by simp)
    have hrest := ih (fun t ht => h t (by simp [ht]))
    simp only [labelBytes, List.flatMap_cons, List.length_append, List.length_cons] at hrest ⊢
    unfold strLen at hs
    rw [Nat.mul_succ]
    omega

theorem validOp_segs (h : segsFit segs) : ValidOp (segsOp key segs) := by
  have hcheck := checkSegs_segsOp key segs h
  apply validOp_opBytes
  · have hlabels := length_labelBytes_le h.2
    have hcount := h.1
    rw [← segsOp, length_segsOp]
    unfold maxLabel at hlabels
    unfold maxSegs at hcount
    unfold segsFixed opHeaderLen
    have hm : maxOp = 1048782 := rfl
    omega
  · decide
  · simp [checkKind, opUpsert, opSegs]
    exact hcheck
  · simp [OpView.trusted, opUpsert, opSegs, opHeaderLen]

theorem trusted_segs : OpView.trusted (segsOp key segs) = some (.segs (segsOp key segs)) := by
  simp [segsOp, OpView.trusted, opUpsert, opSegs, opHeaderLen]

theorem read_segs (h : segsFit segs) :
    OpView.read (.segs (segsOp key segs)) = some (.segs key (segs.map SegmentRecord.toView)) := by
  have hsize := length_segsOp key segs
  have hfix : segsFixed = 24 := rfl
  have hkey : SegsView.key (segsOp key segs) = some key := getU64_opBytes_key _ _ _ _
  have hlen : SegsView.len (segsOp key segs) = some segs.length := by
    rw [SegsView.len, getByte_of_lt (by omega), Option.map_some, byteAt_segsOp_count key segs h]
  have hrun := walkSegs_run h.2 0 (segsFixed + segs.length * segEntry) (segsOp_eq key segs)
    (by rw [length_segsHead]; simp) (by rw [length_segsHead]; simp [segEntry]; omega)
  simp [OpView.read, SegsView.iter, hkey, hlen, hrun]

end segsOp

/-! ## Edges -/

@[simp] theorem length_edgeEntryBytes (e : Edge) : (edgeEntryBytes e).length = 12 := by
  simp [edgeEntryBytes]

theorem reads_edgeEntry {op pre tail : Bytes} {e : Edge} {i : Nat}
    (hop : op = pre ++ (edgeEntryBytes e ++ tail)) (hi : pre.length = i) :
    getU64 op i = some e.dst ∧ getByte op (i + 8) = some e.etype ∧
    getByte op (i + 9) = some e.eflags ∧ getU16 op (i + 10) = some e.weight := by
  have hlen : i + 12 ≤ op.length := by subst hop hi; simp
  rw [getU64_of_inBounds (by omega), getByte_of_lt (by omega), getByte_of_lt (by omega),
    getU16_of_inBounds (by omega)]
  subst hop hi
  refine ⟨?_, ?_, ?_, ?_⟩
  · rw [u64At_append_right le_rfl]; simp [edgeEntryBytes]
  · rw [byteAt_append_right (by omega)]; simp [edgeEntryBytes, byteAt_append_right]
  · rw [byteAt_append_right (by omega)]; simp [edgeEntryBytes, byteAt_append_right]
  · rw [u16At_append_right (by omega)]; simp [edgeEntryBytes, u16At_append_right]

section edges
variable (key : UrlKey) (edges : List Edge)

def edgesOp : Bytes := opBytes opEdges 0 key (edgesBody edges)

/-- The cap and the order `push_edges` checks. -/
def edgesFit (edges : List Edge) : Prop :=
  edges.length ≤ maxEdges ∧ RecordBuf.notAscending (edges.map Edge.dst) = false

theorem length_edgesOp : (edgesOp key edges).length = edgesFixed + 12 * edges.length := by
  rw [edgesOp, length_opBytes, edgesBody, List.length_append, List.length_append,
    length_flatMap_const length_edgeEntryBytes]
  simp [edgesFixed, opHeaderLen]
  omega

theorem u16At_edgesOp_count (h : edgesFit edges) :
    (u16At (edgesOp key edges) 16).toNat = edges.length := by
  have hm : maxEdges = 4096 := rfl
  have := h.1
  simp [edgesOp, u16At_opBytes, edgesBody]
  omega

theorem drop_edgesOp : (edgesOp key edges).drop edgesFixed = edges.flatMap edgeEntryBytes := by
  have hsplit : edgesOp key edges
      = (putU32 (UInt32.ofNat (16 + (edgesBody edges).length)) ++ ([opEdges, 0, 0, 0] ++
          (putU64 key ++ (putU16 (UInt16.ofNat edges.length) ++ [0, 0, 0, 0, 0, 0])))) ++
        edges.flatMap edgeEntryBytes := by
    simp [edgesOp, opBytes, edgesBody]
  rw [hsplit, List.drop_left']
  simp [edgesFixed, opHeaderLen]

/-- The order pass over the entries from `i` on, the last one passed `prev`. -/
theorem checkEdgeEntries_run {op : Bytes} {rest : List Edge} (pre : Bytes) (i : Nat)
    (prev : Option UInt64) (hop : op = pre ++ rest.flatMap edgeEntryBytes)
    (hpre : pre.length = edgesFixed + i * edgeEntry)
    (hasc : RecordBuf.notAscending (prev.toList ++ rest.map Edge.dst) = false) :
    checkEdgeEntries op rest.length i prev = .ok () := by
  induction rest generalizing pre i prev with
  | nil => rfl
  | cons e rest ih =>
    have hdst : u64At op (edgesFixed + i * edgeEntry) = e.dst := by
      rw [hop, ← hpre, u64At_append_right le_rfl, Nat.sub_self]
      simp [edgeEntryBytes]
    have hrest := ih (pre ++ edgeEntryBytes e) (i + 1) (some e.dst) (by simpa using hop)
      (by simp [hpre, edgeEntry]; omega)
      (by
        cases prev with
        | none => simpa using hasc
        | some p =>
          simp only [Option.toList_some, List.map_cons, List.cons_append, List.nil_append,
            RecordBuf.notAscending, Bool.or_eq_false_iff] at hasc
          simpa using hasc.2)
    rw [List.length_cons, checkEdgeEntries]
    simp only [hdst]
    rw [if_neg, hrest]
    cases prev with
    | none => simp
    | some p =>
      simp only [Option.toList_some, List.map_cons, List.cons_append, List.nil_append,
        RecordBuf.notAscending, Bool.or_eq_false_iff] at hasc
      simpa using hasc.1

theorem checkEdges_edgesOp (h : edgesFit edges) : checkEdges (edgesOp key edges) = .ok () := by
  have hsize := length_edgesOp key edges
  have hcount := u16At_edgesOp_count key edges h
  have hzero : zeros (range (edgesOp key edges) 18 6) = true := by
    rw [edgesOp, range_opBytes (by omega)]
    simp [edgesBody, range_append_right]
    rfl
  have hrun := checkEdgeEntries_run ((edgesOp key edges).take edgesFixed) 0 none
    (by rw [← drop_edgesOp key edges, List.take_append_drop])
    (by rw [List.length_take, hsize]; simp) (by simpa using h.2)
  have := h.1
  rw [checkEdges, if_neg (by simp [hzero]; omega)]
  simp only [hcount]
  rw [if_neg (by unfold edgeEntry; omega), hrun]

theorem validOp_edges (h : edgesFit edges) : ValidOp (edgesOp key edges) := by
  have hcheck := checkEdges_edgesOp key edges h
  apply validOp_opBytes
  · have hcount := h.1
    rw [← edgesOp, length_edgesOp]
    unfold maxEdges at hcount
    unfold edgesFixed opHeaderLen
    have hm : maxOp = 1048782 := rfl
    omega
  · decide
  · simp [checkKind, opUpsert, opSegs, opEdges]
    exact hcheck
  · simp [OpView.trusted, opUpsert, opSegs, opEdges, opHeaderLen]

theorem trusted_edges : OpView.trusted (edgesOp key edges) = some (.edges (edgesOp key edges)) := by
  simp [edgesOp, OpView.trusted, opUpsert, opSegs, opEdges, opHeaderLen]

/-- Edge `i` of the entries, read by index. -/
theorem edgeAt_flatMap (i : Nat) (hi : i < edges.length) :
    edgeAt (edges.flatMap edgeEntryBytes) i = some edges[i] := by
  have hsplit : edges.flatMap edgeEntryBytes = (edges.take i).flatMap edgeEntryBytes ++
      (edgeEntryBytes edges[i] ++ (edges.drop (i + 1)).flatMap edgeEntryBytes) := by
    rw [← List.flatMap_cons, ← List.drop_eq_getElem_cons hi, ← List.flatMap_append,
      List.take_append_drop]
  have hpre : ((edges.take i).flatMap edgeEntryBytes).length = i * edgeEntry := by
    rw [length_flatMap_const length_edgeEntryBytes, List.length_take, Nat.min_eq_left (by omega),
      edgeEntry, Nat.mul_comm]
  obtain ⟨h1, h2, h3, h4⟩ := reads_edgeEntry hsplit hpre
  rw [edgeAt, h1, h2, h3, h4]
  rfl

theorem read_edges : OpView.read (.edges (edgesOp key edges)) = some (.edges key edges) := by
  have hkey : EdgesView.key (edgesOp key edges) = some key := getU64_opBytes_key _ _ _ _
  have hentries : EdgesView.entries (edgesOp key edges) = some (edges.flatMap edgeEntryBytes) := by
    rw [EdgesView.entries, if_pos (by rw [length_edgesOp]; omega), drop_edgesOp]
  have hcount : edgeCount (edges.flatMap edgeEntryBytes) = edges.length := by
    rw [edgeCount, length_flatMap_const length_edgeEntryBytes, edgeEntry]
    omega
  have hmap : (List.range edges.length).mapM (edgeAt (edges.flatMap edgeEntryBytes)) = some edges := by
    exact FaultLib.mapM_range_eq_some edges _ (edgeAt_flatMap edges)
  simp [OpView.read, EdgesView.iter, hkey, hentries, hcount, hmap]

end edges

/-! ## Attributes -/

/-- The value of an attribute: its parts, joined. -/
def attrValue (a : AttrParts) : String := a.2.foldr (· ++ ·) ""

theorem strBytes_attrValue (a : AttrParts) : strBytes (attrValue a) = attrBytes a := by
  obtain ⟨k, parts⟩ := a
  induction parts with
  | nil => simp [attrValue, attrBytes]
  | cons p parts ih => simp_all [attrValue, attrBytes]

@[simp] theorem length_attrEntryBytes (a : AttrParts) : (attrEntryBytes a).length = 8 := by
  simp [attrEntryBytes]

/-- What the pass of `push_attr_parts` says about its first entry. -/
theorem attrPartsTotal_cons {prev : Option UInt8} {a : AttrParts} {rest : List AttrParts}
    {total : Nat} (h : RecordBuf.attrPartsTotal prev (a :: rest) = .ok total) :
    prev.any (fun p => a.1 ≤ p) = false ∧ (attrBytes a).length ≤ maxAttrLen ∧
    ∃ t, RecordBuf.attrPartsTotal (some a.1) rest = .ok t ∧ total = (attrBytes a).length + t := by
  rw [RecordBuf.attrPartsTotal] at h
  split_ifs at h with h1 h2
  cases ht : RecordBuf.attrPartsTotal (some a.1) rest with
  | error e => simp [ht, bind, Except.bind] at h
  | ok t =>
    simp [ht, bind, Except.bind] at h
    exact ⟨by simpa using h1, by omega, t, rfl, h.symm⟩

section attrsRun
variable {op : Bytes}

theorem u32At_attrEntry {pre tail : Bytes} {a : AttrParts} {e : Nat}
    (hop : op = pre ++ (attrEntryBytes a ++ tail)) (he : pre.length = e)
    (h : (attrBytes a).length ≤ maxAttrLen) :
    (u32At op (e + 4)).toNat = (attrBytes a).length := by
  have hm : maxAttrLen = 262144 := rfl
  subst hop he
  rw [u32At_append_right (by omega)]
  simp [attrEntryBytes]
  omega

theorem byteAt_attrEntry {pre tail : Bytes} {a : AttrParts} {e : Nat}
    (hop : op = pre ++ (attrEntryBytes a ++ tail)) (he : pre.length = e) :
    byteAt op e = a.1 ∧ zeros (range op (e + 1) 3) = true := by
  subst hop he
  rw [byteAt_append_right le_rfl, range_append_right (by omega)]
  constructor
  · simp [attrEntryBytes]
  · simp [attrEntryBytes]
    rfl

theorem attrs_split {pre mid : Bytes} {a : AttrParts} {rest : List AttrParts}
    (hop : op = pre ++ ((a :: rest).flatMap attrEntryBytes ++ (mid ++ (a :: rest).flatMap attrBytes))) :
    op = (pre ++ attrEntryBytes a) ++ (rest.flatMap attrEntryBytes ++
      ((mid ++ attrBytes a) ++ rest.flatMap attrBytes)) := by
  simpa using hop

theorem range_value {pre mid : Bytes} {a : AttrParts} {rest : List AttrParts} {pos : Nat}
    (hop : op = pre ++ ((a :: rest).flatMap attrEntryBytes ++ (mid ++ (a :: rest).flatMap attrBytes)))
    (hpos : pos = pre.length + 8 * (rest.length + 1) + mid.length) :
    range op pos (attrBytes a).length = attrBytes a ∧ pos + (attrBytes a).length ≤ op.length := by
  have hlen := length_flatMap_const length_attrEntryBytes (a :: rest)
  rw [List.length_cons] at hlen
  have hassoc : op = (pre ++ (a :: rest).flatMap attrEntryBytes ++ mid) ++
      (attrBytes a ++ rest.flatMap attrBytes) := by
    rw [hop]; simp
  have hle : (pre ++ (a :: rest).flatMap attrEntryBytes ++ mid).length = pos := by
    simp only [List.length_append, hlen]; omega
  rw [hassoc]
  constructor
  · rw [range_append_right (by omega), hle, Nat.sub_self, range_zero_append rfl]
  · rw [List.length_append, hle, List.length_append]
    omega

/-- Both passes over the attributes left, once `attr_parts_total` accepts them
    after `prev`. -/
theorem checkAttrEntries_run {rest : List AttrParts} {pre mid : Bytes} (i pos : Nat)
    (prev : Option UInt8) {total : Nat}
    (hok : RecordBuf.attrPartsTotal prev rest = .ok total)
    (hop : op = pre ++ (rest.flatMap attrEntryBytes ++ (mid ++ rest.flatMap attrBytes)))
    (hpre : pre.length = attrsFixed + i * attrEntry)
    (hpos : pos = pre.length + 8 * rest.length + mid.length) :
    checkAttrEntries op rest.length i prev pos = .ok op.length
      ∧ AttrsView.walk op rest.length i pos = some (rest.map fun a => (a.1, attrValue a))
      ∧ (rest.flatMap attrBytes).length = total := by
  induction rest generalizing pre mid i pos prev total with
  | nil =>
    cases hok
    subst hop
    exact ⟨by simp [checkAttrEntries, hpos], rfl, rfl⟩
  | cons a rest ih =>
    obtain ⟨hasc, hcap, total', htotal, rfl⟩ := attrPartsTotal_cons hok
    obtain ⟨hvalue, hin⟩ := range_value hop hpos
    have hentry : op = pre ++ (attrEntryBytes a ++
        (rest.flatMap attrEntryBytes ++ (mid ++ (a :: rest).flatMap attrBytes))) := by
      simpa using hop
    obtain ⟨hcheck, hwalk, hsum⟩ := ih (i + 1) (pos + (attrBytes a).length) (some a.1) htotal
      (attrs_split hop) (by simp [hpre, attrEntry]; omega) (by simp [hpos]; omega)
    have hlen := u32At_attrEntry hentry hpre hcap
    obtain ⟨hkey, hzero⟩ := byteAt_attrEntry hentry hpre
    have hroom : attrsFixed + i * attrEntry + 8 ≤ op.length := by rw [hentry]; simp [hpre]
    refine ⟨?_, ?_, by simp [hsum]⟩
    · rw [List.length_cons, checkAttrEntries]
      simp only [hlen, hkey, hzero, hvalue]
      rw [if_neg (by simp [hasc]; omega), ← strBytes_attrValue, utf8_strBytes]
      rw [strBytes_attrValue]
      exact hcheck
    · have htext : text op pos (attrBytes a).length = some (attrValue a) := by
        rw [text_of_inBounds hin, hvalue, ← strBytes_attrValue, fromUtf8_strBytes]
      rw [List.length_cons, AttrsView.walk, getU32_of_inBounds (by omega), getByte_of_lt (by omega), hkey]
      simp only [hlen, htext, hwalk, Option.bind_eq_bind, Option.bind_some, List.map_cons]

end attrsRun

section attrsOp
variable (key : UrlKey) (attrs : List AttrParts)

def attrsOp : Bytes := opBytes opAttrs 0 key (attrsBody attrs)

/-- What an attribute set starts with: everything before the entries. -/
def attrsHead : Bytes :=
  putU32 (UInt32.ofNat (16 + (attrsBody attrs).length)) ++ ([opAttrs, 0, 0, 0] ++ (putU64 key ++
    [UInt8.ofNat attrs.length, 0, 0, 0, 0, 0, 0, 0]))

theorem length_attrsHead : (attrsHead key attrs).length = attrsFixed := by
  simp [attrsHead, attrsFixed, opHeaderLen]

theorem attrsOp_eq :
    attrsOp key attrs
      = attrsHead key attrs ++ (attrs.flatMap attrEntryBytes ++ ([] ++ attrs.flatMap attrBytes)) := by
  simp [attrsOp, opBytes, attrsBody, attrsHead]

theorem length_attrsOp :
    (attrsOp key attrs).length = attrsFixed + 8 * attrs.length + (attrs.flatMap attrBytes).length := by
  rw [attrsOp_eq, List.length_append, length_attrsHead, List.length_append,
    length_flatMap_const length_attrEntryBytes, List.nil_append]
  omega

/-- What `push_attr_parts` checks. -/
def attrsFit (attrs : List AttrParts) : Prop :=
  attrs.length ≤ maxAttrs ∧ ∃ total, RecordBuf.attrPartsTotal none attrs = .ok total ∧
    attrsFixed + attrs.length * attrEntry + total ≤ maxOp

theorem byteAt_attrsOp_count (h : attrsFit attrs) :
    (byteAt (attrsOp key attrs) 16).toNat = attrs.length := by
  have hm : maxAttrs = 64 := rfl
  have := h.1
  simp [attrsOp, byteAt_opBytes, attrsBody]
  omega

theorem attrsOp_run (h : attrsFit attrs) :
    checkAttrEntries (attrsOp key attrs) attrs.length 0 none (attrsFixed + attrs.length * attrEntry)
        = .ok (attrsOp key attrs).length
      ∧ AttrsView.walk (attrsOp key attrs) attrs.length 0 (attrsFixed + attrs.length * attrEntry)
        = some (attrs.map fun a => (a.1, attrValue a))
      ∧ (attrsOp key attrs).length ≤ maxOp := by
  obtain ⟨-, total, htotal, hmax⟩ := h
  obtain ⟨hcheck, hwalk, hsum⟩ := checkAttrEntries_run 0 (attrsFixed + attrs.length * attrEntry)
    none htotal (attrsOp_eq key attrs) (by rw [length_attrsHead]; simp)
    (by rw [length_attrsHead]; simp [attrEntry]; omega)
  refine ⟨hcheck, hwalk, ?_⟩
  rw [length_attrsOp, hsum]
  unfold attrEntry at hmax
  omega

theorem checkAttrs_attrsOp (h : attrsFit attrs) : checkAttrs (attrsOp key attrs) = .ok () := by
  have hsize := length_attrsOp key attrs
  have hzero : zeros (range (attrsOp key attrs) 17 7) = true := by
    rw [attrsOp, range_opBytes (by omega)]
    simp [attrsBody]
    rfl
  have hcount := byteAt_attrsOp_count key attrs h
  have hrun := (attrsOp_run key attrs h).1
  have := h.1
  rw [checkAttrs, if_neg (by simp [hzero, hcount]; omega)]
  simp only [hcount, hrun]
  rw [if_neg (by unfold attrEntry; omega)]
  simp [bind, Except.bind]

theorem validOp_attrs (h : attrsFit attrs) : ValidOp (attrsOp key attrs) := by
  have hcheck := checkAttrs_attrsOp key attrs h
  apply validOp_opBytes
  · exact (attrsOp_run key attrs h).2.2
  · decide
  · simp [checkKind, opUpsert, opSegs, opEdges, opTouch, opRemove, opPin, opAttrs]
    exact hcheck
  · simp [OpView.trusted, opUpsert, opSegs, opEdges, opTouch, opRemove, opPin, opAttrs, opHeaderLen]

theorem trusted_attrs : OpView.trusted (attrsOp key attrs) = some (.attrs (attrsOp key attrs)) := by
  simp [attrsOp, OpView.trusted, opUpsert, opSegs, opEdges, opTouch, opRemove, opPin, opAttrs,
    opHeaderLen]

theorem read_attrs (h : attrsFit attrs) :
    OpView.read (.attrs (attrsOp key attrs))
      = some (.attrs key (attrs.map fun a => (a.1, attrValue a))) := by
  have hsize := length_attrsOp key attrs
  have hfix : attrsFixed = 24 := rfl
  have hkey : AttrsView.key (attrsOp key attrs) = some key := getU64_opBytes_key _ _ _ _
  have hlen : AttrsView.len (attrsOp key attrs) = some attrs.length := by
    rw [AttrsView.len, getByte_of_lt (by omega), Option.map_some, byteAt_attrsOp_count key attrs h]
  have hrun := (attrsOp_run key attrs h).2.1
  simp [OpView.read, AttrsView.iter, hkey, hlen, hrun]

end attrsOp

end GraphR.Wal
