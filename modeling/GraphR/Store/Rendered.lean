import GraphR.Store.Render
import GraphR.Store.Safe

/-! # Rendered nodes read back

    A section only grows while it is written, and a read that succeeds once gives
    the same over everything the section grows into (`Extends`). So each record is
    looked at when it is written, and the pass over the nodes keeps: every node
    written so far reads back (`NodePass.Holds`). -/

namespace GraphR

open Wal ByteLib TableLib BaseFile

namespace BaseFile

/-! ## Growing sections -/

/-- Every section of `s` is a start of the same section of `s'`. -/
def Extends (s s' : SectionKind → Bytes) : Prop := ∀ k, s k <+: s' k

theorem slice_extends {table table' r : Bytes} {width i : Nat} (h : table <+: table')
    (hr : slice table width i = some r) : slice table' width i = some r := by
  obtain ⟨post, rfl⟩ := h
  unfold slice at hr ⊢
  split_ifs at hr with hin
  have hend : i * width + width ≤ table.length := by rwa [← Nat.succ_mul]
  rw [if_pos (by rw [List.length_append]; omega), ← hr, recordAt, recordAt, range_append_left hend]

theorem getU16_extends {bs bs' : Bytes} {off : Nat} {v : UInt16} (h : bs <+: bs')
    (hv : getU16 bs off = some v) : getU16 bs' off = some v := by
  obtain ⟨post, rfl⟩ := h
  unfold getU16 at hv ⊢
  split_ifs at hv with hin
  have hend : off + 2 ≤ bs.length := hin
  have hin' : inBounds (bs ++ post) off 2 := by
    rw [inBounds, List.length_append]
    omega
  rw [if_pos hin', u16At_append_left hend, hv]

theorem text_extends {bs bs' : Bytes} {off len : Nat} {v : String} (h : bs <+: bs')
    (hv : text bs off len = some v) : text bs' off len = some v := by
  obtain ⟨post, rfl⟩ := h
  unfold text at hv ⊢
  split_ifs at hv with hin
  have hend : off + len ≤ bs.length := hin
  have hin' : inBounds (bs ++ post) off len := by
    rw [inBounds, List.length_append]
    omega
  rw [if_pos hin', range_append_left hend, hv]

theorem labelAt_extends {labels labels' : Bytes} {off : UInt32} {v : Option String}
    (h : labels <+: labels') (hv : labelAt labels off = some v) : labelAt labels' off = some v := by
  unfold labelAt at hv ⊢
  by_cases hno : off = noLabel
  · rwa [if_pos hno] at hv ⊢
  · rw [if_neg hno] at hv ⊢
    simp only [Option.bind_eq_bind, Option.bind_eq_some_iff] at hv ⊢
    obtain ⟨len, hlen, str, hstr, heq⟩ := hv
    exact ⟨len, getU16_extends h hlen, str, text_extends h hstr, heq⟩

section reads
variable {s s' : SectionKind → Bytes} (h : Extends s s')
include h

theorem segRec_extends {i : Nat} {r : SegRef} (hr : segRec s i = some r) :
    segRec s' i = some r := by
  unfold segRec at hr ⊢
  simp only [Option.bind_eq_bind, Option.bind_eq_some_iff] at hr ⊢
  obtain ⟨bs, hbs, label, hlabel, heq⟩ := hr
  exact ⟨bs, slice_extends (h .segs) hbs, label, labelAt_extends (h .labels) hlabel, heq⟩

theorem nodeRec_extends {i : Nat} {r : BaseRec} (hr : nodeRec s i = some r) :
    nodeRec s' i = some r := by
  unfold nodeRec at hr ⊢
  simp only [Option.bind_eq_bind, Option.bind_eq_some_iff] at hr ⊢
  obtain ⟨bs, hbs, url, hurl, title, htitle, snippet, hsnippet, etag, hetag, heq⟩ := hr
  exact ⟨bs, slice_extends (h .nodes) hbs, url, labelAt_extends (h .labels) hurl, title,
    labelAt_extends (h .labels) htitle, snippet, labelAt_extends (h .labels) hsnippet, etag,
    labelAt_extends (h .labels) hetag, heq⟩

theorem segRun_extends {i : Nat} {rs : List SegRef} (hr : segRun s i = some rs) :
    segRun s' i = some rs := by
  unfold segRun at hr ⊢
  simp only [Option.bind_eq_bind, Option.bind_eq_some_iff] at hr ⊢
  obtain ⟨bs, hbs, hrun⟩ := hr
  exact ⟨bs, slice_extends (h .nodes) hbs, FaultLib.mapM_mono (fun i _ r => segRec_extends h) hrun⟩

end reads

/-! ## One record -/

section node
variable (key : UrlKey) (m : NodeModel) (offs : LabelOffs) (segStart inDegree : UInt32)

@[simp] theorem length_writeNodeRec :
    (writeNodeRec key m offs segStart inDegree).length = nodeLen := by
  simp [writeNodeRec, nodeLen]

/-- A node record has each field where its accessor looks. -/
theorem fields_writeNodeRec :
    (NodeRec.urlKey (writeNodeRec key m offs segStart inDegree) = key ∧
      NodeRec.contentHash (writeNodeRec key m offs segStart inDegree) = m.contentHash ∧
      NodeRec.fetchedAtMs (writeNodeRec key m offs segStart inDegree) = m.fetchedAtMs ∧
      NodeRec.lastChangeMs (writeNodeRec key m offs segStart inDegree) = m.lastChangeMs) ∧
    (NodeRec.urlOff (writeNodeRec key m offs segStart inDegree) = offs.url ∧
      NodeRec.titleOff (writeNodeRec key m offs segStart inDegree) = offs.title ∧
      NodeRec.snippetOff (writeNodeRec key m offs segStart inDegree) = offs.snippet ∧
      NodeRec.etagOff (writeNodeRec key m offs segStart inDegree) = offs.etag) ∧
    (NodeRec.segStart (writeNodeRec key m offs segStart inDegree) = segStart ∧
      NodeRec.segCount (writeNodeRec key m offs segStart inDegree) = UInt16.ofNat m.segs.length ∧
      NodeRec.inDegree (writeNodeRec key m offs segStart inDegree) = inDegree) ∧
    NodeRec.flags (writeNodeRec key m offs segStart inDegree) = m.flags ∧
      NodeRec.intervalS (writeNodeRec key m offs segStart inDegree) = m.intervalS ∧
      NodeRec.checks (writeNodeRec key m offs segStart inDegree) = m.checks ∧
      NodeRec.changes (writeNodeRec key m offs segStart inDegree) = m.changes := by
  simp [NodeRec.urlKey, NodeRec.contentHash, NodeRec.fetchedAtMs, NodeRec.lastChangeMs,
    NodeRec.urlOff, NodeRec.titleOff, NodeRec.snippetOff, NodeRec.etagOff, NodeRec.segStart,
    NodeRec.segCount, NodeRec.inDegree, NodeRec.flags, NodeRec.intervalS, NodeRec.checks,
    NodeRec.changes, writeNodeRec, u64At_append_right, u32At_append_right, u16At_append_right]

end node

section seg
variable (sm : SegModel) (off : UInt32)

@[simp] theorem length_writeSegRec : (writeSegRec sm off).length = segLen := by
  simp [writeSegRec, segLen]

theorem fields_writeSegRec :
    SegRec.segKey (writeSegRec sm off) = sm.key ∧
    SegRec.byteStart (writeSegRec sm off) = sm.byteStart ∧
    SegRec.byteLen (writeSegRec sm off) = sm.byteLen ∧
    SegRec.labelOff (writeSegRec sm off) = off ∧
    SegRec.importance (writeSegRec sm off) = sm.importance ∧
    SegRec.depth (writeSegRec sm off) = sm.depth ∧
    SegRec.flags (writeSegRec sm off) = sm.flags := by
  simp [SegRec.segKey, SegRec.byteStart, SegRec.byteLen, SegRec.labelOff, SegRec.importance,
    SegRec.depth, SegRec.flags, writeSegRec, u32At_append_right, u16At_append_right,
    byteAt_append_right]

end seg

/-- The record a table ends with. -/
theorem slice_last {table r : Bytes} {width i : Nat} (hi : table.length = i * width)
    (hr : r.length = width) : slice (table ++ r) width i = some r := by
  unfold slice
  rw [if_pos (by rw [List.length_append, hi, hr, Nat.succ_mul]), recordAt,
    range_append_right (Nat.le_of_eq hi), hi, Nat.sub_self, range_zero_self hr]

/-! ## Labels -/

/-- A label just pushed. -/
theorem labelAt_pushLabel {labels : Bytes} {s : String} (hs : strLen s < 2 ^ 16)
    (hfit : (pushLabel labels s).2.length < 2 ^ 32) :
    labelAt (pushLabel labels s).2 (pushLabel labels s).1 = some (some s) := by
  have hlen : (pushLabel labels s).2.length = labels.length + (2 + strLen s) := by
    simp [pushLabel, putStr, strLen]
  have hoff : (pushLabel labels s).1.toNat = labels.length := by
    rw [pushLabel, UInt32.toNat_ofNat']
    exact Nat.mod_eq_of_lt (by omega)
  -- the offset of a heap below 4 GiB is not the mark for no label
  have hno : (pushLabel labels s).1 ≠ noLabel := by
    intro heq
    have hval := congrArg UInt32.toNat heq
    have hlast : noLabel.toNat = 2 ^ 32 - 1 := rfl
    omega
  unfold labelAt
  rw [if_neg hno, hoff, getU16_of_inBounds (by omega), Option.bind_eq_bind, Option.bind_some]
  have hcount : u16At (pushLabel labels s).2 labels.length = UInt16.ofNat (strLen s) := by
    rw [pushLabel, u16At_append_right le_rfl, Nat.sub_self, putStr, u16At_putU16_append]
  have hbytes : range (pushLabel labels s).2 (labels.length + 2) (strLen s) = strBytes s := by
    rw [pushLabel, range_append_right (Nat.le_add_right _ _), Nat.add_sub_cancel_left, putStr,
      range_append_right (by rw [length_putU16]), length_putU16, Nat.sub_self]
    exact range_zero_self rfl
  have hnat : (UInt16.ofNat (strLen s)).toNat = strLen s := by
    rw [UInt16.toNat_ofNat']
    exact Nat.mod_eq_of_lt hs
  rw [hcount, hnat, text_of_inBounds (by omega), hbytes, fromUtf8_strBytes]
  rfl

theorem pushOption_grows (labels : Bytes) (s : Option String) : labels <+: (pushOption labels s).2 := by
  cases s with
  | none => exact List.prefix_rfl
  | some s => exact List.prefix_append _ _

theorem labelAt_pushOption {labels : Bytes} {s : Option String} (hs : ∀ t, s = some t → strLen t < 2 ^ 16)
    (hfit : (pushOption labels s).2.length < 2 ^ 32) :
    labelAt (pushOption labels s).2 (pushOption labels s).1 = some s := by
  cases s with
  | none => exact if_pos rfl
  | some t => exact labelAt_pushLabel (hs t rfl) hfit

end BaseFile

/-- The labels of a node and of its segments. -/
def NodeModel.labels (m : NodeModel) : List String :=
  [m.url] ++ m.title.toList ++ m.snippet.toList ++ m.etag.toList ++ m.segs.map SegModel.label

/-- Each label has a length its heap entry can say. -/
def NodeModel.LabelsFit (m : NodeModel) : Prop := ∀ s ∈ m.labels, strLen s < 2 ^ 16

namespace BaseFile

namespace NodePass

/-- The node's own labels, each read at its offset. -/
theorem pushLabels_spec {labels : Bytes} {m : NodeModel} (hm : m.LabelsFit)
    (hfit : (pushLabels labels m).2.length < 2 ^ 32) :
    labels <+: (pushLabels labels m).2 ∧
    labelAt (pushLabels labels m).2 (pushLabels labels m).1.url
      = some (if m.url = "" then none else some m.url) ∧
    labelAt (pushLabels labels m).2 (pushLabels labels m).1.title = some m.title ∧
    labelAt (pushLabels labels m).2 (pushLabels labels m).1.snippet = some m.snippet ∧
    labelAt (pushLabels labels m).2 (pushLabels labels m).1.etag = some m.etag := by
  unfold pushLabels at hfit ⊢
  simp only at hfit ⊢
  generalize hurl : pushOption labels (if m.url = "" then none else some m.url) = url at hfit ⊢
  generalize htitle : pushOption url.2 m.title = title at hfit ⊢
  generalize hsnippet : pushOption title.2 m.snippet = snippet at hfit ⊢
  generalize hetag : pushOption snippet.2 m.etag = etag at hfit ⊢
  -- each heap is a start of the next
  have h₁ : labels <+: url.2 := hurl ▸ pushOption_grows _ _
  have h₂ : url.2 <+: title.2 := htitle ▸ pushOption_grows _ _
  have h₃ : title.2 <+: snippet.2 := hsnippet ▸ pushOption_grows _ _
  have h₄ : snippet.2 <+: etag.2 := hetag ▸ pushOption_grows _ _
  have hlen₃ := h₄.length_le
  have hlen₂ := h₃.length_le
  have hlen₁ := h₂.length_le
  refine ⟨h₁.trans (h₂.trans (h₃.trans h₄)), ?_, ?_, ?_, ?_⟩
  · refine labelAt_extends (h₂.trans (h₃.trans h₄)) ?_
    rw [← hurl]
    refine labelAt_pushOption ?_ (by rw [hurl]; omega)
    intro t ht
    split_ifs at ht
    cases ht
    exact hm _ (by simp [NodeModel.labels])
  · refine labelAt_extends (h₃.trans h₄) ?_
    rw [← htitle]
    exact labelAt_pushOption (fun t ht => hm t (by simp [NodeModel.labels, ht])) (by rw [htitle]; omega)
  · refine labelAt_extends h₄ ?_
    rw [← hsnippet]
    exact labelAt_pushOption (fun t ht => hm t (by simp [NodeModel.labels, ht]))
      (by rw [hsnippet]; omega)
  · rw [← hetag]
    exact labelAt_pushOption (fun t ht => hm t (by simp [NodeModel.labels, ht])) (by rw [hetag]; omega)

/-- The sections the pass over the nodes fills, but for the edges. -/
def sec (p : NodePass) : SectionKind → Bytes
  | .nodes => p.nodes
  | .segs => p.segs
  | .labels => p.labels
  | _ => []

theorem sec_extends {p q : NodePass} (hn : p.nodes <+: q.nodes) (hs : p.segs <+: q.segs)
    (hl : p.labels <+: q.labels) : Extends p.sec q.sec := by
  intro k
  cases k <;> first | exact hn | exact hs | exact hl | exact List.prefix_rfl

/-! ## Segments -/

/-- What pushing segments leaves: the node table is as it was, and each segment
    reads at its place. -/
structure Pushed (p q : NodePass) (ss : List SegModel) : Prop where
  nodes : q.nodes = p.nodes
  labels : p.labels <+: q.labels
  segs : p.segs <+: q.segs
  length : q.segs.length = p.segs.length + ss.length * segLen
  total : q.segTotal = p.segTotal + UInt32.ofNat ss.length
  reads : ∀ k, p.segs.length = k * segLen → ∀ j (hj : j < ss.length),
    segRec q.sec (k + j) = some ss[j].toRef

theorem Pushed.snoc {p q : NodePass} {segs : List SegModel} {s : SegModel} (h : Pushed p q segs)
    (hs : strLen s.label < 2 ^ 16) (hfit : (q.pushSeg s).labels.length < 2 ^ 32) :
    Pushed p (q.pushSeg s) (segs ++ [s]) := by
  have hlabels : q.labels <+: (q.pushSeg s).labels := List.prefix_append _ _
  have hsegs : q.segs <+: (q.pushSeg s).segs := List.prefix_append _ _
  have hext : Extends q.sec (q.pushSeg s).sec := sec_extends List.prefix_rfl hsegs hlabels
  refine ⟨h.nodes, h.labels.trans hlabels, h.segs.trans hsegs, ?_, ?_, ?_⟩
  · rw [pushSeg]
    simp only [List.length_append, length_writeSegRec, h.length, List.length_singleton]
    rw [Nat.add_mul, Nat.one_mul, Nat.add_assoc]
  · rw [pushSeg]
    simp only [h.total, List.length_append, List.length_singleton, UInt32.ofNat_add]
    rw [UInt32.add_assoc]
    rfl
  · intro k hk j hj
    rcases Nat.lt_or_ge j segs.length with hlt | hge
    · rw [List.getElem_append_left hlt]
      exact segRec_extends hext (h.reads k hk j hlt)
    · -- the segment just written
      obtain rfl : j = segs.length := by
        rw [List.length_append, List.length_singleton] at hj
        omega
      have hplace : q.segs.length = (k + segs.length) * segLen := by
        rw [h.length, hk, Nat.add_mul]
      obtain ⟨hkey, hstart, hlen, hoff, himp, hdepth, hflags⟩ :=
        fields_writeSegRec s (pushLabel q.labels s.label).1
      have hlabel : labelAt (q.pushSeg s).labels (pushLabel q.labels s.label).1 = some (some s.label) :=
        labelAt_pushLabel hs hfit
      unfold segRec
      rw [show (q.pushSeg s).sec .segs = q.segs ++ writeSegRec s (pushLabel q.labels s.label).1 from rfl,
        show (q.pushSeg s).sec .labels = (q.pushSeg s).labels from rfl,
        slice_last hplace (length_writeSegRec _ _)]
      simp only [Option.bind_eq_bind, Option.bind_some, hoff, hlabel, hkey, hstart, hlen, himp, hdepth,
        hflags, Option.getD_some, List.getElem_append_right le_rfl, Nat.sub_self, List.getElem_singleton]
      rfl

theorem pushed_foldl {p : NodePass} {segs : List SegModel} (hs : ∀ s ∈ segs, strLen s.label < 2 ^ 16)
    (hfit : (segs.foldl pushSeg p).labels.length < 2 ^ 32) : Pushed p (segs.foldl pushSeg p) segs := by
  induction segs using List.reverseRecOn with
  | nil =>
    refine ⟨rfl, List.prefix_rfl, List.prefix_rfl, by simp, by simp, ?_⟩
    intro k _ j hj
    cases hj
  | append_singleton segs s ih =>
    rw [List.foldl_append, List.foldl_cons, List.foldl_nil] at hfit ⊢
    have hgrow : (segs.foldl pushSeg p).labels <+: ((segs.foldl pushSeg p).pushSeg s).labels :=
      List.prefix_append _ _
    have hle := hgrow.length_le
    exact (ih (fun s' hs' => hs s' (List.mem_append_left _ hs')) (by omega)).snoc
      (hs s (by simp)) hfit

/-! ## Nodes -/

/-- A node with its resolved row and its in-degree, as the pass gets it. -/
abbrev Input := (UrlKey × NodeModel) × List BaseEdge × UInt32

/-- Node `i` of the sections is `e`: its record with its labels, its segments, and
    the part of the record no accessor of a snapshot reads. -/
structure NodeAt (s : SectionKind → Bytes) (i : Nat) (e : Input) : Prop where
  record : nodeRec s i = some (e.1.2.toRec e.1.1)
  segs : segRun s i = some (e.1.2.segs.map SegModel.toRef)
  row : ∃ r, slice (s .nodes) nodeLen i = some r ∧ NodeRec.inDegree r = e.2.2 ∧
    ((NodeRec.segStart r).toNat + (NodeRec.segCount r).toNat) * segLen ≤ (s .segs).length

theorem NodeAt.extends {s s' : SectionKind → Bytes} (h : Extends s s') {i : Nat} {e : Input}
    (hat : NodeAt s i e) : NodeAt s' i e := by
  obtain ⟨r, hr, hdeg, hend⟩ := hat.row
  exact ⟨nodeRec_extends h hat.record, segRun_extends h hat.segs, r, slice_extends (h .nodes) hr, hdeg,
    hend.trans (h .segs).length_le⟩

/-- The segments of the nodes, in order. -/
def segsOf (done : List Input) : List SegModel := done.flatMap fun e => e.1.2.segs

/-- The pass after the nodes `done`: tables of their lengths, and each node where
    its place says. -/
structure Holds (p : NodePass) (done : List Input) : Prop where
  nodes : p.nodes.length = done.length * nodeLen
  segs : p.segs.length = (segsOf done).length * segLen
  segTotal : p.segTotal = UInt32.ofNat (segsOf done).length
  edges : p.edges = Csr.ofRows (done.map fun e => e.2.1.map writeEdge)
  reads : ∀ i (hi : i < done.length), NodeAt p.sec i done[i]
  segReads : ∀ i < (segsOf done).length, (segRec p.sec i).isSome

/-- What one node has to satisfy to be written. -/
structure InputFits (e : Input) : Prop where
  labels : e.1.2.LabelsFit
  segs : e.1.2.segs.length < 2 ^ 16

theorem pushNode_grows (p : NodePass) (e : Input) (hlabels : e.1.2.LabelsFit)
    (hfit : (p.pushNode e.1 e.2.1 e.2.2).labels.length < 2 ^ 32) :
    p.labels <+: (p.pushNode e.1 e.2.1 e.2.2).labels := by
  have hpushed : Pushed { p with labels := (pushLabels p.labels e.1.2).2 }
      (e.1.2.segs.foldl pushSeg { p with labels := (pushLabels p.labels e.1.2).2 }) e.1.2.segs :=
    pushed_foldl (fun s hs => hlabels _ (by simp [NodeModel.labels]; grind)) hfit
  have hle := hpushed.labels.length_le
  exact (pushLabels_spec hlabels (lt_of_le_of_lt hle hfit)).1.trans hpushed.labels

theorem Holds.snoc {p : NodePass} {done : List Input} {e : Input} (h : Holds p done)
    (he : InputFits e) (hfit : (p.pushNode e.1 e.2.1 e.2.2).labels.length < 2 ^ 32)
    (hsegs : (segsOf (done ++ [e])).length < 2 ^ 32) :
    Holds (p.pushNode e.1 e.2.1 e.2.2) (done ++ [e]) := by
  have hpushed : Pushed { p with labels := (pushLabels p.labels e.1.2).2 }
      (e.1.2.segs.foldl pushSeg { p with labels := (pushLabels p.labels e.1.2).2 }) e.1.2.segs :=
    pushed_foldl (fun s hs => he.labels _ (by simp [NodeModel.labels]; grind)) hfit
  obtain ⟨hown, hurl, htitle, hsnippet, hetag⟩ :=
    pushLabels_spec he.labels (lt_of_le_of_lt hpushed.labels.length_le hfit)
  generalize hq : e.1.2.segs.foldl pushSeg { p with labels := (pushLabels p.labels e.1.2).2 } = q
    at hpushed
  have hpush : p.pushNode e.1 e.2.1 e.2.2 = { q with
      edges := p.edges.addRow (e.2.1.map writeEdge)
      maxFetched := max p.maxFetched e.1.2.fetchedAtMs
      nodes := p.nodes ++ writeNodeRec e.1.1 e.1.2 (pushLabels p.labels e.1.2).1 p.segTotal e.2.2 } := by
    rw [← hq]
    rfl
  have hof : segsOf (done ++ [e]) = segsOf done ++ e.1.2.segs := by simp [segsOf]
  rw [hof, List.length_append] at hsegs
  have htotal : p.segTotal.toNat = (segsOf done).length := by
    rw [h.segTotal, UInt32.toNat_ofNat']
    exact Nat.mod_eq_of_lt (by omega)
  -- the sections before this node, and those after its segments, start the new ones
  have hext : Extends p.sec (p.pushNode e.1 e.2.1 e.2.2).sec := by
    rw [hpush]
    exact sec_extends (List.prefix_append _ _) hpushed.segs (hown.trans hpushed.labels)
  have hextq : Extends q.sec (p.pushNode e.1 e.2.1 e.2.2).sec := by
    rw [hpush]
    refine sec_extends ?_ List.prefix_rfl List.prefix_rfl
    rw [hpushed.nodes]
    exact List.prefix_append _ _
  obtain ⟨⟨hkey, hhash, hfetched, hchange⟩, ⟨ourl, otitle, osnippet, oetag⟩,
    ⟨hstart, hcount, hdeg⟩, hflags, hinterval, hchecks, hchanges⟩ :=
    fields_writeNodeRec e.1.1 e.1.2 (pushLabels p.labels e.1.2).1 p.segTotal e.2.2
  have hslice : slice ((p.pushNode e.1 e.2.1 e.2.2).sec .nodes) nodeLen done.length
      = some (writeNodeRec e.1.1 e.1.2 (pushLabels p.labels e.1.2).1 p.segTotal e.2.2) := by
    rw [hpush]
    exact slice_last h.nodes (length_writeNodeRec _ _ _ _ _)
  have hlabels : (p.pushNode e.1 e.2.1 e.2.2).sec .labels = q.labels := by
    rw [hpush]
    rfl
  have hcountNat : (UInt16.ofNat e.1.2.segs.length).toNat = e.1.2.segs.length := by
    rw [UInt16.toNat_ofNat']
    exact Nat.mod_eq_of_lt he.segs
  -- the segment table ends with the segments of this node
  have hsegTable : (p.pushNode e.1 e.2.1 e.2.2).segs.length
      = (segsOf (done ++ [e])).length * segLen := by
    rw [hpush]
    simp only
    rw [hpushed.length, hof, List.length_append, Nat.add_mul, ← h.segs]
  constructor
  · rw [hpush]
    simp only [List.length_append, length_writeNodeRec, h.nodes, List.length_singleton]
    rw [Nat.add_mul, Nat.one_mul]
  · exact hsegTable
  · rw [hpush]
    simp only [hpushed.total, h.segTotal, hof, List.length_append, UInt32.ofNat_add]
  · rw [hpush]
    simp only [h.edges, List.map_append, List.map_singleton, Csr.ofRows, List.foldl_append,
      List.foldl_cons, List.foldl_nil]
  · intro i hi
    rcases Nat.lt_or_ge i done.length with hlt | hge
    · rw [List.getElem_append_left hlt]
      exact (h.reads i hlt).extends hext
    · -- the node just written
      obtain rfl : i = done.length := by
        rw [List.length_append, List.length_singleton] at hi
        omega
      rw [List.getElem_append_right le_rfl]
      simp only [Nat.sub_self, List.getElem_singleton]
      refine ⟨?_, ?_, _, hslice, hdeg, ?_⟩
      · unfold nodeRec
        simp only [hslice, Option.bind_eq_bind, Option.bind_some, hlabels, ourl, otitle, osnippet,
          oetag, labelAt_extends hpushed.labels hurl, labelAt_extends hpushed.labels htitle,
          labelAt_extends hpushed.labels hsnippet, labelAt_extends hpushed.labels hetag, hkey, hhash,
          hfetched, hchange, hflags, hinterval, hchecks, hchanges]
        rfl
      · unfold segRun
        simp only [hslice, Option.bind_eq_bind, Option.bind_some, hstart, hcount, hcountNat, htotal]
        -- its run starts where the segments of the nodes before end
        have hrun := FaultLib.mapM_range'_eq_some (e.1.2.segs.map SegModel.toRef)
          (segRec (p.pushNode e.1 e.2.1 e.2.2).sec) (segsOf done).length (by
            intro j hj
            rw [List.length_map] at hj
            rw [List.getElem_map]
            exact segRec_extends hextq (hpushed.reads _ h.segs j hj))
        rwa [List.length_map] at hrun
      · rw [hstart, hcount, hcountNat, htotal]
        refine Nat.le_of_eq ?_
        rw [show (p.pushNode e.1 e.2.1 e.2.2).sec .segs = (p.pushNode e.1 e.2.1 e.2.2).segs from rfl,
          hsegTable, hof, List.length_append]
  · intro i hi
    rw [hof, List.length_append] at hi
    rcases Nat.lt_or_ge i (segsOf done).length with hlt | hge
    · obtain ⟨r, hr⟩ := Option.isSome_iff_exists.mp (h.segReads i hlt)
      rw [segRec_extends hext hr]
      rfl
    · obtain ⟨j, rfl⟩ := Nat.exists_eq_add_of_le hge
      rw [segRec_extends hextq (hpushed.reads _ h.segs j (by omega))]
      rfl

/-- The whole pass: where the labels stay below 4 GiB and the segments below their
    count's range, every node reads back. -/
theorem holds_foldl {es : List Input} (hes : ∀ e ∈ es, InputFits e)
    (hfit : (es.foldl (fun p e => p.pushNode e.1 e.2.1 e.2.2) empty).labels.length < 2 ^ 32)
    (hsegs : (segsOf es).length < 2 ^ 32) :
    Holds (es.foldl (fun p e => p.pushNode e.1 e.2.1 e.2.2) empty) es := by
  induction es using List.reverseRecOn with
  | nil =>
    constructor
    · rfl
    · rfl
    · rfl
    · rfl
    · intro i hi
      cases hi
    · intro i hi
      cases hi
  | append_singleton es e ih =>
    rw [List.foldl_append, List.foldl_cons, List.foldl_nil] at hfit ⊢
    have he := hes e (by simp)
    have hle := (pushNode_grows _ e he.labels hfit).length_le
    have hof : (segsOf es).length ≤ (segsOf (es ++ [e])).length := by
      simp [segsOf]
    exact (ih (fun e' he' => hes e' (List.mem_append_left _ he')) (by omega) (by omega)).snoc he hfit
      hsegs

end NodePass

end BaseFile

end GraphR
