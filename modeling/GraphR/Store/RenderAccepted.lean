import GraphR.Store.RenderedLexicon
import GraphR.Store.SizedImage

/-! # What is rendered is accepted

    Each check of `check_counts` from what reads: a label that reads is in bounds
    and UTF-8, an index over rows rises from 0 to their number, keys and hashes of a
    sorted map ascend. -/

namespace GraphR

open Wal ByteLib TableLib BaseFile FaultLib

namespace BaseFile

/-! ## Labels and records -/

theorem checkLabel_of_labelAt {labels : Bytes} {off : UInt32} {v : Option String}
    (h : labelAt labels off = some v) : checkLabel labels off = .ok () := by
  unfold labelAt at h
  unfold checkLabel
  by_cases hno : off = noLabel
  · rw [if_pos hno]
  · rw [if_neg hno] at h ⊢
    simp only [Option.bind_eq_bind, Option.bind_eq_some_iff] at h
    obtain ⟨len, hlen, str, hstr, -⟩ := h
    unfold getU16 at hlen
    split_ifs at hlen with hin
    obtain rfl := Option.some.inj hlen
    unfold text at hstr
    split_ifs at hstr with hend
    simp only [check_bind_ok, check_ok]
    refine ⟨hin, hend, ?_⟩
    rw [hstr]
    rfl

theorem recordAt_of_slice {table r : Bytes} {width i : Nat} (h : slice table width i = some r) :
    recordAt table width i = r := by
  unfold slice at h
  split_ifs at h with hin
  exact Option.some.inj h

theorem checkNode_of_nodeAt {s : SectionKind → Bytes} {i count : Nat} {e : NodePass.Input}
    (hat : NodePass.NodeAt s i e) (hsegs : (s .segs).length = count * segLen) :
    checkNode (s .labels) count (recordAt (s .nodes) nodeLen i) = .ok () := by
  obtain ⟨r, hr, -, hend⟩ := hat.row
  have hrec := hat.record
  unfold nodeRec at hrec
  simp only [hr, Option.bind_eq_bind, Option.bind_some, Option.bind_eq_some_iff] at hrec
  obtain ⟨url, hurl, title, htitle, snippet, hsnippet, etag, hetag, -⟩ := hrec
  rw [recordAt_of_slice hr]
  unfold checkNode
  simp only [bind_ok, each_ok, check_ok, List.forall_mem_cons, List.not_mem_nil, false_implies,
    implies_true, and_true]
  refine ⟨(), ⟨checkLabel_of_labelAt hurl, checkLabel_of_labelAt htitle,
    checkLabel_of_labelAt hsnippet, checkLabel_of_labelAt hetag⟩, ?_⟩
  rw [hsegs] at hend
  exact Nat.le_of_mul_le_mul_right hend (by decide)

theorem checkSeg_of_segRec {s : SectionKind → Bytes} {i : Nat} (h : (segRec s i).isSome) :
    checkLabel (s .labels) (SegRec.labelOff (recordAt (s .segs) segLen i)) = .ok () := by
  obtain ⟨seg, hseg⟩ := Option.isSome_iff_exists.mp h
  unfold segRec at hseg
  simp only [Option.bind_eq_bind, Option.bind_eq_some_iff] at hseg
  obtain ⟨r, hr, label, hlabel, -⟩ := hseg
  rw [recordAt_of_slice hr]
  exact checkLabel_of_labelAt hlabel

/-! ## Indices over rows -/

section index
variable {rows : List (List Bytes)} (htotal : rows.flatten.length < 2 ^ 32)
include htotal

theorem checkMonotone_close (e : Error) {k i : Nat} (hik : i + k = rows.length + 1) {prev : UInt32}
    (hprev : 0 < k → prev.toNat ≤ startOf rows i) :
    ∃ last, checkMonotone (Csr.ofRows rows).close rows.flatten.length e k i prev = .ok last ∧
      (0 < k → last.toNat = rows.flatten.length) := by
  -- `k` entries are left to read, from entry `i` on; `prev` is the one before it
  induction k generalizing i prev with
  | zero => exact ⟨prev, rfl, fun h => absurd h (lt_irrefl 0)⟩
  | succ k ih =>
    have hword : (u32At (Csr.ofRows rows).close (i * 4)).toNat = startOf rows i := by
      rw [Csr.u32At_close (by omega)]
      exact toNat_ofNat_u32 (lt_of_le_of_lt (startOf_le rows i) htotal)
    obtain ⟨last, hlast, hend⟩ := @ih (i + 1) (by omega) (u32At (Csr.ofRows rows).close (i * 4))
      fun _ => by rw [hword]; exact startOf_mono (Nat.le_succ i)
    refine ⟨last, ?_, fun _ => ?_⟩
    · rw [checkMonotone, check_bind_ok]
      refine ⟨⟨?_, ?_⟩, hlast⟩
      · rw [UInt32.le_iff_toNat_le, hword]
        exact hprev (Nat.succ_pos k)
      · rw [hword]
        exact startOf_le rows i
    · -- the last entry of the index is where all the rows end
      cases k with
      | zero =>
        cases hlast
        rw [hword, ← startOf_length]
        exact congrArg _ (by omega)
      | succ k => exact hend (Nat.succ_pos k)

theorem checkCover_close (e e' : Error) :
    checkCover (Csr.ofRows rows).close rows.length rows.flatten.length e e' = .ok () := by
  obtain ⟨last, hlast, hend⟩ := @checkMonotone_close rows htotal e (rows.length + 1) 0
    (Nat.zero_add _) 0 fun _ => Nat.zero_le _
  unfold checkCover
  rw [bind_ok]
  exact ⟨last, hlast, check_ok.mpr (hend (Nat.succ_pos _))⟩

theorem checkCsr_close (name : String) :
    checkCsr (Csr.ofRows rows).close rows.length rows.flatten.length name = .ok () := by
  unfold checkCsr
  -- the index of no rows has one entry, so an index is never empty
  rw [if_neg (by rw [close_ne_nil]; simp), check_bind_ok]
  exact ⟨Csr.length_close rows, checkCover_close htotal _ _⟩

end index

/-- Every node id in rows of edges is below `n`. -/
theorem checkEnds_rows {rows : List (List BaseEdge)} {n : UInt32}
    (hnodes : ∀ row ∈ rows, ∀ e ∈ row, e.node < n.toNat) (err : Error) :
    checkEnds (Csr.ofRows (rows.map fun r => r.map writeEdge)).recs rows.flatten.length n err
      = .ok () := by
  unfold checkEnds
  rw [each_ok]
  intro i hi
  rw [List.mem_range] at hi
  have hflat : (rows.map fun r => r.map writeEdge).flatten = rows.flatten.map writeEdge := by
    rw [List.map_flatten]
  -- entry `i` of the table is edge `i` of all the rows
  have hrec : recordAt (Csr.ofRows (rows.map fun r => r.map writeEdge)).recs edgeLen i
      = writeEdge rows.flatten[i] := by
    rw [Csr.recs_ofRows, hflat]
    have hslice := @slice_flatten edgeLen (rows.flatten.map writeEdge)
      (by
        intro x hx
        obtain ⟨e, -, rfl⟩ := List.mem_map.mp hx
        exact length_writeEdge e)
      i (by rwa [List.length_map])
    rw [List.getElem_map] at hslice
    exact recordAt_of_slice hslice
  obtain ⟨row, hrow, he⟩ := List.mem_flatten.mp (List.getElem_mem hi)
  have hlt := hnodes row hrow _ he
  have hword : u32At (Csr.ofRows (rows.map fun r => r.map writeEdge)).recs (i * edgeLen)
      = UInt32.ofNat rows.flatten[i].node := by
    have hat : u32At (recordAt (Csr.ofRows (rows.map fun r => r.map writeEdge)).recs edgeLen i) 0
        = u32At (Csr.ofRows (rows.map fun r => r.map writeEdge)).recs (i * edgeLen) := by
      rw [recordAt, u32At_range (by decide), Nat.add_zero]
    rw [← hat, hrec, writeEdge, u32At_putU32_append]
  rw [check_ok, hword, UInt32.lt_iff_toNat_lt, toNat_ofNat_u32 (lt_trans hlt n.toNat_lt)]
  exact hlt

/-! ## Attributes -/

theorem checkAttr_of_attrRec {blobs r : Bytes} {a : UInt8 × String} (h : attrRec blobs r = some a)
    (hzero : (range r 1 3).all (· == 0) = true) : checkAttr blobs r = .ok () := by
  unfold attrRec at h
  simp only [Option.bind_eq_bind, Option.bind_eq_some_iff] at h
  obtain ⟨v, hv, -⟩ := h
  unfold text at hv
  split_ifs at hv with hin
  unfold checkAttr
  rw [check_ok]
  refine ⟨hin, ?_, hzero⟩
  rw [hv]
  rfl

/-! ## Tokens -/

theorem checkLexicon_of_tokens {s : SectionKind → Bytes} {done : List (UInt64 × String × List Nat)}
    (hsorted : done.Pairwise fun a b => a.1 < b.1)
    (hreads : ∀ i (hi : i < done.length), LexPass.TokenAt s i done[i]) {k i : Nat}
    (hik : i + k ≤ done.length) {prev : Option UInt64}
    (hprev : ∀ p, prev = some p → ∀ j (hj : j < done.length), i ≤ j → p < done[j].1) :
    checkLexicon (s .lexicon) (s .postings) (s .labels) k i prev = .ok () := by
  -- `prev` is the hash of the token before, below all that are left
  induction k generalizing i prev with
  | zero => rfl
  | succ k ih =>
    have hi : i < done.length := by omega
    obtain ⟨r, hr, hhash, -, hlabel, hin, -⟩ := hreads i hi
    rw [checkLexicon]
    simp only [recordAt_of_slice hr]
    rw [check_bind_ok, hhash]
    refine ⟨?_, ?_⟩
    · cases hp : prev with
      | none => simp
      | some p => simpa using hprev p hp i hi le_rfl
    · rw [check_bind_ok, bind_ok]
      refine ⟨hin, (), checkLabel_of_labelAt hlabel, ih (by omega) ?_⟩
      rintro p ⟨⟩ j hj hij
      exact List.pairwise_iff_getElem.mp hsorted i j hi hj (by omega)

theorem checkTrigram_of_triAt {trigrams postings : Bytes} {i : Nat} {e : Nat × List Nat} {vocab : UInt32}
    (h : TriPass.TriAt trigrams postings i e) (hids : ∀ j ∈ e.2, j < vocab.toNat) :
    checkTrigram postings vocab (recordAt trigrams triLen i) = .ok () := by
  obtain ⟨off, len, hoff, hlen, hin, hwords⟩ := h.ids
  -- a field read in the record is the field read in the table
  have hword : ∀ {k : Nat} {v : UInt32}, k + 4 ≤ triLen → getU32 trigrams (i * triLen + k) = some v →
      u32At (recordAt trigrams triLen i) k = v := by
    intro k v hk hv
    unfold getU32 at hv
    split_ifs at hv with hbound
    rw [recordAt, u32At_range hk]
    exact Option.some.inj hv
  unfold checkTrigram
  rw [check_ok, hword (by decide) hoff, hword (by decide) hlen]
  refine ⟨hin, ?_⟩
  rw [hwords, List.all_eq_true]
  intro w hw
  obtain ⟨j, hj, rfl⟩ := List.mem_map.mp hw
  have hlt := hids j hj
  rw [decide_eq_true_eq, UInt32.lt_iff_toNat_lt, toNat_ofNat_u32 (lt_trans hlt vocab.toNat_lt)]
  exact hlt

/-! ## Keys -/

theorem checkSorted_of_nodes {s : SectionKind → Bytes} {done : List NodePass.Input}
    (hsorted : done.Pairwise fun a b => a.1.1 < b.1.1)
    (hreads : ∀ i (hi : i < done.length), NodePass.NodeAt s i done[i]) {k i : Nat}
    (hik : i + k ≤ done.length) {prev : Option UrlKey}
    (hprev : ∀ p, prev = some p → ∀ j (hj : j < done.length), i ≤ j → p < done[j].1.1) :
    checkSorted (s .nodes) k i prev = .ok () := by
  -- `prev` is the key of the node before, below all that are left
  induction k generalizing i prev with
  | zero => rfl
  | succ k ih =>
    have hi : i < done.length := by omega
    have hkey : NodeRec.urlKey (recordAt (s .nodes) nodeLen i) = done[i].1.1 := by
      obtain ⟨r, hr, -, -⟩ := (hreads i hi).row
      have hrec := (hreads i hi).record
      unfold nodeRec at hrec
      simp only [hr, Option.bind_eq_bind, Option.bind_some, Option.bind_eq_some_iff] at hrec
      obtain ⟨url, -, title, -, snippet, -, etag, -, heq⟩ := hrec
      rw [recordAt_of_slice hr]
      exact congrArg BaseRec.key (Option.some.inj heq)
    rw [checkSorted]
    simp only [hkey]
    rw [check_bind_ok]
    refine ⟨?_, ih (by omega) ?_⟩
    · cases hp : prev with
      | none => simp
      | some p => simpa using hprev p hp i hi le_rfl
    · rintro p ⟨⟩ j hj hij
      exact List.pairwise_iff_getElem.mp hsorted i j hi hj (by omega)

/-! ## The file -/

/-- The bytes of a kind in a list of sections. -/
def sectionOf (secs : List (SectionKind × Bytes)) (kind : SectionKind) : Bytes :=
  (secs.find? fun s => s.1 = kind).elim [] Prod.snd

theorem mem_of_sectionOf {secs : List (SectionKind × Bytes)} {kind : SectionKind}
    (h : sectionOf secs kind ≠ []) : (kind, sectionOf secs kind) ∈ secs := by
  unfold sectionOf at h ⊢
  cases hfind : secs.find? fun s => s.1 = kind with
  | none =>
    rw [hfind] at h
    exact absurd rfl h
  | some p =>
    have hkind : p.1 = kind := by simpa using List.find?_some hfind
    rw [← hkind]
    exact List.mem_of_find?_eq_some hfind

theorem sectionOf_of_mem {secs : List (SectionKind × Bytes)} (hnodup : (secs.map Prod.fst).Nodup)
    {p : SectionKind × Bytes} (hp : p ∈ secs) : sectionOf secs p.1 = p.2 := by
  unfold sectionOf
  induction secs with
  | nil => cases hp
  | cons q secs ih =>
    rw [List.map_cons, List.nodup_cons] at hnodup
    rcases List.mem_cons.mp hp with rfl | hp
    · simp
    · have hne : q.1 ≠ p.1 := by
        intro heq
        exact hnodup.1 (heq ▸ List.mem_map_of_mem hp)
      rw [List.find?_cons_of_neg (by simpa using hne)]
      exact ih hnodup.2 hp

/-- A file built from sections of different kinds parses as a container, to its
    header and its sections. -/
theorem parse_sections {xxh3 : Bytes → UInt64} {secs : List (SectionKind × Bytes)} {h : Header}
    (hnodup : (secs.map Prod.fst).Nodup)
    (hfits : ((secs.foldl BaseWriter.addSection (BaseWriter.new h)).finish xxh3).length < 2 ^ 64) :
    ∃ dir, Container.Dir.parse xxh3
        ((secs.foldl BaseWriter.addSection (BaseWriter.new h)).finish xxh3) format = .ok dir ∧
      Header.fromOwner dir.flags dir.owner = h ∧
      ∀ kind : SectionKind, dir.sec ((secs.foldl BaseWriter.addSection (BaseWriter.new h)).finish xxh3)
        kind.tag = sectionOf secs kind := by
  have hbuild : secs.foldl BaseWriter.addSection (BaseWriter.new h)
      = Container.Writer.build format h.flags h.owner (secs.map fun s => ⟨s.1.tag, 0, s.2⟩) := by
    unfold Container.Writer.build
    rw [List.foldl_map]
    rfl
  have htags : ((secs.map fun s => (⟨s.1.tag, 0, s.2⟩ : Container.Section)).map
      Container.Section.kind).Nodup := by
    rw [List.map_map]
    have hmap : secs.map (Container.Section.kind ∘ fun s => ⟨s.1.tag, 0, s.2⟩)
        = (secs.map Prod.fst).map SectionKind.tag := by
      rw [List.map_map]
      rfl
    rw [hmap]
    exact hnodup.map fun a b hab => by_contra fun hne => tag_ne hne hab
  have howner : h.owner.length ≤ Container.ownerLen := by simp [Header.owner, Container.ownerLen]
  rw [hbuild] at hfits ⊢
  obtain ⟨dir, hparse, hflags, hown, hsec, hother⟩ := Container.parse_build howner htags hfits
  refine ⟨dir, hparse, ?_, ?_⟩
  · rw [hflags, hown]
    exact fromOwner_owner h _
  · intro kind
    -- an empty section is not written, and what is not there reads as no bytes
    by_cases hempty : sectionOf secs kind = []
    · rw [hempty]
      refine (hother kind.tag ?_).1
      intro s hs hne htag
      obtain ⟨p, hp, rfl⟩ := List.mem_map.mp hs
      have hkind : p.1 = kind := by_contra fun hne => tag_ne hne htag
      rw [← hkind, sectionOf_of_mem hnodup hp] at hempty
      exact hne hempty
    · exact (hsec ⟨kind.tag, 0, sectionOf secs kind⟩
        (List.mem_map.mpr ⟨_, mem_of_sectionOf hempty, rfl⟩) hempty).1

end BaseFile

end GraphR
