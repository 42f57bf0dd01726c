import GraphR.Format.BaseFile
import GraphR.Format.ContainerRoundTrip

/-! # Base files of every size

    For every node count there is a base file `BaseDir::parse` accepts: that many
    nodes without labels, edges or tokens. -/

namespace GraphR.BaseFile

open ByteLib FaultLib Container

/-! ## The file -/

/-- A node record with a key and nothing else. -/
def bareNode (key : UInt64) : Bytes :=
  putU64 key ++ (List.replicate 24 0 ++ (putU32 noLabel ++ (putU32 noLabel ++
    (putU32 noLabel ++ (putU32 noLabel ++ List.replicate 24 0)))))

/-- `n` of them, the keys in order. -/
def bareNodes (n : Nat) : Bytes := (List.range n).flatMap fun i => bareNode (UInt64.ofNat i)

def bareHeader (n : Nat) : Header := ⟨0, UInt32.ofNat n, 0, 0, 0, 1, 0, 0⟩

/-- The sections of a base of `n` nodes: the records, an edge index that covers
    nothing, and their ranks. -/
def bareSections (n : Nat) : List Section :=
  [⟨1, 0, bareNodes n⟩, ⟨3, 0, List.replicate ((n + 1) * 4) 0⟩, ⟨8, 0, List.replicate (n * 2) 0⟩]

/-- A base file of `n` nodes. -/
def bareBase (xxh3 : Bytes → UInt64) (n : Nat) : Bytes :=
  (Writer.build format 0 (bareHeader n).owner (bareSections n)).finish xxh3

section bare
variable {n : Nat}

@[simp] theorem length_bareNode (key : UInt64) : (bareNode key).length = nodeLen := by
  simp [bareNode, nodeLen]

@[simp] theorem length_bareNodes (n : Nat) : (bareNodes n).length = n * nodeLen := by
  rw [bareNodes, length_flatMap_const (fun _ => length_bareNode _), List.length_range, Nat.mul_comm]

theorem recordAt_bareNodes {i : Nat} (hi : i < n) :
    recordAt (bareNodes n) nodeLen i = bareNode (UInt64.ofNat i) := by
  have hchunk := range_chunk (fun j : Nat => length_bareNode (UInt64.ofNat j)) (List.range n) [] i
    (by simpa using hi) (Nat.le_of_eq (Nat.zero_add nodeLen))
  rw [List.append_nil, Nat.add_zero, Nat.mul_comm, List.getElem_range] at hchunk
  rw [recordAt, bareNodes, hchunk]
  exact range_zero_self (length_bareNode _)

theorem leNat_zeros (len off n : Nat) : leNat (range (List.replicate len 0) off n) = 0 := by
  have hzeros : ∀ k, leNat (List.replicate k (0 : UInt8)) = 0 := by
    intro k
    induction k with
    | zero => rfl
    | succ k ih =>
      rw [List.replicate_succ, leNat, ih]
      rfl
  rw [range, List.drop_replicate, List.take_replicate, hzeros]

theorem u32At_zeros (len off : Nat) : u32At (List.replicate len 0) off = 0 := by
  rw [u32At, leNat_zeros]
  rfl

theorem u16At_zeros (len off : Nat) : u16At (List.replicate len 0) off = 0 := by
  rw [u16At, leNat_zeros]
  rfl

/-- A bare record has no labels and no segments. -/
theorem checkNode_bareNode (labels : Bytes) (key : UInt64) :
    checkNode labels 0 (bareNode key) = .ok () := by
  have hurl : NodeRec.urlOff (bareNode key) = noLabel := by
    simp [NodeRec.urlOff, bareNode, u32At_append_right]
  have htitle : NodeRec.titleOff (bareNode key) = noLabel := by
    simp [NodeRec.titleOff, bareNode, u32At_append_right]
  have hsnippet : NodeRec.snippetOff (bareNode key) = noLabel := by
    simp [NodeRec.snippetOff, bareNode, u32At_append_right]
  have hetag : NodeRec.etagOff (bareNode key) = noLabel := by
    simp [NodeRec.etagOff, bareNode, u32At_append_right]
  have hstart : NodeRec.segStart (bareNode key) = 0 := by
    simp [NodeRec.segStart, bareNode, u32At_append_right]
    exact u32At_zeros 24 0
  have hcount : NodeRec.segCount (bareNode key) = 0 := by
    simp [NodeRec.segCount, bareNode, u16At_append_right]
    exact u16At_zeros 20 0
  unfold checkNode
  rw [hurl, htitle, hsnippet, hetag, hstart, hcount, bind_ok]
  refine ⟨(), ?_, rfl⟩
  rw [each_ok]
  simp [checkLabel]

/-- The keys of bare records rise. -/
theorem checkSorted_bareNodes (hn : n < 2 ^ 32) {k i : Nat} (hk : i + k ≤ n) {prev : Option UrlKey}
    (hprev : ∀ p, prev = some p → p.toNat < i) : checkSorted (bareNodes n) k i prev = .ok () := by
  induction k generalizing i prev with
  | zero => rfl
  | succ k ih =>
    have hkey : NodeRec.urlKey (recordAt (bareNodes n) nodeLen i) = UInt64.ofNat i := by
      rw [recordAt_bareNodes (by omega)]
      exact u64At_putU64_append _ _
    have hnat : (UInt64.ofNat i).toNat = i := by
      rw [UInt64.toNat_ofNat']
      exact Nat.mod_eq_of_lt (by omega)
    rw [checkSorted]
    simp only [hkey]
    rw [check_bind_ok]
    refine ⟨?_, ih (by omega) ?_⟩
    · cases hp : prev with
      | none => simp
      | some p =>
        have hlt := hprev p hp
        simp only [Option.any_some, decide_eq_true_eq, UInt64.not_le, UInt64.lt_iff_toNat_lt, hnat]
        exact hlt
    · rintro p hp
      cases hp
      rw [hnat]
      exact Nat.lt_succ_self i

theorem checkMonotone_zeros {len total k i : Nat} {e : Error} :
    checkMonotone (List.replicate len 0) total e k i 0 = .ok 0 := by
  induction k generalizing i with
  | zero => rfl
  | succ k ih =>
    rw [checkMonotone, u32At_zeros, check_bind_ok]
    exact ⟨⟨UInt32.le_refl 0, Nat.zero_le _⟩, ih⟩

/-- The sections of a bare file pass every check. -/
theorem checkCounts_bare (hn : n < 2 ^ 32) {s : SectionKind → Bytes} (hnodes : s .nodes = bareNodes n)
    (hidx : s .edgeIndex = List.replicate ((n + 1) * 4) 0)
    (hranks : s .ranks = List.replicate (n * 2) 0)
    (hrest : ∀ kind, kind ≠ .nodes → kind ≠ .edgeIndex → kind ≠ .ranks → s kind = []) :
    checkCounts s (bareHeader n) = .ok () := by
  have hcount : (bareHeader n).nodeCount.toNat = n := by
    show (UInt32.ofNat n).toNat = n
    rw [UInt32.toNat_ofNat']
    exact Nat.mod_eq_of_lt hn
  have hsegs : s .segs = [] := hrest _ (by decide) (by decide) (by decide)
  have hedges : s .edges = [] := hrest _ (by decide) (by decide) (by decide)
  have hlex : s .lexicon = [] := hrest _ (by decide) (by decide) (by decide)
  have hin : s .inEdges = [] := hrest _ (by decide) (by decide) (by decide)
  have hinIdx : s .inEdgeIndex = [] := hrest _ (by decide) (by decide) (by decide)
  have hattrs : s .attrs = [] := hrest _ (by decide) (by decide) (by decide)
  have hattrIdx : s .attrIndex = [] := hrest _ (by decide) (by decide) (by decide)
  have horder : s .lexOrder = [] := hrest _ (by decide) (by decide) (by decide)
  have htri : s .trigrams = [] := hrest _ (by decide) (by decide) (by decide)
  have hpost : s .triPostings = [] := hrest _ (by decide) (by decide) (by decide)
  have hcover : ∀ e e', checkCover (List.replicate ((n + 1) * 4) 0) n 0 e e' = .ok () := by
    intro e e'
    rw [checkCover, bind_ok]
    exact ⟨0, checkMonotone_zeros, rfl⟩
  have hforward : checkEdges s (bareHeader n) = .ok () := by
    unfold checkEdges checkEnds
    rw [hidx, hedges, hcount, bind_ok]
    exact ⟨(), hcover _ _, rfl⟩
  have hreverse : checkReverse s (bareHeader n) = .ok () := by
    unfold checkReverse checkCsr checkEnds
    rw [hin, hinIdx, hattrs, hattrIdx]
    rfl
  have htokens : checkTokens s (bareHeader n) = .ok () := by
    unfold checkTokens
    rw [horder, htri, hpost, hlex]
    rfl
  unfold checkCounts expect
  simp only [bind_ok, check_ok, onlyIf_ok, each_ok, hcount, hnodes, hidx, hranks, hsegs, hedges,
    hlex, hforward, hreverse, htokens, length_bareNodes, List.length_replicate, List.mem_range]
  refine ⟨(), trivial, (), rfl, (), rfl, (), rfl, (), fun _ => ⟨(), trivial, rfl⟩, (), ?_, (),
    ?_, (), fun _ => trivial, (), fun _ => trivial, (), trivial, ?_⟩
  · intro i hi
    rw [recordAt_bareNodes hi]
    exact checkNode_bareNode _ _
  · intro i hi
    exact absurd hi (Nat.not_lt_zero i)
  · refine checkSorted_bareNodes hn (by omega) ?_
    rintro p hp
    cases hp

theorem alignUp_lt (m : Nat) : alignUp m < m + 64 := by
  have hw : align = 64 := rfl
  unfold alignUp
  rw [hw]
  omega

theorem layoutEnd_le (off : Nat) (secs : List Section) :
    Writer.layoutEnd off secs ≤ off + (secs.map fun s => s.bytes.length + 64).sum := by
  induction secs generalizing off with
  | nil => exact le_rfl
  | cons s secs ih =>
    have hend := ih (alignUp (off + s.bytes.length))
    have hpad := alignUp_lt (off + s.bytes.length)
    rw [Writer.layoutEnd, List.map_cons, List.sum_cons]
    omega

theorem fromOwner_owner (h : Header) (tail : Bytes) :
    Header.fromOwner h.flags (h.owner ++ tail) = h := by
  simp [Header.fromOwner, Header.owner, u32At_append_right, u64At_append_right]

theorem length_bareBase (xxh3 : Bytes → UInt64) (hn : n < 2 ^ 32) :
    (bareBase xxh3 n).length < 2 ^ 64 := by
  have howner : (bareHeader n).owner.length ≤ ownerLen := by
    simp [Header.owner, ownerLen]
  unfold bareBase
  rw [Writer.build_eq howner, Writer.length_finish (by simp [Header.owner, ownerLen]),
    Writer.total]
  generalize hw : Writer.mk format 0 _ ((bareSections n).filter fun s => !s.bytes.isEmpty) = w
  have hsecs : w.sections.Sublist (bareSections n) := by
    rw [← hw]
    exact List.filter_sublist
  have hsum : (w.sections.map fun s => s.bytes.length + 64).sum
      ≤ ((bareSections n).map fun s => s.bytes.length + 64).sum :=
    (hsecs.map _).sum_le_sum fun _ _ => Nat.zero_le _
  have hall : ((bareSections n).map fun s => s.bytes.length + 64).sum
      = n * 72 + 64 + ((n + 1) * 4 + 64 + (n * 2 + 64)) := by
    simp [bareSections, nodeLen]
  have hdir : w.dirEnd ≤ 128 + 3 * 32 := by
    have hlen := hsecs.length_le
    have hthree : (bareSections n).length = 3 := rfl
    rw [hthree] at hlen
    unfold Writer.dirEnd
    exact Nat.add_le_add_left (Nat.mul_le_mul_right 32 hlen) _
  have hend := layoutEnd_le (alignUp w.dirEnd) w.sections
  have hpad := alignUp_lt w.dirEnd
  omega

/-- Different sections have different tags. -/
theorem tag_ne {a b : SectionKind} (h : a ≠ b) : a.tag ≠ b.tag := by
  revert h
  cases a <;> cases b <;> decide

/-- The file of `n` nodes is accepted, with `n` nodes and no tokens. -/
theorem parse_bareBase (xxh3 : Bytes → UInt64) (hpos : 0 < n) (hn : n < 2 ^ 32) :
    ∃ d, BaseDir.parse xxh3 (bareBase xxh3 n) = .ok d ∧ d.header.nodeCount.toNat = n ∧
      d.header.tokenCount = 0 := by
  have howner : (bareHeader n).owner.length ≤ ownerLen := by
    simp [Header.owner, ownerLen]
  have hkinds : ((bareSections n).map Section.kind).Nodup := by
    show [(1 : UInt16), 3, 8].Nodup
    decide
  obtain ⟨dir, hparse, hflags, hown, hsec, hother⟩ :=
    @parse_build xxh3 format 0 _ _ howner hkinds (length_bareBase xxh3 hn)
  have hheader : Header.fromOwner dir.flags dir.owner = bareHeader n := by
    rw [hflags, hown]
    exact fromOwner_owner (bareHeader n) _
  have hfull : ∀ len : Nat, 0 < len → List.replicate len (0 : UInt8) ≠ [] := by
    intro len hlen h
    have := congrArg List.length h
    simp at this
    omega
  have hnodes : bareNodes n ≠ [] := by
    intro h
    have := congrArg List.length h
    rw [length_bareNodes] at this
    exact absurd this (Nat.mul_pos hpos (by decide)).ne'
  have hsecs := @checkCounts_bare n hn (BaseDir.sec ⟨bareHeader n, dir⟩ (bareBase xxh3 n))
  have hnodesSec := (hsec ⟨1, 0, bareNodes n⟩ (by simp [bareSections]) hnodes).1
  have hidxSec := (hsec ⟨3, 0, List.replicate ((n + 1) * 4) 0⟩ (by simp [bareSections])
    (hfull _ (by omega))).1
  have hranksSec := (hsec ⟨8, 0, List.replicate (n * 2) 0⟩ (by simp [bareSections])
    (hfull _ (by omega))).1
  have hcheck := hsecs hnodesSec hidxSec hranksSec (by
    intro kind h1 h2 h3
    refine (hother kind.tag ?_).1
    intro s hs _
    simp only [bareSections, List.mem_cons, List.not_mem_nil, or_false] at hs
    rcases hs with rfl | rfl | rfl
    · exact tag_ne h1.symm
    · exact tag_ne h2.symm
    · exact tag_ne h3.symm)
  refine ⟨⟨bareHeader n, dir⟩, ?_, ?_, rfl⟩
  · unfold BaseDir.parse
    rw [show Dir.parse xxh3 (bareBase xxh3 n) format = .ok dir from hparse]
    simp only [bind_ok, Except.ok.injEq]
    refine ⟨dir, rfl, (), ?_, ?_⟩
    · rw [hheader]
      exact hcheck
    · rw [hheader]
  · show (UInt32.ofNat n).toNat = n
    rw [UInt32.toNat_ofNat']
    exact Nat.mod_eq_of_lt hn

end bare

end GraphR.BaseFile
