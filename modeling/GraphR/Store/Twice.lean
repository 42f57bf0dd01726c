import GraphR.Store.Recompact
import GraphR.Store.RenderedFile

/-! # Compacting twice

    The files that two compactions write, with nothing committed in between. Stubs are
    kept by the edges of everything collected, also of stubs that are dropped, so a stub
    that only such a stub refers to outlives it by one compaction. Where there is none
    (`Base.Anchored`), the second file has the sections of the first, and its header but
    for the generation. -/

namespace GraphR

open Wal ByteLib BaseFile

/-! ## The file under a generation -/

namespace BaseFile

/-- The finished file of a header and sections. -/
def fileOf (xxh3 : Bytes → UInt64) (f : Header × List (SectionKind × Bytes)) : Bytes :=
  (f.2.foldl BaseWriter.addSection (BaseWriter.new f.1)).finish xxh3

/-- Two files that differ in nothing but the header's generation and its checksum. -/
def SameButGeneration (first second : Bytes) : Prop :=
  second.length = first.length ∧
    ∀ i, ¬(48 ≤ i ∧ i < 56) → ¬(120 ≤ i ∧ i < 128) → second[i]? = first[i]?

theorem getElem?_replaced {a x y b : Bytes} (hlen : x.length = y.length) {i : Nat}
    (hi : ¬(a.length ≤ i ∧ i < a.length + x.length)) :
    (a ++ (x ++ b))[i]? = (a ++ (y ++ b))[i]? := by
  rcases Nat.lt_or_ge i a.length with hlt | hge
  · rw [List.getElem?_append_left hlt, List.getElem?_append_left hlt]
  · rw [List.getElem?_append_right hge, List.getElem?_append_right hge,
      List.getElem?_append_right (by omega), List.getElem?_append_right (by omega), hlen]

theorem writer_eq (h : Header) (secs : List (SectionKind × Bytes)) :
    secs.foldl BaseWriter.addSection (BaseWriter.new h) = ⟨format, h.flags,
      h.owner ++ List.replicate 48 0,
      (secs.map fun s => ⟨s.1.tag, 0, s.2⟩).filter fun s => !s.bytes.isEmpty⟩ := by
  have hbuild : secs.foldl BaseWriter.addSection (BaseWriter.new h)
      = Container.Writer.build format h.flags h.owner (secs.map fun s => ⟨s.1.tag, 0, s.2⟩) := by
    unfold Container.Writer.build
    rw [List.foldl_map]
    rfl
  have howner : h.owner.length = 40 := by simp [Header.owner]
  rw [hbuild, Container.Writer.build_eq (by rw [howner]; decide), howner]
  rfl

/-- Where the generation and the header's checksum stand in the file. -/
theorem fileOf_generation (xxh3 : Bytes → UInt64) (h : Header)
    (secs : List (SectionKind × Bytes)) : ∃ a b c : Bytes, a.length = 48 ∧ b.length = 64 ∧
      ∀ g, ∃ sum, fileOf xxh3 ({ h with generation := g }, secs)
        = a ++ (putU64 g ++ (b ++ (putU64 sum ++ c))) := by
  generalize hsecs : ((secs.map fun s => (⟨s.1.tag, 0, s.2⟩ : Container.Section)).filter
    fun s => !s.bytes.isEmpty) = written
  -- the writer of a generation; its layout and its directory are the same for all
  let w : UInt64 → Container.Writer := fun g =>
    ⟨format, h.flags, Header.owner { h with generation := g } ++ List.replicate 48 0, written⟩
  let a := putU32 format.magic ++ (putU16 format.version ++ (putU16 h.flags ++
    (putU32 (UInt32.ofNat Container.headerLen) ++ (putU32 (UInt32.ofNat written.length) ++
      (putU64 (UInt64.ofNat (w 0).total) ++ (putU64 (xxh3 ((w 0).dir xxh3)) ++
        (putU32 h.nodeCount ++ (putU32 h.segCount ++ (putU32 h.edgeCount ++
          putU32 h.tokenCount)))))))))
  let b := putU64 h.walAppliedSeq ++ (putU64 h.createdAtMs ++ List.replicate 48 0)
  have hbody : ∀ g, (w g).headerBody xxh3 = a ++ (putU64 g ++ b) := by
    intro g
    simp only [w, a, b, Container.Writer.headerBody, Header.owner, List.append_assoc]
    rfl
  have howner : ∀ g, (w g).owner.length = Container.ownerLen := by
    intro g
    simp [w, Header.owner, Container.ownerLen]
  let rest := Container.Writer.body (w 0).dirEnd written
  refine ⟨a, b, (w 0).dir xxh3 ++ (rest ++ List.replicate
    (Container.alignUp ((w 0).dirEnd + rest.length) - ((w 0).dirEnd + rest.length)) 0),
    ?_, ?_, fun g => ⟨xxh3 ((w g).headerBody xxh3), ?_⟩⟩
  · simp [a]
  · simp [b]
  · have hfile : fileOf xxh3 ({ h with generation := g }, secs) = (w g).finish xxh3 := by
      rw [fileOf, writer_eq, hsecs]
    rw [hfile, Container.Writer.finish_eq (howner g), Container.Writer.padded, List.length_append,
      Container.Writer.length_head (howner g), Container.Writer.head]
    nth_rewrite 1 [hbody g]
    simp only [List.append_assoc]
    rfl

/-- So the files of two generations are the same but for them. -/
theorem sameButGeneration_fileOf (xxh3 : Bytes → UInt64) (h : Header)
    (secs : List (SectionKind × Bytes)) (g g' : UInt64) :
    SameButGeneration (fileOf xxh3 ({ h with generation := g }, secs))
      (fileOf xxh3 ({ h with generation := g' }, secs)) := by
  obtain ⟨a, b, c, ha, hb, hfile⟩ := fileOf_generation xxh3 h secs
  obtain ⟨sum, hfirst⟩ := hfile g
  obtain ⟨sum', hsecond⟩ := hfile g'
  rw [hfirst, hsecond]
  refine ⟨by simp, fun i hi hi' => ?_⟩
  have hgen := @getElem?_replaced a (putU64 g') (putU64 g) (b ++ (putU64 sum' ++ c)) (by simp) i
    (by rw [ha, length_putU64]; omega)
  have hsum := @getElem?_replaced (a ++ (putU64 g ++ b)) (putU64 sum') (putU64 sum) c (by simp) i
    (by simp only [List.length_append, ha, hb, length_putU64]; omega)
  simp only [List.append_assoc] at hsum
  rw [hgen, hsum]

/-- The pass over the nodes writes one record after the other. -/
theorem NodePass.length_nodes_foldl (es : List NodePass.Input) (p : NodePass) :
    (es.foldl (fun p e => p.pushNode e.1 e.2.1 e.2.2) p).nodes.length
      = p.nodes.length + es.length * nodeLen := by
  induction es generalizing p with
  | nil => simp
  | cons e es ih =>
    rw [List.foldl_cons, ih, NodePass.pushNode]
    simp only [List.length_append, List.length_cons]
    rw [length_writeNodeRec]
    ring

end BaseFile

namespace Base

section file
variable (xxh3 : Bytes → UInt64) (u : Unicode) (b : Base)

/-- The header and the sections of the rendered file. -/
def file (generation walAppliedSeq : UInt64) : Option (Header × List (SectionKind × Bytes)) :=
  (b.tables xxh3 u).map fun t => (b.header xxh3 u t generation walAppliedSeq,
    if 0 < b.nodes.entries.length then t.filled else [])

theorem render_eq (generation walAppliedSeq : UInt64) : b.render xxh3 u generation walAppliedSeq
    = (b.file xxh3 u generation walAppliedSeq).map (fileOf xxh3) := by
  unfold render file
  cases b.tables xxh3 u <;> rfl

variable {xxh3 u b} {g seq : UInt64} {f : Header × List (SectionKind × Bytes)}

/-- Under another generation the header is the same but for it. -/
theorem file_generation (hf : b.file xxh3 u g seq = some f) (g' : UInt64) :
    b.file xxh3 u g' seq = some ({ f.1 with generation := g' }, f.2) := by
  obtain ⟨t, ht, rfl⟩ := Option.map_eq_some_iff.mp hf
  rw [file, ht]
  rfl

/-- The section of the nodes tells how many there are. -/
theorem length_nodes_of_file (hf : b.file xxh3 u g seq = some f) :
    (sectionOf f.2 .nodes).length = b.nodes.entries.length * nodeLen := by
  obtain ⟨t, ht, rfl⟩ := Option.map_eq_some_iff.mp hf
  obtain ⟨rows, hrows, ht⟩ := Option.bind_eq_some_iff.mp ht
  obtain ⟨lex, -, ht⟩ := Option.bind_eq_some_iff.mp ht
  cases ht
  have hlen : rows.length = b.nodes.entries.length := FaultLib.length_of_mapM hrows
  by_cases hnodes : 0 < b.nodes.entries.length
  · simp only [if_pos hnodes, (sectionOf_filled _).1.1]
    have hwritten := NodePass.length_nodes_foldl (b.inputs rows) .empty
    rw [length_inputs hlen] at hwritten
    exact hwritten.trans (by simp [NodePass.empty])
  · have hzero : b.nodes.entries.length = 0 := by omega
    simp [hzero, sectionOf]

end file

end Base

/-! ## The condition -/

section anchored
variable (b : Base) (ops : List Op) (ttl : TtlConfig)

/-- The node of `src` has an edge to `k`. -/
def Base.Refers (src k : UrlKey) : Prop :=
  ∃ n es, (b.snapshot ops ttl).node src = some (some n) ∧
    (b.snapshot ops ttl).neighbors src = some es ∧ ∃ e ∈ es, e.dstKey = k

/-- Whatever a node refers to, and is no document, is referred to by one that compaction
    keeps: a document, or a stub that is itself referred to. -/
def Base.Anchored : Prop :=
  ∀ src k, b.Refers ops ttl src k →
    (∀ n, (b.snapshot ops ttl).node k = some (some n) → n.isStub = true) →
    ∃ src' n, b.Refers ops ttl src' k ∧ (b.snapshot ops ttl).node src' = some (some n) ∧
      (n.isStub = false ∨ ∃ r, b.Refers ops ttl r src')

variable {b ops ttl} {xxh3 : Bytes → UInt64}

theorem Written.refers_iff (h : Written b ops) {src k : UrlKey} : b.Refers ops ttl src k ↔
    ∃ m, b.modelAt xxh3 ops ttl src = some m ∧ ∃ e ∈ m.edges, e.dst = k := by
  obtain ⟨es, hes, hraw⟩ := @Base.neighbors_snapshot b ops ttl h.closed src
  have hnorm := normEdges_of_ascending (h.edges_ascending src)
  have hedges : (∃ e ∈ es, e.dstKey = k) ↔
      ∃ e ∈ mergedEdges (b.nodes.get src) (foldKey src none ops), e.dst = k := by
    rw [← hraw]
    simp [EdgeRef.raw]
  unfold Base.Refers Base.modelAt
  rw [Base.node_snapshot, ← Base.nodeAt, hes]
  cases hn : b.nodeAt ops ttl src with
  | none => simp
  | some n =>
    simp only [Option.map_some, Option.some.injEq, exists_eq_left', NodeRef.toModel, hnorm, ← hedges]
    constructor
    · rintro ⟨_, _, -, rfl, hto⟩
      exact hto
    · exact fun hto => ⟨n, es, rfl, rfl, hto⟩

theorem Base.stub_of_modelAt {k : UrlKey} {m : NodeModel}
    (hm : b.modelAt xxh3 ops ttl k = some m) :
    ∃ n, (b.snapshot ops ttl).node k = some (some n) ∧ n.isStub = hasFlag m.flags nflags.stub := by
  obtain ⟨n, hn, rfl⟩ := Option.map_eq_some_iff.mp hm
  exact ⟨n, (Base.node_snapshot b ops ttl k).trans (congrArg some hn), rfl⟩

theorem Base.modelAt_of_node {k : UrlKey} {n : NodeRef}
    (hn : (b.snapshot ops ttl).node k = some (some n)) :
    ∃ m, b.modelAt xxh3 ops ttl k = some m ∧ n.isStub = hasFlag m.flags nflags.stub := by
  rw [Base.node_snapshot, Option.some.injEq] at hn
  exact ⟨_, congrArg (Option.map _) hn, rfl⟩

/-- The first compaction leaves every stub a target if and only if the store is anchored. -/
theorem Written.anchored_iff (h : Written b ops) {nodes : SortedMap UrlKey NodeModel}
    (hnodes : (b.snapshot ops ttl).compactNodes xxh3 = some nodes) :
    (∀ k m, nodes.get k = some m → hasFlag m.flags nflags.stub = true →
      ∃ src m', nodes.get src = some m' ∧ ∃ e ∈ m'.edges, e.dst = k) ↔ b.Anchored ops ttl := by
  obtain ⟨models, hmodels, hget⟩ := @Base.collectModels_snapshot xxh3 b ops ttl h.closed
  rw [Snapshot.compactNodes, hmodels] at hnodes
  cases hnodes
  have hrefers : ∀ src k, b.Refers ops ttl src k ↔
      ∃ m, models.get src = some m ∧ ∃ e ∈ m.edges, e.dst = k := by
    intro src k
    rw [hget]
    exact h.refers_iff
  have hreferred : ∀ k, k ∈ referenced models ↔ ∃ src, b.Refers ops ttl src k := by
    intro k
    rw [mem_referenced]
    exact exists_congr fun src => (hrefers src k).symm
  constructor
  · intro htargets src k href hstub
    have hin := (hreferred k).mpr ⟨src, href⟩
    -- it has a stub in the base, which some kept model refers to
    obtain ⟨m, hm, hflag⟩ : ∃ m, (manageStubs models).get k = some m ∧
        hasFlag m.flags nflags.stub = true := by
      rw [get_manageStubs]
      cases hmodel : models.get k with
      | none => exact ⟨stubModel, if_pos hin, rfl⟩
      | some m =>
        rw [hget] at hmodel
        obtain ⟨n, hn, hsame⟩ := Base.stub_of_modelAt hmodel
        exact ⟨m, if_neg fun hno => hno.2 hin, hsame ▸ hstub n hn⟩
    obtain ⟨src', m', hm', hto⟩ := htargets k m hm hflag
    rw [get_manageStubs] at hm'
    cases hmodel : models.get src' with
    | none =>
      -- a new stub refers to nothing
      rw [hmodel] at hm'
      simp only at hm'
      split_ifs at hm'
      cases hm'
      obtain ⟨e, he, -⟩ := hto
      cases he
    | some m'' =>
      rw [hmodel] at hm'
      simp only at hm'
      split_ifs at hm' with hkept
      cases hm'
      obtain ⟨n, hn, hsame⟩ := Base.stub_of_modelAt ((hget src').symm.trans hmodel)
      refine ⟨src', n, (hrefers src' k).mpr ⟨m', hmodel, hto⟩, hn, ?_⟩
      rw [not_and_or, not_not, hreferred, ← hsame, Bool.not_eq_true] at hkept
      exact hkept
  · intro hanchored k m hm hflag
    -- a stub that is kept or added is a target of what was collected
    have hin : ∃ src, b.Refers ops ttl src k := by
      rw [← hreferred]
      rw [get_manageStubs] at hm
      cases hmodel : models.get k with
      | none =>
        rw [hmodel] at hm
        simp only at hm
        split_ifs at hm with hin
        exact hin
      | some m' =>
        rw [hmodel] at hm
        simp only at hm
        split_ifs at hm with hkept
        cases hm
        by_contra hout
        exact hkept ⟨hflag, hout⟩
    obtain ⟨src, href⟩ := hin
    have hstub : ∀ n, (b.snapshot ops ttl).node k = some (some n) → n.isStub = true := by
      intro n hn
      obtain ⟨m', hm', hsame⟩ := @Base.modelAt_of_node b ops ttl xxh3 k n hn
      rw [← hget] at hm'
      rw [get_manageStubs, hm'] at hm
      simp only at hm
      split_ifs at hm
      cases hm
      exact hsame.trans hflag
    obtain ⟨src', n, href', hn, hkept⟩ := hanchored src k href hstub
    obtain ⟨m', hm', hto⟩ := (hrefers src' k).mp href'
    refine ⟨src', m', ?_, hto⟩
    rw [get_manageStubs, hm']
    simp only
    rw [if_neg]
    rintro ⟨hflag', hout⟩
    obtain ⟨m'', hm'', hsame⟩ := @Base.modelAt_of_node b ops ttl xxh3 src' n hn
    rw [← hget, hm'] at hm''
    cases hm''
    rcases hkept with hdoc | hreferred'
    · rw [hsame, hflag'] at hdoc
      cases hdoc
    · exact hout ((hreferred src').mpr hreferred')

end anchored

/-! ## Twice -/

/-- Compaction is idempotent on anchored stores, and on no others. Let a written store be
    compacted, and compacted again with nothing committed in between. The second
    compaction keeps every node, if and only if the store was anchored; so does every
    stub the first one keeps have an edge to it in that base; so are the sections of the
    second file those of the first, byte for byte, and its header the same but for the
    generation. Of the bytes of the two files none differ then but those of the
    generation and of the header's checksum. -/
theorem compact_twice (xxh3 : Bytes → UInt64) (rank : SortedMap UrlKey NodeModel → List UInt16)
    (u : Unicode) (ttl : TtlConfig) {b : Base} {ops : List Op} (h : Reach xxh3 rank b ops) :
    ∃ nodes nodes', (b.snapshot ops ttl).compactNodes xxh3 = some nodes ∧
      (Base.snapshot ⟨nodes, rank nodes⟩ [] ttl).compactNodes xxh3 = some nodes' ∧
      ((∀ k, (nodes.get k).isSome → (nodes'.get k).isSome) ↔ b.Anchored ops ttl) ∧
      ((∀ k m, nodes.get k = some m → hasFlag m.flags nflags.stub = true →
        ∃ src m', nodes.get src = some m' ∧ ∃ e ∈ m'.edges, e.dst = k) ↔ b.Anchored ops ttl) ∧
      ∀ (g g' seq : UInt64) (f : Header × List (SectionKind × Bytes)),
        Base.file xxh3 u ⟨nodes, rank nodes⟩ g seq = some f →
        (Base.file xxh3 u ⟨nodes', rank nodes'⟩ g' seq = some ({ f.1 with generation := g' }, f.2) ↔
          b.Anchored ops ttl) ∧
        (b.Anchored ops ttl → ∃ first second,
          Base.render xxh3 u ⟨nodes, rank nodes⟩ g seq = some first ∧
          Base.render xxh3 u ⟨nodes', rank nodes'⟩ g' seq = some second ∧
          SameButGeneration first second) := by
  have hw := h.written
  obtain ⟨models, hmodels, -⟩ := @Base.collectModels_snapshot xxh3 b ops ttl hw.closed
  have hnodes : (b.snapshot ops ttl).compactNodes xxh3 = some (manageStubs models) := by
    rw [Snapshot.compactNodes, hmodels]
    rfl
  generalize manageStubs models = nodes at hnodes
  have hfolded := hw.folded hnodes
  have hanchored := hw.anchored_iff hnodes
  have hfixed := hfolded.fixed_iff.trans hanchored
  -- a node that is kept is kept as it is, so where none goes nothing changes
  have hkept : (∀ k, (nodes.get k).isSome → ((manageStubs nodes).get k).isSome) →
      manageStubs nodes = nodes := by
    intro hall
    refine SortedMap.ext_get fun k => ?_
    have hk := hall k
    rw [hfolded.get_again] at hk ⊢
    cases hm : nodes.get k with
    | none => rfl
    | some m =>
      rw [hm] at hk
      obtain ⟨m', hm'⟩ := Option.isSome_iff_exists.mp (hk rfl)
      rw [hm', ← (Option.filter_eq_some_iff.mp hm').1]
  refine ⟨nodes, manageStubs nodes, hnodes, hfolded.compactNodes _, ?_, hanchored,
    fun g g' seq f hf => ⟨?_, ?_⟩⟩
  · rw [← hfixed]
    exact ⟨hkept, fun hsame k hk => by rwa [hsame]⟩
  · rw [← hfixed]
    constructor
    · intro hsecond
      -- with a node less, the section of the nodes is shorter
      have hfirst := Base.length_nodes_of_file hf
      have hless := Base.length_nodes_of_file hsecond
      have hcount : (manageStubs nodes).entries.length = nodes.entries.length :=
        Nat.eq_of_mul_eq_mul_right (by decide) (hless.symm.trans hfirst)
      have hsub : (manageStubs nodes).entries.Sublist nodes.entries := by
        rw [hfolded.again_eq_filter]
        exact List.filter_sublist
      refine SortedMap.ext_get fun k => Option.ext fun m => ?_
      rw [← SortedMap.mem_entries, ← SortedMap.mem_entries, hsub.eq_of_length hcount]
    · intro hsame
      rw [hsame]
      exact Base.file_generation hf g'
  · intro hall
    rw [hfixed.mpr hall, Base.render_eq, Base.render_eq, hf, Base.file_generation hf g']
    exact ⟨_, _, rfl, rfl, sameButGeneration_fileOf xxh3 f.1 f.2 f.1.generation g'⟩

/-- A second document links to the stub, which gets a link of its own. -/
def linkKept : List Op := [.upsert ⟨2, 5, 7, 0, "b", none, none, none⟩, .edges 2 [⟨9, 0, 1, 3⟩],
  .edges 9 [⟨10, 0, 1, 3⟩]]

theorem compact_twice_linkKept : ∃ nodes nodes' first second,
    (firstBase oneLink).Anchored linkKept TtlConfig.default ∧
    ((firstBase oneLink).snapshot linkKept TtlConfig.default).compactNodes packHash = some nodes ∧
    (nodes.get 10).isSome ∧
    (Base.snapshot ⟨nodes, evenRanks nodes⟩ [] TtlConfig.default).compactNodes packHash
      = some nodes' ∧
    Base.render packHash .ascii ⟨nodes, evenRanks nodes⟩ 2 5 = some first ∧
    Base.render packHash .ascii ⟨nodes', evenRanks nodes'⟩ 3 5 = some second ∧
    SameButGeneration first second := by
  obtain ⟨nodes, nodes', hnodes, hnodes', -, -, hfiles⟩ :=
    @compact_twice packHash evenRanks .ascii TtlConfig.default (firstBase oneLink) linkKept
      (reach_firstBase (by simp [oneLink, StagedOp, hasFlag, Ascending])
        (by simp [linkKept, StagedOp, hasFlag, Ascending]))
  have hcheck : (((firstBase oneLink).snapshot linkKept TtlConfig.default).compactNodes
      packHash).all (fun nodes => (nodes.get 10).isSome &&
        ((Base.snapshot ⟨nodes, evenRanks nodes⟩ [] TtlConfig.default).compactNodes packHash).all
          fun nodes' => (Base.file packHash .ascii ⟨nodes, evenRanks nodes⟩ 2 5).any fun f =>
            decide (Base.file packHash .ascii ⟨nodes', evenRanks nodes'⟩ 3 5
              = some ({ f.1 with generation := 3 }, f.2))) = true := by decide +kernel
  rw [hnodes, Option.all_some, Bool.and_eq_true, hnodes', Option.all_some] at hcheck
  obtain ⟨f, hf, hsame⟩ := (Option.any_eq_true _ _).mp hcheck.2
  obtain ⟨hiff, hbytes⟩ := hfiles 2 3 5 f hf
  have hanchored := hiff.mp (of_decide_eq_true hsame)
  obtain ⟨first, second, hfirst, hsecond, hbut⟩ := hbytes hanchored
  exact ⟨nodes, nodes', first, second, hanchored, hnodes, hcheck.1, hnodes', hfirst, hsecond, hbut⟩

/-- A stub loses the link to it, with a link of its own: the first compaction drops it and
    keeps what it links to, which the second drops. -/
theorem compact_twice_drops_stub : ∃ nodes nodes' f f',
    Reach packHash evenRanks (firstBase oneLink) linkMoved ∧
    ((firstBase oneLink).snapshot linkMoved TtlConfig.default).compactNodes packHash = some nodes ∧
    (Base.snapshot ⟨nodes, evenRanks nodes⟩ [] TtlConfig.default).compactNodes packHash
      = some nodes' ∧ (nodes.get 10).isSome ∧ nodes'.get 10 = none ∧
    Base.file packHash .ascii ⟨nodes, evenRanks nodes⟩ 2 4 = some f ∧
    Base.file packHash .ascii ⟨nodes', evenRanks nodes'⟩ 3 4 = some f' ∧ f'.2 ≠ f.2 := by
  have hcheck : (((firstBase oneLink).snapshot linkMoved TtlConfig.default).compactNodes
      packHash).any (fun nodes => (nodes.get 10).isSome &&
        ((Base.snapshot ⟨nodes, evenRanks nodes⟩ [] TtlConfig.default).compactNodes packHash).any
          fun nodes' => (nodes'.get 10).isNone &&
        (Base.file packHash .ascii ⟨nodes, evenRanks nodes⟩ 2 4).any fun f =>
          (Base.file packHash .ascii ⟨nodes', evenRanks nodes'⟩ 3 4).any fun f' =>
            decide (f'.2 ≠ f.2)) = true := by decide +kernel
  obtain ⟨nodes, hnodes, hcheck⟩ := (Option.any_eq_true _ _).mp hcheck
  obtain ⟨hin, hcheck⟩ := (Bool.and_eq_true _ _).mp hcheck
  obtain ⟨nodes', hnodes', hcheck⟩ := (Option.any_eq_true _ _).mp hcheck
  obtain ⟨hout, hcheck⟩ := (Bool.and_eq_true _ _).mp hcheck
  obtain ⟨f, hf, hcheck⟩ := (Option.any_eq_true _ _).mp hcheck
  obtain ⟨f', hf', hcheck⟩ := (Option.any_eq_true _ _).mp hcheck
  exact ⟨nodes, nodes', f, f',
    reach_firstBase (by simp [oneLink, StagedOp, hasFlag, Ascending])
      (by simp [linkMoved, StagedOp, Ascending]),
    hnodes, hnodes', hin, Option.isNone_iff_eq_none.mp hout, hf, hf', of_decide_eq_true hcheck⟩

end GraphR
