import GraphR.Store.RenderAccepted

/-! # A rendered base reads back

    Where every count and heap stays inside its field (`Base.Fits`), rendering goes
    through, `BaseDir::parse` accepts the bytes, and the readers of the file agree
    with the decoded base it was rendered from. -/

namespace GraphR

open Wal ByteLib TableLib BaseFile FaultLib

namespace Base

/-! ## Sizes -/

/-- What the node pass gets: each node with its resolved row and its in-degree. -/
def inputs (b : Base) (rows : List (List BaseEdge)) : List NodePass.Input :=
  b.nodes.entries.zip (rows.zip (inDegrees b.nodes.entries.length rows))

/-- Every count, offset and length of a base has room in its field. -/
structure Room (xxh3 : Bytes → UInt64) (u : Unicode) (b : Base) : Prop where
  nodes : b.nodes.entries.length < 2 ^ 32
  labels : ∀ e ∈ b.nodes.entries, e.2.LabelsFit
  segs : ∀ e ∈ b.nodes.entries, e.2.segs.length < 2 ^ 16
  tokens : ∀ e ∈ (b.lexicon xxh3 u).records.entries, strLen e.2.1 < 2 ^ 16
  segTotal : (b.nodes.entries.flatMap fun e => e.2.segs).length < 2 ^ 32
  edgeTotal : (b.nodes.entries.flatMap fun e => e.2.edges).length < 2 ^ 32
  attrTotal : (b.nodes.entries.flatMap fun e => e.2.attrs).length < 2 ^ 32
  tokenTotal : (b.lexicon xxh3 u).records.entries.length < 2 ^ 32
  triTotal : (TriPass.idsOf (b.lexicon xxh3 u).trigrams.entries).length < 2 ^ 32
  heaps : (b.tables xxh3 u).all (fun t => t.lex.labels.length < 2 ^ 32 ∧
    t.lex.postings.length < 2 ^ 32 ∧ t.attrs.blobs.length < 2 ^ 32) = true

/-- A base compaction may render: what it collects, and room for it. -/
structure Fits (xxh3 : Bytes → UInt64) (u : Unicode) (b : Base) : Prop extends Room xxh3 u b where
  closed : b.Closed
  sorted : b.EdgesSorted
  ranks : b.ranks.length = b.nodes.entries.length

instance {xxh3 : Bytes → UInt64} {u : Unicode} {b : Base} : Decidable (b.Room xxh3 u) :=
  decidable_of_iff
    ((b.nodes.entries.length < 2 ^ 32 ∧ (∀ e ∈ b.nodes.entries, ∀ s ∈ e.2.labels, strLen s < 2 ^ 16) ∧
      (∀ e ∈ b.nodes.entries, e.2.segs.length < 2 ^ 16) ∧
      ∀ e ∈ (b.lexicon xxh3 u).records.entries, strLen e.2.1 < 2 ^ 16) ∧
    ((b.nodes.entries.flatMap fun e => e.2.segs).length < 2 ^ 32 ∧
      (b.nodes.entries.flatMap fun e => e.2.edges).length < 2 ^ 32 ∧
      (b.nodes.entries.flatMap fun e => e.2.attrs).length < 2 ^ 32 ∧
      (b.lexicon xxh3 u).records.entries.length < 2 ^ 32 ∧
      (TriPass.idsOf (b.lexicon xxh3 u).trigrams.entries).length < 2 ^ 32) ∧
    (b.tables xxh3 u).all (fun t => t.lex.labels.length < 2 ^ 32 ∧
      t.lex.postings.length < 2 ^ 32 ∧ t.attrs.blobs.length < 2 ^ 32) = true)
    ⟨fun ⟨⟨h₁, h₂, h₃, h₄⟩, ⟨h₅, h₆, h₇, h₈, h₉⟩, h⟩ => ⟨h₁, h₂, h₃, h₄, h₅, h₆, h₇, h₈, h₉, h⟩,
      fun h => ⟨⟨h.nodes, h.labels, h.segs, h.tokens⟩,
        ⟨h.segTotal, h.edgeTotal, h.attrTotal, h.tokenTotal, h.triTotal⟩, h.heaps⟩⟩

theorem Room.heap {xxh3 : Bytes → UInt64} {u : Unicode} {b : Base} {t : Tables}
    (h : b.Room xxh3 u) (ht : b.tables xxh3 u = some t) :
    t.lex.labels.length < 2 ^ 32 ∧ t.lex.postings.length < 2 ^ 32 ∧
      t.attrs.blobs.length < 2 ^ 32 := by
  have hheaps := h.heaps
  rw [ht] at hheaps
  simpa using hheaps

/-! ## Sections -/

/-- Sections as they are rendered from a base whose resolved rows are `rows`, its
    attribute records `recs`. A base without nodes has no sections. -/
structure Written (xxh3 : Bytes → UInt64) (u : Unicode) (b : Base) (rows : List (List BaseEdge))
    (recs : List (List Bytes)) (s : SectionKind → Bytes) : Prop where
  nodesLength : (s .nodes).length = b.nodes.entries.length * nodeLen
  nodes : ∀ i (hi : i < (b.inputs rows).length), NodePass.NodeAt s i (b.inputs rows)[i]
  segsLength : (s .segs).length = (b.nodes.entries.flatMap fun e => e.2.segs).length * segLen
  segs : ∀ i < (b.nodes.entries.flatMap fun e => e.2.segs).length, (segRec s i).isSome
  edgeIndex : 0 < b.nodes.entries.length →
    s .edgeIndex = (Csr.ofRows (rows.map fun r => r.map writeEdge)).close
  edges : s .edges = (Csr.ofRows (rows.map fun r => r.map writeEdge)).recs
  inEdgeIndex : 0 < b.nodes.entries.length → s .inEdgeIndex
    = (Csr.ofRows ((inboundRows b.nodes.entries.length rows).map fun r => r.map writeEdge)).close
  inEdges : s .inEdges
    = (Csr.ofRows ((inboundRows b.nodes.entries.length rows).map fun r => r.map writeEdge)).recs
  attrIndex : s .attrIndex = if 0 < recs.flatten.length then (Csr.ofRows recs).close else []
  attrs : s .attrs = (Csr.ofRows recs).recs
  attrWidth : ∀ row ∈ recs, ∀ r ∈ row, r.length = attrLen ∧ (range r 1 3).all (· == 0) = true
  attrCount : recs.length = b.nodes.entries.length
  attrReads : ∀ i (hi : i < recs.length) (hi' : i < b.nodes.entries.length),
    recs[i].mapM (attrRec (s .blobs)) = some b.nodes.entries[i].2.attrs
  ranks : s .ranks = b.ranks.flatMap putU16
  lexLength : (s .lexicon).length = (b.lexicon xxh3 u).records.entries.length * lexLen
  tokens : ∀ i (hi : i < (b.lexicon xxh3 u).records.entries.length),
    LexPass.TokenAt s i (b.lexicon xxh3 u).records.entries[i]
  postings : (s .postings).length < 2 ^ 32
  order : s .lexOrder = ((b.lexicon xxh3 u).order.map UInt32.ofNat).flatMap putU32
  triLength : (s .trigrams).length = (b.lexicon xxh3 u).trigrams.entries.length * triLen
  triPostings : s .triPostings
    = ((TriPass.idsOf (b.lexicon xxh3 u).trigrams.entries).map UInt32.ofNat).flatMap putU32
  trigrams : ∀ i (hi : i < (b.lexicon xxh3 u).trigrams.entries.length),
    TriPass.TriAt (s .trigrams) (s .triPostings) i (b.lexicon xxh3 u).trigrams.entries[i]

section inputs
variable {b : Base} {rows : List (List BaseEdge)} (hlen : rows.length = b.nodes.entries.length)
include hlen

theorem length_inputs : (b.inputs rows).length = b.nodes.entries.length := by
  simp [inputs, hlen, length_inDegrees]

theorem getElem_inputs {i : Nat} (hi : i < b.nodes.entries.length) :
    getElem (b.inputs rows) i (by rwa [length_inputs hlen]) = (b.nodes.entries[i], rows[i],
      getElem (inDegrees b.nodes.entries.length rows) i (by rwa [length_inDegrees])) := by
  simp [inputs]

theorem segsOf_inputs :
    NodePass.segsOf (b.inputs rows) = b.nodes.entries.flatMap fun e => e.2.segs := by
  have hfst : (b.inputs rows).map Prod.fst = b.nodes.entries := by
    rw [inputs, List.map_fst_zip]
    simp [hlen, length_inDegrees]
  rw [NodePass.segsOf, ← hfst, List.flatMap_map]

theorem rowsOf_inputs : ((b.inputs rows).map fun e => e.2.1.map writeEdge)
    = rows.map fun r => r.map writeEdge := by
  apply List.ext_getElem
  · simp [length_inputs hlen, hlen]
  · intro i hi hi'
    have hn : i < b.nodes.entries.length := by
      rw [List.length_map, length_inputs hlen] at hi
      exact hi
    rw [List.getElem_map, List.getElem_map, getElem_inputs hlen hn]

end inputs

/-! ## Totals -/

theorem length_flatten_congr {α β : Type} {xs : List (List α)} {ys : List (List β)}
    (hlen : xs.length = ys.length)
    (h : ∀ i (hi : i < xs.length) (hi' : i < ys.length), xs[i].length = ys[i].length) :
    xs.flatten.length = ys.flatten.length := by
  rw [List.length_flatten, List.length_flatten]
  congr 1
  apply List.ext_getElem
  · simpa using hlen
  · intro i hi hi'
    simp only [List.length_map] at hi hi'
    simpa using h i hi hi'

namespace Written

variable {xxh3 : Bytes → UInt64} {u : Unicode} {b : Base} {rows : List (List BaseEdge)}
  {recs : List (List Bytes)} {s : SectionKind → Bytes} (hw : Written xxh3 u b rows recs s)
include hw

theorem attr_total : recs.flatten.length = (b.nodes.entries.flatMap fun e => e.2.attrs).length := by
  rw [List.flatMap_def]
  refine length_flatten_congr (by rw [hw.attrCount, List.length_map]) ?_
  intro i hi hi'
  rw [List.length_map] at hi'
  rw [List.getElem_map]
  exact (FaultLib.length_of_mapM (hw.attrReads i hi hi')).symm

theorem width_of_mem {r : Bytes} (hr : r ∈ recs.flatten) : r.length = attrLen := by
  obtain ⟨row, hrow, hr⟩ := List.mem_flatten.mp hr
  exact (hw.attrWidth row hrow r hr).1

theorem length_attrs : (s .attrs).length = recs.flatten.length * attrLen := by
  rw [hw.attrs, Csr.recs_ofRows]
  exact length_flatten_const fun r => hw.width_of_mem

end Written

section rows
variable {b : Base} {rows : List (List BaseEdge)} (hlen : rows.length = b.nodes.entries.length)
  (hrows : ∀ i (hi : i < b.nodes.entries.length) (hi' : i < rows.length),
    b.nodes.entries[i].2.edges.mapM b.resolve = some rows[i])
include hlen hrows

theorem length_rows : rows.flatten.length = (b.nodes.entries.flatMap fun e => e.2.edges).length := by
  rw [List.flatMap_def]
  refine length_flatten_congr (by simpa using hlen) ?_
  intro i hi hi'
  rw [List.length_map] at hi'
  rw [List.getElem_map]
  exact FaultLib.length_of_mapM (hrows i hi' hi)

/-- Turning the rows around loses no edge. -/
theorem length_flatten_inboundRows :
    (inboundRows b.nodes.entries.length rows).flatten.length = rows.flatten.length := by
  rw [inboundRows, length_flatten_scatter]
  · -- one event for each edge, whatever the number of the first row
    have hone : ∀ (k : Nat) (rs : List (List BaseEdge)), ((rs.zipIdx k).flatMap fun r =>
        r.1.map fun e => (e.node, { e with node := r.2 })).length = rs.flatten.length := by
      intro k rs
      induction rs generalizing k with
      | nil => rfl
      | cons r rs ih =>
        rw [List.zipIdx_cons, List.flatMap_cons, List.length_append, List.length_map, ih (k + 1),
          List.flatten_cons, List.length_append]
    exact hone 0 rows
  · intro e he
    obtain ⟨r, hr, he⟩ := List.mem_flatMap.mp he
    obtain ⟨d, hd, rfl⟩ := List.mem_map.mp he
    exact node_lt_of_row hlen hrows r.1 (List.fst_mem_of_mem_zipIdx hr) d hd

/-- Sources are nodes. -/
theorem node_lt_of_inboundRow : ∀ row ∈ inboundRows b.nodes.entries.length rows, ∀ e ∈ row,
    e.node < b.nodes.entries.length := by
  intro row hrow e he
  obtain ⟨i, hi, rfl⟩ := List.getElem_of_mem hrow
  rw [length_inboundRows] at hi
  have hget := getElem_inboundRows hlen hrows hi
  rw [List.getElem?_eq_getElem (by rwa [length_inboundRows])] at hget
  rw [Option.some.inj hget] at he
  obtain ⟨r, hr, he⟩ := List.mem_flatMap.mp he
  obtain ⟨d, -, rfl⟩ := List.mem_map.mp he
  obtain ⟨hlt, -⟩ := List.getElem?_eq_some_iff.mp (List.mem_zipIdx_iff_getElem?.mp hr)
  exact hlt

end rows

/-! ## Rendering goes through -/

section tables
variable {xxh3 : Bytes → UInt64} {u : Unicode} {b : Base}

/-- What is posted under a token: ids of nodes, ascending. -/
theorem token_ids {e : UInt64 × String × List Nat} (he : e ∈ (b.lexicon xxh3 u).records.entries) :
    e.2.2.Pairwise (· < ·) ∧ ∀ i ∈ e.2.2, i < b.nodes.entries.length := by
  have hcollected := @collected_collectTokens xxh3 u b.nodes
  have hget : (collectTokens xxh3 u b.nodes).get e.1 = some e.2 := SortedMap.mem_entries.mp he
  have hids : postedIds (collectTokens xxh3 u b.nodes) e.1 = e.2.2 := by
    rw [postedIds, hget]
    rfl
  refine ⟨hids ▸ hcollected.posts.ascending e.1, ?_⟩
  intro i hi
  rw [← hids, hcollected.posts.mem] at hi
  obtain ⟨⟨t, j⟩, hev, heq⟩ := List.mem_map.mp hi
  obtain rfl : j = i := congrArg Prod.snd heq
  obtain ⟨k, m, hnode, -⟩ := mem_tokenEvents.mp hev
  exact (List.getElem?_eq_some_iff.mp hnode).1

/-- The collected tokens can be written. -/
theorem tokenFits (hfit : b.Fits xxh3 u) :
    ∀ e ∈ (b.lexicon xxh3 u).records.entries, LexPass.TokenFits e := by
  intro e he
  obtain ⟨hasc, hids⟩ := token_ids he
  exact ⟨hfit.tokens e he, hasc, fun i hi => lt_trans (hids i hi) hfit.nodes⟩

/-- A trigram's positions are positions of tokens. -/
theorem trigram_id_lt {e : Nat × List Nat} (he : e ∈ (b.lexicon xxh3 u).trigrams.entries) :
    ∀ j ∈ e.2, j < (b.lexicon xxh3 u).records.entries.length := by
  intro j hj
  have hget : (b.lexicon xxh3 u).trigrams.get e.1 = some e.2 := SortedMap.mem_entries.mp he
  have hposted : j ∈ Lexicon.posted (b.lexicon xxh3 u).trigrams e.1 := by
    rw [Lexicon.posted, hget]
    exact hj
  have hlt := @Lexicon.posted_lt (Lexicon.tokensOf (collectTokens xxh3 u b.nodes)) _ _ hposted
  rwa [Lexicon.tokensOf, List.length_map] at hlt

theorem length_order :
    (b.lexicon xxh3 u).order.length = (b.lexicon xxh3 u).records.entries.length := by
  have hperm := (Lexicon.perm_orderOf (Lexicon.tokensOf (collectTokens xxh3 u b.nodes))).length_eq
  rw [List.length_range, Lexicon.tokensOf, List.length_map] at hperm
  exact hperm

/-- The order holds positions of tokens. -/
theorem order_lt {i : Nat} (hi : i ∈ (b.lexicon xxh3 u).order) :
    i < (b.lexicon xxh3 u).records.entries.length := by
  have hrange := (Lexicon.perm_orderOf
    (Lexicon.tokensOf (collectTokens xxh3 u b.nodes))).mem_iff.mp hi
  rw [List.mem_range, Lexicon.tokensOf, List.length_map] at hrange
  exact hrange

/-- Everything the passes leave. -/
structure Passes (xxh3 : Bytes → UInt64) (u : Unicode) (b : Base) (rows : List (List BaseEdge))
    (recs : List (List Bytes)) (t : Tables) : Prop where
  length : rows.length = b.nodes.entries.length
  resolved : ∀ i (hi : i < b.nodes.entries.length) (hi' : i < rows.length),
    b.nodes.entries[i].2.edges.mapM b.resolve = some rows[i]
  pass : t.pass.Holds (b.inputs rows)
  inbound : t.inbound
    = Csr.ofRows ((inboundRows b.nodes.entries.length rows).map fun r => r.map writeEdge)
  attrs : t.attrs.Holds (b.nodes.entries.map fun e => e.2.attrs) recs
  lex : LexPass.Holds ⟨t.pass.labels, [], []⟩ t.lex (b.lexicon xxh3 u).records.entries
  postings : t.lex.postings.length < 2 ^ 32
  tri : t.tri.Holds (b.lexicon xxh3 u).trigrams.entries
  order : t.order = ((b.lexicon xxh3 u).order.map UInt32.ofNat).flatMap putU32
  ranks : t.ranks = b.ranks.flatMap putU16

theorem tables_spec (hfit : b.Fits xxh3 u) :
    ∃ t rows recs, b.tables xxh3 u = some t ∧ Passes xxh3 u b rows recs t := by
  obtain ⟨rows, hedges, hlen, hrows⟩ := edgeRows_spec hfit.closed hfit.sorted
  -- past the edges only the lexicon pass can fail, and what it gets fits
  obtain ⟨lex, hlex⟩ := Option.isSome_iff_exists.mp
    (LexPass.foldlM_isSome (tokenFits hfit) ⟨(b.nodePass rows).labels, [], []⟩)
  have htables : b.tables xxh3 u = some
      { pass := b.nodePass rows, lex
        inbound := .ofRows ((inboundRows b.nodes.entries.length rows).map fun r => r.map writeEdge)
        attrs := b.nodes.entries.foldl (fun p e => p.pushRow e.2.attrs) ⟨.empty, []⟩
        order := (b.lexicon xxh3 u).order.flatMap fun i => putU32 (UInt32.ofNat i)
        tri := (b.lexicon xxh3 u).trigrams.entries.foldl TriPass.push ⟨[], []⟩
        ranks := b.ranks.flatMap putU16 } := by
    unfold tables
    rw [hedges, Option.bind_eq_bind, Option.bind_some]
    simp only [hlex]
    rfl
  obtain ⟨hlabels, hpostings, hblobs⟩ := hfit.heap htables
  simp only at hlabels hpostings hblobs
  have hholds := LexPass.holds_foldlM (tokenFits hfit) rfl hlex hlabels hpostings
  -- the attribute pass looks at the attributes of a node only
  have hfold : b.nodes.entries.foldl (fun p e => p.pushRow e.2.attrs) (⟨.empty, []⟩ : AttrPass)
      = (b.nodes.entries.map fun e => e.2.attrs).foldl AttrPass.pushRow ⟨.empty, []⟩ := by
    rw [List.foldl_map]
  rw [hfold] at hblobs
  obtain ⟨recs, hrecs⟩ := AttrPass.holds_foldl hblobs
  have hinputs : ∀ e ∈ b.inputs rows, NodePass.InputFits e := by
    intro e he
    obtain ⟨hnode, -⟩ := List.of_mem_zip he
    exact ⟨hfit.labels e.1 hnode, hfit.segs e.1 hnode⟩
  refine ⟨_, rows, recs, htables, hlen, hrows, ?_, rfl, ?_, hholds, hpostings,
    TriPass.holds_foldl hfit.triTotal, flatMap_ofNat _, rfl⟩
  · have hsegs : (NodePass.segsOf (b.inputs rows)).length < 2 ^ 32 := by
      rw [segsOf_inputs hlen]
      exact hfit.segTotal
    exact NodePass.holds_foldl hinputs (lt_of_le_of_lt hholds.labels.length_le hlabels) hsegs
  · rw [hfold]
    exact hrecs

/-! ## The sections of the file -/

theorem nodup_filled (t : Tables) : (t.filled.map Prod.fst).Nodup := by
  unfold Tables.filled
  split_ifs <;> simp

/-- Each section of a file with nodes; the optional ones where they are written. -/
theorem sectionOf_filled (t : Tables) :
    (sectionOf t.filled .nodes = t.pass.nodes ∧
      sectionOf t.filled .segs = (if 0 < t.pass.segTotal then t.pass.segs else []) ∧
      sectionOf t.filled .edgeIndex = t.pass.edges.close ∧
      sectionOf t.filled .edges = (if 0 < t.pass.edges.total then t.pass.edges.recs else []) ∧
      sectionOf t.filled .labels = t.lex.labels) ∧
    (sectionOf t.filled .lexicon = (if t.lex.lexicon = [] then [] else t.lex.lexicon) ∧
      sectionOf t.filled .postings = (if t.lex.lexicon = [] then [] else t.lex.postings) ∧
      sectionOf t.filled .inEdgeIndex = t.inbound.close ∧
      sectionOf t.filled .inEdges = t.inbound.recs) ∧
    (sectionOf t.filled .attrIndex
        = (if 0 < t.attrs.recs.total then t.attrs.recs.close else []) ∧
      sectionOf t.filled .attrs = (if 0 < t.attrs.recs.total then t.attrs.recs.recs else []) ∧
      sectionOf t.filled .blobs = (if 0 < t.attrs.recs.total then t.attrs.blobs else [])) ∧
    sectionOf t.filled .ranks = t.ranks ∧ sectionOf t.filled .lexOrder = t.order ∧
      sectionOf t.filled .trigrams = t.tri.trigrams ∧
      sectionOf t.filled .triPostings = t.tri.postings := by
  -- an optional section is found where its condition holds
  have hite : ∀ (kind : SectionKind) (c : Prop) [Decidable c] (l : List (SectionKind × Bytes)),
      (if c then l else []).find? (fun s => s.1 = kind)
        = if c then l.find? (fun s => s.1 = kind) else none := by
    intro kind c _ l
    split_ifs <;> rfl
  have hite' : ∀ (kind : SectionKind) (c : Prop) [Decidable c] (l : List (SectionKind × Bytes)),
      (if c then [] else l).find? (fun s => s.1 = kind)
        = if c then none else l.find? (fun s => s.1 = kind) := by
    intro kind c _ l
    split_ifs <;> rfl
  simp only [sectionOf, Tables.filled, List.find?_append, hite, hite', List.find?_cons,
    List.find?_nil, reduceCtorEq, decide_true, decide_false, ite_self, Option.none_or,
    Option.or_none, Option.elim_some, true_and, and_true]
  split_ifs <;> simp

/-- The sections of the file: none without nodes. -/
def fileSection (b : Base) (t : Tables) : SectionKind → Bytes :=
  sectionOf (if 0 < b.nodes.entries.length then t.filled else [])

theorem nil_of_total {bs : Bytes} {n w : Nat} (hlen : bs.length = n * w) (hn : n < 2 ^ 32)
    (hzero : ¬0 < UInt32.ofNat n) : bs = [] := by
  rw [UInt32.lt_iff_toNat_lt, toNat_ofNat_u32 hn] at hzero
  obtain rfl : n = 0 := Nat.eq_zero_of_not_pos hzero
  rw [Nat.zero_mul] at hlen
  exact List.eq_nil_of_length_eq_zero hlen

/-- A base without nodes has nothing to index. -/
theorem lexicon_of_nil (hnodes : b.nodes.entries = []) :
    (b.lexicon xxh3 u).records.entries = [] ∧ (b.lexicon xxh3 u).order = [] ∧
      (b.lexicon xxh3 u).trigrams.entries = [] := by
  have hevents : tokenEvents u b.nodes = [] := by
    rw [tokenEvents, hnodes]
    rfl
  rw [lexicon, collectTokens, hevents]
  exact ⟨rfl, rfl, rfl⟩

variable {rows : List (List BaseEdge)} {recs : List (List Bytes)} {t : Tables}

theorem written_nil (h : Passes xxh3 u b rows recs t) (hnodes : b.nodes.entries = []) (hranks : b.ranks = []) :
    Written xxh3 u b rows recs fun _ => [] := by
  obtain ⟨hrecords, horder, htrigrams⟩ := @lexicon_of_nil xxh3 u b hnodes
  obtain rfl : rows = [] := List.eq_nil_of_length_eq_zero (by rw [h.length, hnodes]; rfl)
  obtain rfl : recs = [] := List.eq_nil_of_length_eq_zero (by rw [h.attrs.length, hnodes]; rfl)
  constructor <;> simp [hnodes, hrecords, horder, htrigrams, hranks, inputs, inboundRows, scatter,
    Csr.ofRows, Csr.empty, TriPass.idsOf]

theorem written_filled (hfit : b.Fits xxh3 u) (h : Passes xxh3 u b rows recs t) :
    Written xxh3 u b rows recs (sectionOf t.filled) := by
  obtain ⟨⟨hnodes, hsegs, hedgeIndex, hedges, hlabels⟩, ⟨hlexicon, hpostings, hinIndex, hinEdges⟩,
    ⟨hattrIndex, hattrs, hblobs⟩, hranks, horder, htri, htriPost⟩ := sectionOf_filled t
  have hpassEdges := h.pass.edges
  rw [rowsOf_inputs h.length] at hpassEdges
  have hsegCount := congrArg List.length (segsOf_inputs h.length)
  -- a section left out is one with nothing in it
  have hsegs' : sectionOf t.filled .segs = t.pass.segs := by
    rw [hsegs]
    split_ifs with hpos
    · rfl
    · rw [h.pass.segTotal, hsegCount] at hpos
      exact (nil_of_total (by rw [h.pass.segs, hsegCount]) hfit.segTotal hpos).symm
  have hlexicon' : sectionOf t.filled .lexicon = t.lex.lexicon := by
    rw [hlexicon]
    split_ifs with hnil
    · exact hnil.symm
    · rfl
  -- the labels of the lexicon come after those of the nodes, in one heap
  have hext : Extends t.pass.sec (sectionOf t.filled) := by
    intro kind
    cases kind with
    | nodes =>
      rw [hnodes]
      exact List.prefix_rfl
    | segs =>
      rw [hsegs']
      exact List.prefix_rfl
    | labels =>
      rw [hlabels]
      exact h.lex.labels
    | _ => exact List.nil_prefix
  have hattrTotal : recs.flatten.length = (b.nodes.entries.flatMap fun e => e.2.attrs).length := by
    rw [List.flatMap_def]
    refine length_flatten_congr h.attrs.length ?_
    intro i hi hi'
    exact (FaultLib.length_of_mapM (h.attrs.reads i hi hi')).symm
  have hattrPos : 0 < t.attrs.recs.total ↔ 0 < recs.flatten.length := by
    rw [h.attrs.recs, Csr.total_ofRows, UInt32.lt_iff_toNat_lt,
      toNat_ofNat_u32 (by rw [hattrTotal]; exact hfit.attrTotal)]
    rfl
  constructor
  · rw [hnodes, h.pass.nodes, length_inputs h.length]
  · intro i hi
    exact (h.pass.reads i hi).extends hext
  · rw [hsegs', h.pass.segs, hsegCount]
  · intro i hi
    rw [← hsegCount] at hi
    obtain ⟨r, hr⟩ := Option.isSome_iff_exists.mp (h.pass.segReads i hi)
    rw [segRec_extends hext hr]
    rfl
  · intro _
    rw [hedgeIndex, hpassEdges]
  · rw [hedges, hpassEdges]
    split_ifs with hpos
    · rfl
    · have hflat : (rows.map fun r => r.map writeEdge).flatten.length
          = (b.nodes.entries.flatMap fun e => e.2.edges).length := by
        rw [← List.map_flatten, List.length_map, length_rows h.length h.resolved]
      rw [Csr.total_ofRows] at hpos
      refine (@nil_of_total _ (rows.map fun r => r.map writeEdge).flatten.length edgeLen
        ?_ (by rw [hflat]; exact hfit.edgeTotal) hpos).symm
      rw [Csr.recs_ofRows]
      refine length_flatten_const ?_
      intro r hr
      obtain ⟨row, hrow, hr⟩ := List.mem_flatten.mp hr
      obtain ⟨row', -, rfl⟩ := List.mem_map.mp hrow
      obtain ⟨e, -, rfl⟩ := List.mem_map.mp hr
      exact length_writeEdge e
  · intro _
    rw [hinIndex, h.inbound]
  · rw [hinEdges, h.inbound]
  · rw [h.attrs.recs] at hattrPos
    rw [hattrIndex, h.attrs.recs]
    simp only [hattrPos]
  · rw [hattrs]
    split_ifs with hpos
    · rw [h.attrs.recs]
    · rw [hattrPos] at hpos
      rw [Csr.recs_ofRows, List.eq_nil_of_length_eq_zero (Nat.eq_zero_of_not_pos hpos)]
      rfl
  · exact h.attrs.width
  · rw [h.attrs.length, List.length_map]
  · intro i hi hi'
    have hread := h.attrs.reads i hi (by rwa [List.length_map])
    rw [List.getElem_map] at hread
    rw [hblobs]
    split_ifs with hpos
    · exact hread
    · -- no attribute at all: the row is empty
      rw [hattrPos] at hpos
      have hnil : recs[i] = [] := by
        have hzero := List.eq_nil_of_length_eq_zero (Nat.eq_zero_of_not_pos hpos)
        exact List.flatten_eq_nil_iff.mp hzero _ (List.getElem_mem hi)
      rw [hnil] at hread ⊢
      exact hread
  · rw [hranks, h.ranks]
  · rw [hlexicon', h.lex.length]
  · intro i hi
    -- a lexicon with a record has its postings written
    have hne : t.lex.lexicon ≠ [] := by
      intro hnil
      have hlen := h.lex.length
      rw [hnil, List.length_nil] at hlen
      have hpos : 0 < (b.lexicon xxh3 u).records.entries.length * lexLen :=
        Nat.mul_pos (Nat.lt_of_le_of_lt (Nat.zero_le i) hi) (by decide)
      omega
    refine (h.lex.reads i hi).extends ?_
    intro kind
    cases kind with
    | labels =>
      rw [hlabels]
      exact List.prefix_rfl
    | lexicon =>
      rw [hlexicon']
      exact List.prefix_rfl
    | postings =>
      rw [hpostings, if_neg hne]
      exact List.prefix_rfl
    | _ => exact List.nil_prefix
  · rw [hpostings]
    split_ifs
    · exact Nat.two_pow_pos 32
    · exact h.postings
  · rw [horder, h.order]
  · rw [htri, h.tri.length]
  · rw [htriPost, h.tri.postings]
  · intro i hi
    rw [htri, htriPost]
    exact h.tri.reads i hi

/-- The sections of the file are as rendered. -/
theorem written_fileSection (hfit : b.Fits xxh3 u) (h : Passes xxh3 u b rows recs t) :
    Written xxh3 u b rows recs (b.fileSection t) := by
  unfold fileSection
  split_ifs with hpos
  · exact written_filled hfit h
  · have hnil := List.eq_nil_of_length_eq_zero (Nat.eq_zero_of_not_pos hpos)
    refine written_nil h hnil (List.eq_nil_of_length_eq_zero ?_)
    rw [hfit.ranks, hnil]
    rfl

/-! ## Acceptance -/

theorem header_counts (hfit : b.Fits xxh3 u) (h : Passes xxh3 u b rows recs t)
    (generation walAppliedSeq : UInt64) :
    (b.header xxh3 u t generation walAppliedSeq).nodeCount.toNat = b.nodes.entries.length ∧
    (b.header xxh3 u t generation walAppliedSeq).segCount.toNat
      = (b.nodes.entries.flatMap fun e => e.2.segs).length ∧
    (b.header xxh3 u t generation walAppliedSeq).edgeCount.toNat = rows.flatten.length ∧
    (b.header xxh3 u t generation walAppliedSeq).tokenCount.toNat
      = (b.lexicon xxh3 u).records.entries.length := by
  have hpassEdges := h.pass.edges
  rw [rowsOf_inputs h.length] at hpassEdges
  refine ⟨toNat_ofNat_u32 hfit.nodes, ?_, ?_, toNat_ofNat_u32 hfit.tokenTotal⟩
  · rw [header]
    simp only
    rw [h.pass.segTotal, segsOf_inputs h.length]
    exact toNat_ofNat_u32 hfit.segTotal
  · rw [header]
    simp only
    rw [hpassEdges, Csr.total_ofRows, ← List.map_flatten, List.length_map]
    refine toNat_ofNat_u32 ?_
    rw [length_rows h.length h.resolved]
    exact hfit.edgeTotal

section accepted
variable {s : SectionKind → Bytes} {hd : Header}
  (hfit : b.Fits xxh3 u) (h : Passes xxh3 u b rows recs t) (hw : Written xxh3 u b rows recs s)
  (hnodes : hd.nodeCount.toNat = b.nodes.entries.length)
  (hsegs : hd.segCount.toNat = (b.nodes.entries.flatMap fun e => e.2.segs).length)
  (hedges : hd.edgeCount.toNat = rows.flatten.length)
  (htokens : hd.tokenCount.toNat = (b.lexicon xxh3 u).records.entries.length)

/-- Rows of edges as bytes have as many records. -/
theorem length_recs (rows : List (List BaseEdge)) :
    (Csr.ofRows (rows.map fun r => r.map writeEdge)).recs.length = rows.flatten.length * edgeLen := by
  rw [Csr.recs_ofRows, ← List.map_flatten]
  refine (length_flatten_const ?_).trans (by rw [List.length_map])
  intro r hr
  obtain ⟨e, -, rfl⟩ := List.mem_map.mp hr
  exact length_writeEdge e

include hfit h in
theorem rows_lt : rows.flatten.length < 2 ^ 32 := by
  rw [length_rows h.length h.resolved]
  exact hfit.edgeTotal

theorem map_flatten_length (rows : List (List BaseEdge)) :
    (rows.map fun r => r.map writeEdge).flatten.length = rows.flatten.length := by
  rw [← List.map_flatten, List.length_map]

include hfit h hw hnodes hedges

theorem checkEdges_written (hpos : 0 < b.nodes.entries.length) : BaseFile.checkEdges s hd = .ok () := by
  unfold BaseFile.checkEdges
  rw [hw.edgeIndex hpos, hw.edges, hnodes, hedges, bind_ok]
  have hcover := @checkCover_close (rows.map fun r => r.map writeEdge)
    (by rw [map_flatten_length]; exact rows_lt hfit h) (.format "edge index not monotone")
    (.format "edge index does not cover edges")
  rw [map_flatten_length, List.length_map, h.length] at hcover
  refine ⟨(), hcover, checkEnds_rows ?_ _⟩
  rw [hnodes]
  exact node_lt_of_row h.length h.resolved

theorem checkReverse_written (hpos : 0 < b.nodes.entries.length) : checkReverse s hd = .ok () := by
  have hinbound := length_flatten_inboundRows h.length h.resolved
  have hdiv : recs.flatten.length * attrLen / attrLen = recs.flatten.length :=
    Nat.mul_div_cancel _ (by decide)
  unfold checkReverse
  simp only [bind_ok, check_ok, hnodes, hedges, hw.length_attrs, hdiv]
  refine ⟨(), ?_, (), ?_, (), ?_, (), Nat.mul_mod_left _ _, (), ?_, ?_⟩
  · rw [hw.inEdges, length_recs, hinbound]
  · rw [hw.inEdgeIndex hpos]
    have hcsr := @checkCsr_close ((inboundRows b.nodes.entries.length rows).map fun r =>
      r.map writeEdge) (by rw [map_flatten_length, hinbound]; exact rows_lt hfit h) "inbound edge"
    rwa [map_flatten_length, hinbound, List.length_map, length_inboundRows] at hcsr
  · rw [hw.inEdges, ← hinbound]
    refine checkEnds_rows ?_ _
    rw [hnodes]
    exact node_lt_of_inboundRow h.length h.resolved
  · -- without an attribute there is no index, and nothing to check
    rw [hw.attrIndex]
    split_ifs with hattrs
    · have hcsr := @checkCsr_close recs (by rw [hw.attr_total]; exact hfit.attrTotal) "attribute"
      rwa [hw.attrCount] at hcsr
    · rw [Nat.eq_zero_of_not_pos hattrs]
      rfl
  · rw [each_ok]
    intro i hi
    rw [List.mem_range] at hi
    have hslice := @slice_flatten attrLen recs.flatten (fun r => hw.width_of_mem) i hi
    -- the record stands in some row, which reads back
    rw [hw.attrs, Csr.recs_ofRows, recordAt_of_slice hslice]
    obtain ⟨row, hrow, hr⟩ := List.mem_flatten.mp (List.getElem_mem hi)
    obtain ⟨j, hj, hget⟩ := List.getElem_of_mem hrow
    have hread := hw.attrReads j hj (hw.attrCount ▸ hj)
    rw [hget] at hread
    obtain ⟨a, -, ha⟩ := FaultLib.exists_of_mapM hread hr
    exact checkAttr_of_attrRec ha (hw.attrWidth row hrow _ hr).2

omit hfit h hnodes hedges in
include htokens in
theorem checkTokens_written : checkTokens s hd = .ok () := by
  have hpostLen : (s .triPostings).length
      = (TriPass.idsOf (b.lexicon xxh3 u).trigrams.entries).length * 4 := by
    rw [hw.triPostings, length_words, List.length_map]
  have hdiv : (b.lexicon xxh3 u).trigrams.entries.length * triLen / triLen
      = (b.lexicon xxh3 u).trigrams.entries.length := Nat.mul_div_cancel _ (by decide)
  unfold checkTokens
  simp only [bind_ok, check_ok, each_ok, List.mem_range, hw.triLength, hdiv, htokens]
  -- the order, the two trigram tables, then the records
  refine ⟨(), ⟨?_, ?_⟩, (), ⟨Nat.mul_mod_left _ _, ?_⟩, (), ?_, ?_⟩
  · rw [hw.order, length_words, List.length_map, length_order]
  · rw [hw.order, words_flatMap, List.all_eq_true]
    intro w hmem
    obtain ⟨i, hi, rfl⟩ := List.mem_map.mp hmem
    have hlt := order_lt hi
    rw [← htokens] at hlt
    rw [decide_eq_true_eq, UInt32.lt_iff_toNat_lt, toNat_ofNat_u32 (lt_trans hlt hd.tokenCount.toNat_lt)]
    exact hlt
  · rw [hpostLen]
    exact Nat.mul_mod_left _ _
  · intro i hi
    refine checkTrigram_of_triAt (hw.trigrams i hi) ?_
    intro j hj
    rw [htokens]
    exact trigram_id_lt (List.getElem_mem hi) j hj
  · exact checkLexicon_of_tokens (b.lexicon xxh3 u).records.sorted hw.tokens
      (Nat.le_of_eq (Nat.zero_add _)) (by simp)

include hsegs htokens in
/-- The validator accepts the sections. -/
theorem checkCounts_written : checkCounts s hd = .ok () := by
  have hsorted : (b.inputs rows).Pairwise fun a b => a.1.1 < b.1.1 := by
    have hfst : (b.inputs rows).map Prod.fst = b.nodes.entries := by
      rw [inputs, List.map_fst_zip]
      simp [h.length, length_inDegrees]
    have hmap := b.nodes.sorted
    rw [← hfst, List.pairwise_map] at hmap
    exact hmap
  have hedgesLen : (s .edges).length = rows.flatten.length * edgeLen := by
    rw [hw.edges, length_recs]
  unfold checkCounts expect
  simp only [bind_ok, check_ok, onlyIf_ok, each_ok, List.mem_range, hnodes, hsegs, hedges, htokens]
  -- in the order of the source: sizes first, then what the records point to
  refine ⟨(), hw.nodesLength, (), hw.segsLength, (), hedgesLen, (), hw.lexLength, (), ?_, (), ?_, (),
    ?_, (), checkEdges_written hfit h hw hnodes hedges, (),
    checkReverse_written hfit h hw hnodes hedges, (), checkTokens_written hw htokens, ?_⟩
  · intro hpos
    refine ⟨(), ?_, ?_⟩
    · rw [hw.edgeIndex hpos, Csr.length_close, List.length_map, h.length]
    · rw [hw.ranks, length_flatMap_const length_putU16, hfit.ranks, Nat.mul_comm]
      rfl
  · intro i hi
    exact checkNode_of_nodeAt (hw.nodes i (by rwa [length_inputs h.length])) hw.segsLength
  · intro i hi
    exact checkSeg_of_segRec (hw.segs i hi)
  · exact checkSorted_of_nodes hsorted hw.nodes
      (by rw [length_inputs h.length, Nat.zero_add]) (by simp)

end accepted

end tables

end Base

end GraphR
