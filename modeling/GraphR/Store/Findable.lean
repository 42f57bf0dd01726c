import GraphR.Store.Reach
import GraphR.Store.SearchReads

/-! # What queries find

    A query judges liveness from two views. A base record is dropped by its own flags
    and by an overlay removal, so a document the base holds live is still found under
    an uncompacted tombstone (`Base.Shadowed`), and nothing else that is not live is
    (`query_live`). A node of the overlay alone is scanned directly; one whose key the
    base holds as a stub or a tombstone is dropped by both paths until compaction
    (`fresh_findable_iff`). -/

namespace GraphR

open Wal ByteLib LookupLib

/-! ## Reported records and fresh nodes of a written store -/

section written
variable {b : Base} {ops : List Op} {ttl : TtlConfig}

/-- A reported key is one the base holds with neither flag. -/
theorem get_of_reports {id : Nat} {k : UrlKey} (h : (b.snapshot ops ttl).Reports id k) :
    ∃ m, b.nodes.get k = some m ∧ hasFlag m.flags nflags.tombstone = false ∧
      hasFlag m.flags nflags.stub = false := by
  obtain ⟨r, hr, hkey, htomb, hstub⟩ := h.record
  have hr' : b.nodes.entries[id]?.map (fun e => e.2.toRec e.1) = some r := hr
  obtain ⟨⟨k', m⟩, hentry, rfl⟩ := Option.map_eq_some_iff.mp hr'
  obtain rfl : k' = k := hkey
  exact ⟨m, SortedMap.mem_entries.mp (List.mem_of_getElem? hentry), htomb, hstub⟩

/-- What the overlay scan reads of a key. -/
theorem freshHay_snapshot (u : Unicode) (k : UrlKey) {hay : List String} :
    freshHay u (b.snapshot ops ttl) k = some (some hay) ↔ b.nodes.get k = none ∧
      ∃ n, b.nodeAt ops ttl k = some n ∧ n.isTombstone = false ∧ n.url ≠ "" ∧
        hay = ([searchable n.url] ++ n.title.toList ++ n.snippet.toList).flatMap u.terms := by
  have hfind : (b.snapshot ops ttl).base.findNode k = some (b.idOf k) := rfl
  unfold freshHay
  rw [hfind, Base.node_snapshot, ← Base.nodeAt, ← Base.idOf_eq_none]
  simp only [Option.bind_eq_bind, Option.bind_some]
  cases b.idOf k with
  | some id => simp
  | none =>
    cases b.nodeAt ops ttl k with
    | none => simp
    | some n =>
      simp only [true_and]
      by_cases hskip : n.isTombstone = true ∨ n.url = ""
      · rw [if_pos hskip]
        constructor
        · intro h
          cases h
        · rintro ⟨n', hn', htomb, hurl, -⟩
          cases hn'
          rw [htomb] at hskip
          exact absurd (hskip.resolve_left (by simp)) hurl
      · rw [if_neg hskip]
        rw [not_or] at hskip
        constructor
        · intro h
          cases h
          exact ⟨n, rfl, by simpa using hskip.1, hskip.2, rfl⟩
        · rintro ⟨n', hn', -, -, rfl⟩
          cases hn'
          rfl

variable {xxh3 : Bytes → UInt64} {rank : SortedMap UrlKey NodeModel → List UInt16}

/-- A node over a base record that is no stub is no stub. -/
theorem Written.kept_not_stub (h : Written b ops) {k : UrlKey} {m : NodeModel} {n : NodeRef}
    (hm : b.nodes.get k = some m) (hstub : hasFlag m.flags nflags.stub = false)
    (hn : b.nodeAt ops ttl k = some n) : n.isStub = false := by
  rw [isStub_mergedRef hn, hm]
  cases hcore : ((foldKey k none ops).getD {}).core with
  | none => simpa using hstub
  | some c => exact (h.patch k).1 c hcore

end written

/-! ## Live answers -/

/-- A document the base holds live, under an uncompacted tombstone. -/
structure Base.Shadowed (b : Base) (ops : List Op) (ttl : TtlConfig) (k : UrlKey) : Prop where
  base : ∃ m, b.nodes.get k = some m ∧ hasFlag m.flags nflags.tombstone = false ∧
    hasFlag m.flags nflags.stub = false
  node : ∃ n, b.nodeAt ops ttl k = some n ∧ n.isTombstone = true

/-- The node of a key is a document: there, and neither stub nor tombstone. -/
def Base.IsLive (b : Base) (ops : List Op) (ttl : TtlConfig) (k : UrlKey) : Prop :=
  ∃ n, b.nodeAt ops ttl k = some n ∧ n.isStub = false ∧ n.isTombstone = false

section live
variable {F : Type} {A : F32 F} {u : Unicode} {xxh3 : Bytes → UInt64} {b : Base} {ops : List Op}
  {ttl : TtlConfig} {ix : SearchReader}

/-- A query's hits are the rendering of its candidates. -/
theorem query_eq_some {s : Snapshot} {sc left : Scratch F} {text : String} {opts : QueryOpts}
    {hits : List (Hit F)} (h : query A u xxh3 s ix sc text opts = some (hits, left)) :
    hits = [] ∨ ∃ ranked, candidates A u xxh3 s ix sc (u.dedupTerms text) opts = some (ranked, left) ∧
      render u xxh3 s (u.dedupTerms text) opts ranked 0 [] = some hits := by
  unfold query at h
  by_cases hterms : u.dedupTerms text = []
  · simp only [hterms, if_true] at h
    cases h
    exact .inl rfl
  · simp only [hterms, if_false] at h
    obtain ⟨⟨ranked, left'⟩, hranked, h⟩ := Option.bind_eq_some_iff.mp h
    obtain ⟨hits', hhits, h⟩ := Option.bind_eq_some_iff.mp h
    cases h
    exact .inr ⟨ranked, hranked, hhits⟩

/-- A hit of a written store is live, or shadowed. -/
theorem hit_live_or_shadowed (hw : Written b ops) {sc left : Scratch F} {text : String}
    {opts : QueryOpts} {hits : List (Hit F)}
    (h : query A u xxh3 (b.snapshot ops ttl) ix sc text opts = some (hits, left)) :
    ∀ hit ∈ hits, b.IsLive ops ttl hit.key ∨ b.Shadowed ops ttl hit.key := by
  intro hit hhit
  rcases query_eq_some h with rfl | ⟨ranked, hranked, hrender⟩
  · cases hhit
  · rcases mem_render hrender hit hhit with hnil | ⟨⟨c, hc, hkey⟩, n, hn, -⟩
    · cases hnil
    · rw [Base.node_snapshot, Option.some.injEq] at hn
      obtain ⟨fresh, hfresh, hmem, -⟩ := mem_candidates hranked
      rcases hmem c hc with ⟨id, hid⟩ | ⟨sc', hsc⟩
      · -- a base record: no stub, and a tombstone only by the overlay
        rw [hkey] at hid
        obtain ⟨m, hm, htomb, hstub⟩ := get_of_reports hid
        by_cases hdead : n.isTombstone = true
        · exact .inr ⟨⟨m, hm, htomb, hstub⟩, n, hn, hdead⟩
        · exact .inl ⟨n, hn, hw.kept_not_stub hm hstub hn, by simpa using hdead⟩
      · rw [hkey] at hsc
        obtain ⟨-, hay, hhay, -⟩ := (mem_freshHits hfresh).mp hsc
        obtain ⟨hbase, n', hn', hdead, -⟩ := (freshHay_snapshot u hit.key).mp hhay
        exact .inl ⟨n', hn', hw.fresh_not_stub hn' hbase, hdead⟩

/-- A shadowed document is a base record that queries report. -/
theorem Base.Shadowed.reports {k : UrlKey} (h : b.Shadowed ops ttl k) : ∃ id m,
    b.nodes.entries[id]? = some (k, m) ∧ b.nodes.get k = some m ∧
      (b.snapshot ops ttl).Reports id k := by
  obtain ⟨⟨m, hm, htomb, hstub⟩, n, hn, -⟩ := h
  obtain ⟨id, hid⟩ := List.mem_iff_getElem?.mp (SortedMap.mem_entries.mpr hm)
  refine ⟨id, m, hid, hm, ⟨m.toRec k, ?_, rfl, htomb, hstub⟩, ?_⟩
  · show b.nodes.entries[id]?.map (fun e => e.2.toRec e.1) = some (m.toRec k)
    rw [hid]
    rfl
  · -- a key with a node is not removed
    rw [Base.overlay_snapshot]
    by_contra hrem
    rw [Bool.not_eq_false] at hrem
    unfold Base.nodeAt mergedRef at hn
    rw [if_pos hrem] at hn
    cases hn

/-- With room for every scored node among the seeds and for every candidate, a query
    whose one term is an indexed token of a base record finds the record, if queries report
    it and its key has a node. -/
theorem Base.token_found (hb : b.Closed) {id : Nat} {k : UrlKey} {m : NodeModel} {t : String}
    (hid : b.nodes.entries[id]? = some (k, m)) (ht : t ∈ m.tokens u)
    (hrep : (b.snapshot ops ttl).Reports id k) {n : NodeRef} (hn : b.nodeAt ops ttl k = some n)
    {text : String} (hterms : u.dedupTerms text = [t]) (len : Nat) :
    ∃ seeds, ∀ opts : QueryOpts, seeds ≤ opts.maxSeeds → ∃ ranked left,
      candidates A u xxh3 (b.snapshot ops ttl) (b.searchReader xxh3 u) (.zeros A len) [t] opts
        = some (ranked, left) ∧
      (Roomy u xxh3 (b.snapshot ops ttl) [t] opts ranked → ∃ hits,
        query A u xxh3 (b.snapshot ops ttl) (b.searchReader xxh3 u) (.zeros A len) text opts
          = some (hits, left) ∧ ∃ hit ∈ hits, hit.key = k) := by
  have hrun : ∀ opts, ∃ st ranked left,
      scoreTerms A xxh3 (b.searchReader xxh3 u).toLexReader
        (A.nat (max b.nodes.entries.length 1)) [t] (.zeros A (max len b.nodes.entries.length))
        = some st ∧
      rankScored A u (b.snapshot ops ttl) (b.searchReader xxh3 u)
        (A.nat (max b.nodes.entries.length 1)) [t] opts st = some ranked ∧
      candidates A u xxh3 (b.snapshot ops ttl) (b.searchReader xxh3 u) (.zeros A len) [t] opts
        = some (ranked, left) := by
    intro opts
    obtain ⟨ranked, hranked⟩ := @Base.candidates_run F A u xxh3 b ops ttl hb [t] opts len
    obtain ⟨st, hst, hrank, -⟩ := candidates_eq_some hranked
    rw [grow_zeros] at hst
    exact ⟨st, ranked, _, hst, hrank, hranked⟩
  obtain ⟨st, -, -, hst, -, -⟩ := hrun ⟨0, 0, 0, 0⟩
  -- the token's postings name the record, so it is scored
  have hscored : id ∈ st.scored := by
    obtain ⟨-, -, hposted⟩ := (listed_zeros _).terms hst
    obtain ⟨out, hout, hall⟩ := hposted (t, 0) (by simp)
    obtain ⟨e, he, ids, hids, hmem⟩ := Base.exists_posting hid ht hout
    obtain ⟨o, ho, hpost⟩ := hall e he
    obtain rfl : o = some ids := Option.some.inj (ho.symm.trans hids)
    exact hpost ids rfl id hmem (lt_of_lt_of_le (List.getElem?_eq_some_iff.mp hid).1
      (le_max_right _ _))
  -- with a seed for everything scored, no selection drops it
  refine ⟨st.best.length + st.scored.length, fun opts hseeds => ?_⟩
  obtain ⟨st', ranked, left, hst', hrank, hranked⟩ := hrun opts
  obtain rfl : st = st' := Option.some.inj (hst.symm.trans hst')
  obtain ⟨r, hr, hkept⟩ := ranked_of_scored hrank hseeds hscored
  have hkey : r.key = k := by
    have hr' : b.nodes.entries[id]?.map (fun e => e.2.toRec e.1) = some r := hr
    rw [hid] at hr'
    cases hr'
    rfl
  obtain ⟨c, hc, hck⟩ := hkept (by rw [hkey]; exact hrep)
  obtain ⟨hits, hhits⟩ := Option.isSome_iff_exists.mp (@render_isSome F u xxh3
    (b.snapshot ops ttl) [t] opts (Base.reader_sound hb) ranked 0 [])
  refine ⟨ranked, left, hranked, fun hroom => ⟨hits, ?_, ?_⟩⟩
  · unfold query
    simp only [hterms, List.cons_ne_nil, if_false, hranked, Option.bind_eq_bind, Option.bind_some,
      hhits]
  · have hnode : (b.snapshot ops ttl).node c.key = some (some n) := by
      rw [hck, hkey, Base.node_snapshot]
      exact congrArg some hn
    obtain ⟨hit, hhit, heq⟩ := render_roomy hroom hhits hc hnode
    exact ⟨hit, hhit, heq.trans (hck.trans hkey)⟩

end live

/-! ## Compacted stores -/

/-- Rational arithmetic, with the tangent of the logarithm at one. -/
def F32.rational : F32 ℚ :=
  ⟨id, (· + ·), (· * ·), (· / ·), fun x => x - 1, Max.max, fun a b => some (compare a b)⟩

/-- A rank for each node, all alike. -/
def evenRanks (nodes : SortedMap UrlKey NodeModel) : List UInt16 :=
  List.replicate nodes.entries.length 0

/-- The base one compaction makes of ops over a new store. -/
def firstBase (ops : List Op) : Base :=
  (((Base.snapshot ⟨SortedMap.empty, []⟩ ops TtlConfig.default).compactNodes packHash).map
    fun nodes => ⟨nodes, evenRanks nodes⟩).getD ⟨SortedMap.empty, []⟩

theorem reach_firstBase {ops new : List Op} (hops : ∀ op ∈ ops, StagedOp op)
    (hnew : ∀ op ∈ new, StagedOp op) : Reach packHash evenRanks (firstBase ops) new := by
  have hbase : Reach packHash evenRanks (firstBase ops) [] := by
    unfold firstBase
    cases hnodes : (Base.snapshot ⟨SortedMap.empty, []⟩ ops
        TtlConfig.default).compactNodes packHash with
    | none => exact .create
    | some nodes => exact .compact (.commit .create hops) hnodes
  exact .commit hbase hnew

/-- Two documents with a title each. -/
def catAndDog : List Op :=
  [.upsert ⟨1, 5, 7, 0, "a", some "cat", none, none⟩,
    .upsert ⟨2, 5, 7, 0, "b", some "dog", none, none⟩]

/-- The first document is gone at its host. -/
def catGone : List Op := [.touch 1 ⟨9, 0, none, none, 60, 1, 1, 9, true⟩]

/-- A third document, whose title starts as the first one's. -/
def catalog : List Op := [.upsert ⟨3, 5, 7, 0, "c", some "catalog", none, none⟩]

/-- A query of a compacted store and new ops, from empty buffers and with room. -/
def answers (base new : List Op) (text : String) : Option (List (Hit ℚ) × Scratch ℚ) :=
  query F32.rational .ascii packHash ((firstBase base).snapshot new TtlConfig.default)
    ((firstBase base).searchReader packHash .ascii) Scratch.empty text ⟨10, 1, 4, 1000⟩

theorem answers_of_keys {base new : List Op} {text : String} {keys : List UrlKey}
    (h : (answers base new text).map (fun r => r.1.map Hit.key) = some keys) :
    ∃ hits left, answers base new text = some (hits, left) ∧ hits.map Hit.key = keys := by
  obtain ⟨⟨hits, left⟩, hr, hkeys⟩ := Option.map_eq_some_iff.mp h
  exact ⟨hits, left, hr, hkeys⟩

/-- Queries answer live documents, in every written store where no document the base
    holds live lies under an uncompacted tombstone: whatever the arithmetic, the
    lexicon, the buffers, the query and the options, each hit names a key whose node
    is there and neither stub nor tombstone. Where one does, and the base has a token of
    it, the query of that token answers it wherever there is room. The hits of `related`
    are live in every written store. -/
theorem query_live (xxh3 : Bytes → UInt64) (rank : SortedMap UrlKey NodeModel → List UInt16)
    (u : Unicode) (ttl : TtlConfig) (b : Base) (ops : List Op) (h : Reach xxh3 rank b ops)
    {F : Type} (A : F32 F) :
    ((∀ k, ¬b.Shadowed ops ttl k) → ∀ (ix : SearchReader) (sc left : Scratch F) (text : String)
      (opts : QueryOpts) (hits : List (Hit F)),
      query A u xxh3 (b.snapshot ops ttl) ix sc text opts = some (hits, left) →
        ∀ hit ∈ hits, b.IsLive ops ttl hit.key) ∧
    (∀ k m, b.Shadowed ops ttl k → b.nodes.get k = some m → ∀ t ∈ m.tokens u, ∀ text,
      u.dedupTerms text = [t] → ∀ len, ∃ seeds, ∀ opts : QueryOpts, seeds ≤ opts.maxSeeds →
        ∃ ranked left, candidates A u xxh3 (b.snapshot ops ttl) (b.searchReader xxh3 u)
            (.zeros A len) [t] opts = some (ranked, left) ∧
          (Roomy u xxh3 (b.snapshot ops ttl) [t] opts ranked → ∃ hits,
            query A u xxh3 (b.snapshot ops ttl) (b.searchReader xxh3 u) (.zeros A len) text opts
              = some (hits, left) ∧ ∃ hit ∈ hits, ¬b.IsLive ops ttl hit.key)) ∧
    ∀ key k (hits : List (Hit F)), related A (b.snapshot ops ttl) key k = some hits →
      ∀ hit ∈ hits, b.IsLive ops ttl hit.key := by
  refine ⟨?_, ?_, ?_⟩
  · intro hnone ix sc left text opts hits hquery hit hhit
    rcases hit_live_or_shadowed h.written hquery hit hhit with hlive | hshadowed
    · exact hlive
    · exact absurd hshadowed (hnone hit.key)
  · intro k m hk hm t ht text hterms len
    -- the ranking asks the base record, which reports the key; the node under the overlay
    -- is the tombstone
    obtain ⟨id, m', hid, hm', hrep⟩ := hk.reports
    obtain rfl : m = m' := Option.some.inj (hm.symm.trans hm')
    obtain ⟨n, hn, hdead⟩ := hk.node
    obtain ⟨seeds, hfound⟩ :=
      @Base.token_found F A u xxh3 b ops ttl h.written.closed id k m t hid ht hrep n hn text hterms len
    refine ⟨seeds, fun opts hseeds => ?_⟩
    obtain ⟨ranked, left, hranked, hroomy⟩ := hfound opts hseeds
    refine ⟨ranked, left, hranked, fun hroom => ?_⟩
    obtain ⟨hits, hhits, hit, hhit, rfl⟩ := hroomy hroom
    refine ⟨hits, hhits, hit, hhit, ?_⟩
    rintro ⟨n', hn', -, hlive⟩
    rw [hn, Option.some.injEq] at hn'
    rw [hn', hlive] at hdead
    cases hdead
  · intro key k hits hrelated hit hhit
    obtain ⟨n, hn, hlive⟩ := mem_related hrelated hit hhit
    rw [Base.node_snapshot, Option.some.injEq] at hn
    exact ⟨n, hn, hlive⟩

/-- Compacted, then gone at its host: the first document is still an answer. -/
theorem query_finds_tombstone :
    Reach packHash evenRanks (firstBase catAndDog) catGone ∧
      ∃ hits left, answers catAndDog catGone "cat" = some (hits, left) ∧
        ∃ hit ∈ hits, ¬(firstBase catAndDog).IsLive catGone TtlConfig.default hit.key := by
  refine ⟨reach_firstBase (by simp [catAndDog, StagedOp, hasFlag])
    (by simp [catGone, StagedOp]), ?_⟩
  obtain ⟨hits, left, hr, hkeys⟩ :=
    answers_of_keys (by decide +kernel : (answers catAndDog catGone "cat").map
      (fun r => r.1.map Hit.key) = some [1])
  obtain ⟨hit, rest, rfl, hkey, -⟩ := List.map_eq_cons_iff.mp hkeys
  refine ⟨_, left, hr, hit, by simp, ?_⟩
  rw [hkey]
  rintro ⟨n, hn, -, hlive⟩
  have hdead : ((firstBase catAndDog).nodeAt catGone TtlConfig.default 1).map
      NodeRef.isTombstone = some true := by decide +kernel
  rw [hn, Option.map_some, hlive] at hdead
  cases hdead

/-- A shadowed document is an entry of the base. -/
theorem Base.Shadowed.entry {b : Base} {ops : List Op} {ttl : TtlConfig} {k : UrlKey}
    (h : b.Shadowed ops ttl k) :
    (b.nodes.entries.any fun e => (b.nodeAt ops ttl e.1).any NodeRef.isTombstone) = true := by
  obtain ⟨⟨m, hm, -⟩, n, hn, hdead⟩ := h
  rw [List.any_eq_true]
  refine ⟨(k, m), SortedMap.mem_entries.mpr hm, ?_⟩
  simp [hn, hdead]

theorem query_live_catalog :
    ∃ hits left, answers catAndDog catalog "dog cat" = some (hits, left) ∧
      hits.map Hit.key = [1, 2, 3] ∧
      ∀ hit ∈ hits, (firstBase catAndDog).IsLive catalog TtlConfig.default hit.key := by
  obtain ⟨hits, left, hr, hkeys⟩ :=
    answers_of_keys (by decide +kernel : (answers catAndDog catalog "dog cat").map
      (fun r => r.1.map Hit.key) = some [1, 2, 3])
  refine ⟨hits, left, hr, hkeys, ?_⟩
  have hreach : Reach packHash evenRanks (firstBase catAndDog) catalog :=
    reach_firstBase (by simp [catAndDog, StagedOp, hasFlag]) (by simp [catalog, StagedOp, hasFlag])
  refine (query_live packHash evenRanks .ascii TtlConfig.default _ _ hreach F32.rational).1 ?_
    _ _ _ _ _ _ hr
  intro k hk
  have hnone : ((firstBase catAndDog).nodes.entries.any fun e =>
      ((firstBase catAndDog).nodeAt catalog TtlConfig.default e.1).any NodeRef.isTombstone)
        = false := by decide +kernel
  rw [hk.entry] at hnone
  cases hnone

/-! ## Fresh documents -/

/-- A committed document is findable before compaction exactly when the base has no
    record of its key: a live document whose core is an uncompacted upsert, its key
    absent from the base or there as a stub or a tombstone only, is among the hits of
    a query whose one term is a token of its URL without scheme, its title or its
    snippet, with room for every candidate, if and only if the key has no base record
    (and the URL is not empty, as the writer makes sure). -/
theorem fresh_findable_iff (xxh3 : Bytes → UInt64) (rank : SortedMap UrlKey NodeModel → List UInt16)
    (u : Unicode) (ttl : TtlConfig) (b : Base) (ops : List Op) (h : Reach xxh3 rank b ops)
    {F : Type} (A : F32 F) (k : UrlKey) (n : NodeRef) (hn : b.nodeAt ops ttl k = some n)
    (hlive : n.isTombstone = false) (hcore : ((foldKey k none ops).getD {}).core.isSome)
    (hbase : ∀ m, b.nodes.get k = some m →
      hasFlag m.flags nflags.tombstone = true ∨ hasFlag m.flags nflags.stub = true)
    (text t : String) (ht : u.dedupTerms text = [t])
    (htoken : t ∈ ([searchable n.url] ++ n.title.toList ++ n.snippet.toList).flatMap u.terms)
    (opts : QueryOpts) (len : Nat) :
    ∃ ranked left, candidates A u xxh3 (b.snapshot ops ttl) (b.searchReader xxh3 u)
        (.zeros A len) [t] opts = some (ranked, left) ∧
      (Roomy u xxh3 (b.snapshot ops ttl) [t] opts ranked →
        ∃ hits, query A u xxh3 (b.snapshot ops ttl) (b.searchReader xxh3 u) (.zeros A len) text opts
            = some (hits, left) ∧
          ((∃ hit ∈ hits, hit.key = k) ↔ b.nodes.get k = none ∧ n.url ≠ "")) := by
  obtain ⟨ranked, hranked⟩ :=
    @Base.candidates_run F A u xxh3 b ops ttl h.written.closed [t] opts len
  obtain ⟨hits, hhits⟩ := Option.isSome_iff_exists.mp (@render_isSome F u xxh3
    (b.snapshot ops ttl) [t] opts (Base.reader_sound h.written.closed) ranked 0 [])
  refine ⟨ranked, _, hranked, fun hroom => ⟨hits, ?_, ?_⟩⟩
  · unfold query
    simp only [ht, List.cons_ne_nil, if_false, hranked, Option.bind_eq_bind, Option.bind_some,
      hhits]
  · obtain ⟨fresh, hfresh, hmem, hall⟩ := mem_candidates hranked
    constructor
    · rintro ⟨hit, hhit, rfl⟩
      rcases mem_render hhits hit hhit with hnil | ⟨⟨c, hc, hkey⟩, -⟩
      · cases hnil
      · rcases hmem c hc with ⟨id, hid⟩ | ⟨sc, hsc⟩
        · -- a reported base record has neither flag
          rw [hkey] at hid
          obtain ⟨m, hm, htomb, hstub⟩ := get_of_reports hid
          rcases hbase m hm with hf | hf
          · rw [htomb] at hf
            cases hf
          · rw [hstub] at hf
            cases hf
        · rw [hkey] at hsc
          obtain ⟨-, hay, hhay, -⟩ := (mem_freshHits hfresh).mp hsc
          obtain ⟨hnone, n', hn', -, hurl, -⟩ := (freshHay_snapshot u hit.key).mp hhay
          rw [hn, Option.some.injEq] at hn'
          exact ⟨hnone, hn' ▸ hurl⟩
    · rintro ⟨hnone, hurl⟩
      have hhay := (freshHay_snapshot u k).mpr ⟨hnone, n, hn, hlive, hurl, rfl⟩
      have hkeys : k ∈ (b.snapshot ops ttl).overlay.keys := by
        rw [SortedMap.mem_keys, Base.overlay_snapshot]
        cases hp : foldKey k none ops with
        | none =>
          rw [hp] at hcore
          cases hcore
        | some p => rfl
      -- the term is one of the tokens, so the node has a score
      have htier : overlayTier (([searchable n.url] ++ n.title.toList
          ++ n.snippet.toList).flatMap u.terms) t ≠ .none := by
        intro hz
        have hle := le_bestTier (List.mem_map.mpr ⟨t, htoken, rfl⟩ :
          tierOf t t ∈ (([searchable n.url] ++ n.title.toList
            ++ n.snippet.toList).flatMap u.terms).map (tierOf t))
        rw [← overlayTier, hz] at hle
        simp [tierOf, Tier.le_iff, Tier.rank] at hle
      obtain ⟨sc, hsc⟩ := Option.isSome_iff_exists.mp ((@freshScore_isSome F A
        (A.nat (max (b.snapshot ops ttl).base.nodeCount 1)) [t] _).mpr ⟨t, by simp, htier⟩)
      obtain ⟨c, hc, hkey⟩ := hall (k, sc) ((mem_freshHits hfresh).mpr ⟨hkeys, _, hhay, hsc⟩)
      have hnode : (b.snapshot ops ttl).node c.key = some (some n) := by
        rw [hkey, Base.node_snapshot]
        exact congrArg some hn
      obtain ⟨hit, hhit, heq⟩ := render_roomy hroom hhits hc hnode
      exact ⟨hit, hhit, heq.trans hkey⟩

/-- A document that links to a page never fetched. -/
def linked : List Op := [.upsert ⟨1, 5, 7, 0, "a", none, none, none⟩, .edges 1 [⟨4, 0, 1, 3⟩]]

/-- That page, fetched. -/
def target : List Op := [.upsert ⟨4, 5, 7, 0, "d", some "newt", none, none⟩]

/-- The target of a compacted link, fetched: a live document of an uncompacted upsert,
    in the base as a stub, and the one token of its title finds nothing. -/
theorem fresh_target_missed :
    Reach packHash evenRanks (firstBase linked) target ∧
      (∃ n, (firstBase linked).nodeAt target TtlConfig.default 4 = some n ∧
        n.isTombstone = false ∧ "newt" ∈ n.title.toList.flatMap Unicode.ascii.terms) ∧
      ((foldKey 4 none target).getD {}).core.isSome ∧
      ((firstBase linked).nodes.get 4).map (fun m => hasFlag m.flags nflags.stub) = some true ∧
      ∃ left, answers linked target "newt" = some ([], left) := by
  refine ⟨reach_firstBase (by simp [linked, StagedOp, hasFlag, Ascending])
    (by simp [target, StagedOp, hasFlag]), ?_, by decide +kernel, by decide +kernel, ?_⟩
  · have hnode : ((firstBase linked).nodeAt target TtlConfig.default 4).any (fun n =>
        n.isTombstone = false ∧ "newt" ∈ n.title.toList.flatMap Unicode.ascii.terms) = true := by
      decide +kernel
    obtain ⟨n, hn, hlive⟩ := (Option.any_eq_true _ _).mp hnode
    exact ⟨n, hn, by simpa using hlive⟩
  · obtain ⟨hits, left, hr, hkeys⟩ :=
      answers_of_keys (by decide +kernel : (answers linked target "newt").map
        (fun r => r.1.map Hit.key) = some [])
    exact ⟨left, by rw [hr, List.map_eq_nil_iff.mp hkeys]⟩

theorem fresh_findable_catalog :
    ∃ hits left, answers catAndDog catalog "catalog" = some (hits, left) ∧
      ∃ hit ∈ hits, hit.key = 3 := by
  have hnode : ((firstBase catAndDog).nodeAt catalog TtlConfig.default 3).any (fun n =>
      n.isTombstone = false ∧ n.url ≠ "" ∧ "catalog" ∈ ([searchable n.url] ++ n.title.toList
        ++ n.snippet.toList).flatMap Unicode.ascii.terms) = true := by
    decide +kernel
  obtain ⟨n, hn, hlive⟩ := (Option.any_eq_true _ _).mp hnode
  obtain ⟨hdead, hurl, htoken⟩ := of_decide_eq_true hlive
  have hbase : (firstBase catAndDog).nodes.get 3 = none := by decide +kernel
  obtain ⟨ranked, left, hranked, hroomy⟩ := fresh_findable_iff packHash evenRanks .ascii
    TtlConfig.default (firstBase catAndDog) catalog
    (reach_firstBase (by simp [catAndDog, StagedOp, hasFlag]) (by simp [catalog, StagedOp, hasFlag]))
    F32.rational 3 n hn hdead (by decide +kernel) (by simp [hbase]) "catalog" "catalog"
    (by decide +kernel) htoken ⟨10, 1, 4, 1000⟩ 0
  -- the one candidate fits
  have hfits : (candidates F32.rational .ascii packHash
      ((firstBase catAndDog).snapshot catalog TtlConfig.default)
      ((firstBase catAndDog).searchReader packHash .ascii) (.zeros F32.rational 0) ["catalog"]
      ⟨10, 1, 4, 1000⟩).all (fun r => r.1.length ≤ 10 ∧ (r.1.map fun c => renderCost .ascii packHash
        ((firstBase catAndDog).snapshot catalog TtlConfig.default) ["catalog"] c.key).sum ≤ 1000)
        = true := by decide +kernel
  rw [hranked] at hfits
  obtain ⟨hlimit, hbudget⟩ := of_decide_eq_true hfits
  obtain ⟨hits, hhits, hfound⟩ := hroomy ⟨hlimit, hbudget⟩
  exact ⟨hits, left, hhits, hfound.mpr ⟨hbase, hurl⟩⟩

end GraphR
