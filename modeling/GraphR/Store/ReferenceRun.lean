import GraphR.Store.Refinement

/-! # Runs of one handle against the reference model

    `Sim` is the relation of every key together with what one handle keeps
    between its files and what it serves. A transaction of the model keeps it op
    by op, compaction key by key, and reopening changes nothing; so the live
    documents of any run are the documents of the model (`run_refines`). -/

namespace GraphR

open Wal ByteLib

/-! ## The invariant -/

/-- The store state and the model state of a run. -/
structure Sim (xxh3 : Bytes → UInt64) (h : Handle) (m : Docs) : Prop where
  synced : h.Synced
  closed : h.served.Closed
  keys : ∀ k, KeySim xxh3 k (h.served.nodes.get k) (foldKey k none (h.overlay.map Prod.snd)) (m k)

/-- A list of ops, each keeping the relation at its point. -/
def OpsOk (xxh3 : Bytes → UInt64) : Docs → List Op → Prop
  | _, [] => True
  | m, op :: ops => OpOk (m op.key) op ∧ OpsOk xxh3 (m.apply xxh3 op) ops

section ops
variable {xxh3 : Bytes → UInt64} {b : Base} {ops : List Op} {m : Docs}

/-- One more op on top of an overlay. -/
theorem keySim_append
    (h : ∀ k, KeySim xxh3 k (b.nodes.get k) (foldKey k none ops) (m k)) {op : Op}
    (hop : OpOk (m op.key) op) (k : UrlKey) :
    KeySim xxh3 k (b.nodes.get k) (foldKey k none (ops ++ [op])) (m.apply xxh3 op k) := by
  rw [foldKey_append]
  by_cases hk : k = op.key
  · subst hk
    have hfold : foldKey op.key (foldKey op.key none ops) [op]
        = some (((foldKey op.key none ops).getD {}).step op) := by
      simp [foldKey]
    rw [hfold, Docs.apply, Function.update_self]
    exact (h op.key).step hop
  · have hfold : foldKey k (foldKey k none ops) [op] = foldKey k none ops := by
      simp [foldKey, hk]
    rw [hfold, Docs.apply, Function.update_of_ne hk]
    exact h k

/-- A whole list of them. -/
theorem keySim_appendAll {new : List Op}
    (h : ∀ k, KeySim xxh3 k (b.nodes.get k) (foldKey k none ops) (m k))
    (hops : OpsOk xxh3 m new) (k : UrlKey) :
    KeySim xxh3 k (b.nodes.get k) (foldKey k none (ops ++ new))
      (new.foldl (fun m op => m.apply xxh3 op) m k) := by
  induction new generalizing ops m with
  | nil =>
    rw [List.append_nil]
    exact h k
  | cons op new ih =>
    have hstep := ih (keySim_append h hops.1) hops.2
    rwa [List.append_assoc, List.singleton_append] at hstep

end ops

/-! ## Transactions -/

section txn
variable {xxh3 : Bytes → UInt64} {ttl : TtlConfig} {h : Handle} {m : Docs}

theorem writes_eq (m : Docs) (ws : List Write) :
    ws.foldl (fun m w => m.write xxh3 w) m
      = (ws.map Write.op).foldl (fun m op => m.apply xxh3 op) m := by
  rw [List.foldl_map]
  exact congrArg (fun f => ws.foldl f m) (funext₂ fun m w => m.write_eq xxh3 w)

theorem opsOk_writes {m : Docs} {ws : List Write} (h : Docs.allowsWrites xxh3 m ws = true) :
    OpsOk xxh3 m (ws.map Write.op) := by
  induction ws generalizing m with
  | nil => trivial
  | cons w ws ih =>
    simp only [Docs.allowsWrites, Bool.and_eq_true] at h
    refine ⟨Docs.opOk_write h.1, ?_⟩
    rw [← Docs.write_eq]
    exact ih h.2

/-- The node the handle reads for a document of the model. -/
theorem Sim.node (hs : Sim xxh3 h m) {k : UrlKey} (hd : (m k).isSome) :
    ∃ n, h.served.nodeAt (h.overlay.map Prod.snd) ttl k = some n ∧ n.isStub = false ∧
      n.isTombstone = false ∧
      m k = some (n.doc
        (mergedSegs xxh3 k (h.served.nodes.get k) (foldKey k none (h.overlay.map Prod.snd)))
        (mergedEdges (h.served.nodes.get k) (foldKey k none (h.overlay.map Prod.snd)))
        (mergedAttrs (h.served.nodes.get k) (foldKey k none (h.overlay.map Prod.snd)))) := by
  obtain ⟨n, hn, hstub⟩ := (hs.keys k).node_of_doc hd ttl (h.served.idOf k) (h.served.rankOf k)
  exact ⟨n, hn, hstub, ((hs.keys k).flags hn).1, (hs.keys k).doc_of_node hn hstub⟩

/-- A touch of the model is the op the writer stages for it. -/
theorem step_touchRecord (n : NodeRef) (segs : List SegRef) (edges : List Edge)
    (attrs : List (UInt8 × String)) (k : UrlKey) (t : Writer.Touch) (interval : UInt32) :
    Doc.step xxh3 k (some (n.doc segs edges attrs))
        (.touch k (Writer.touchRecord n none t interval))
      = some ((n.doc segs edges attrs).touched t) := by
  have hetag : (t.etag.or n.etag).or n.etag = t.etag.or n.etag := by
    cases t.etag <;> cases n.etag <;> rfl
  simp [Doc.step, Doc.touched, NodeRef.doc, Writer.touchRecord, hetag]

/-- What an allowed transaction stages keeps the relation and is what the
    model does. -/
theorem Sim.stages (hs : Sim xxh3 h m) {t : Txn} {ops : List Op}
    (hstages : t.Stages (h.snapshot ttl) ops) (hok : m.allowsTxn xxh3 t = true) :
    OpsOk xxh3 m ops ∧ ops.foldl (fun m op => m.apply xxh3 op) m = m.txn xxh3 t := by
  cases t with
  | touch key t =>
    obtain ⟨node, interval, hnode, rfl⟩ := hstages
    simp only [Docs.allowsTxn, Bool.and_eq_true, bne_iff_ne] at hok
    obtain ⟨n, hn, hstub, htomb, hdoc⟩ := @Sim.node xxh3 ttl h m hs key hok.1
    have hsame : node = n := by
      rw [Handle.snapshot, Base.node_snapshot] at hnode
      exact Option.some.inj ((Option.some.inj hnode).symm.trans hn)
    subst hsame
    refine ⟨⟨⟨hok.1, by simpa [Writer.touchRecord] using hok.2, rfl, ?_⟩, trivial⟩, ?_⟩
    · intro d' hd' hetag
      rw [Op.key, hdoc] at hd'
      cases hd'
      simp only [Writer.touchRecord, Option.getD_none, Option.or_eq_none_iff] at hetag
      exact hetag.2
    · simp only [List.foldl_cons, List.foldl_nil, Docs.apply, Op.key, Docs.txn, hdoc,
        step_touchRecord, Option.map_some]
  | pin key pinned =>
    cases hstages
    exact ⟨⟨hok, trivial⟩, rfl⟩
  | writes ws =>
    cases hstages
    exact ⟨opsOk_writes hok, (writes_eq m ws).symm⟩

theorem Sim.txn (hs : Sim xxh3 h m) {t : Txn} {staged : RecordBuf} {h' : Handle}
    (hstage : t.stage (h.snapshot ttl) = some staged) (hcommit : h.commit xxh3 staged = some h')
    (hok : m.allowsTxn xxh3 t = true) : Sim xxh3 h' (m.txn xxh3 t) := by
  obtain ⟨ps, hps, hstages⟩ := Txn.stage_pushes hstage
  obtain ⟨hserved, hoverlay⟩ := Handle.commit_ops hps hcommit
  obtain ⟨hops, hmodel⟩ := hs.stages hstages hok
  refine ⟨hs.synced.commit hcommit, hserved ▸ hs.closed, fun k => ?_⟩
  rw [hserved, hoverlay, ← hmodel]
  exact keySim_appendAll hs.keys hops k

end txn

/-! ## Compaction -/

/-- With stubs managed, every edge has a target. -/
theorem manageStubs_closed (models : SortedMap UrlKey NodeModel) (ranks : List UInt16) :
    Base.Closed ⟨manageStubs models, ranks⟩ := by
  intro k n hn e he
  simp only at hn ⊢
  -- a stub has no edges, so `n` was collected and its targets are referenced
  have hmodel : models.get k = some n := by
    rw [get_manageStubs] at hn
    cases hm : models.get k with
    | none =>
      rw [hm] at hn
      by_cases href : k ∈ referenced models
      · simp only [href, if_true, Option.some.injEq] at hn
        subst hn
        cases he
      · simp [href] at hn
    | some n' =>
      simp only [hm] at hn
      split_ifs at hn with hdrop
      exact hn
  have href : e.dst ∈ referenced models := mem_referenced.mpr ⟨k, n, hmodel, e, he, rfl⟩
  rw [get_manageStubs]
  cases models.get e.dst with
  | none => simp [href]
  | some n' => simp [href]

/-- Compaction never faults, and keeps the relation. -/
theorem Sim.compact {xxh3 : Bytes → UInt64} {rank : SortedMap UrlKey NodeModel → List UInt16}
    {ttl : TtlConfig} {h : Handle} {m : Docs} (hs : Sim xxh3 h m) :
    ∃ h', h.compact xxh3 rank ttl = some h' ∧ Sim xxh3 h' m := by
  obtain ⟨models, hmodels, hget⟩ :=
    @Base.collectModels_snapshot xxh3 h.served (h.overlay.map Prod.snd) ttl hs.closed
  have hnodes : (h.snapshot ttl).compactNodes xxh3 = some (manageStubs models) := by
    rw [Snapshot.compactNodes, Handle.snapshot, hmodels]
    rfl
  have hc : h.compact xxh3 rank ttl = some
      { disk := ⟨⟨manageStubs models, rank (manageStubs models)⟩, h.nextSeq - 1, []⟩
        served := ⟨manageStubs models, rank (manageStubs models)⟩, overlay := []
        nextSeq := h.nextSeq - 1 + 1 } := by
    unfold Handle.compact
    rw [hnodes]
    rfl
  refine ⟨_, hc, Handle.Synced.compact hc, manageStubs_closed _ _, fun k => ?_⟩
  refine @KeySim.compacted _ _ _ _ _ ttl (h.served.idOf k) (h.served.rankOf k) (hs.keys k) _
    (k ∈ referenced models) _ ?_
  simp only
  rw [get_manageStubs, hget]
  rfl

/-! ## Runs -/

section run
variable {xxh3 : Bytes → UInt64} {rank : SortedMap UrlKey NodeModel → List UInt16}
  {ttl : TtlConfig}

theorem Sim.create : Sim xxh3 Handle.create fun _ => none := by
  refine ⟨Handle.Synced.create, ?_, fun k => ⟨?_, ?_, ?_⟩⟩
  · intro k n hn
    cases hn
  · intro n hn
    cases hn
  · intro q hq
    cases hq
  · rfl

theorem Sim.run {h h' : Handle} {m : Docs} {cmds : List Cmd} (hs : Sim xxh3 h m)
    (hrun : h.run xxh3 rank ttl cmds = some h') (hok : Docs.allows xxh3 m cmds = true) :
    Sim xxh3 h' (m.run xxh3 cmds) := by
  induction cmds generalizing h m with
  | nil =>
    cases hrun
    exact hs
  | cons c cmds ih =>
    rw [Handle.run, List.foldlM_cons] at hrun
    cases hexec : h.exec xxh3 rank ttl c with
    | none => simp [hexec] at hrun
    | some h₁ =>
      simp only [hexec, Option.bind_eq_bind, Option.bind_some] at hrun
      cases c with
      | txn t =>
        simp only [Docs.allows, Bool.and_eq_true] at hok
        simp only [Handle.exec] at hexec
        cases hstage : t.stage (h.snapshot ttl) with
        | none => simp [hstage] at hexec
        | some staged =>
          simp only [hstage, Option.bind_eq_bind, Option.bind_some] at hexec
          exact ih (hs.txn hstage hexec hok.1) hrun hok.2
      | compact =>
        obtain ⟨h₂, hc, hs₂⟩ := @Sim.compact xxh3 rank ttl h m hs
        have hsame : h₂ = h₁ := Option.some.inj (hc.symm.trans hexec)
        exact ih (hsame ▸ hs₂) hrun hok
      | reopen =>
        have hsame : h.reopen = h₁ := Option.some.inj hexec
        rw [hs.synced.reopen] at hsame
        exact ih (hsame ▸ hs) hrun hok

/-- What the handle serves is the model: the live documents are its keys, and
    every field, segment, edge and attribute of each is the model's. -/
structure Agrees (xxh3 : Bytes → UInt64) (ttl : TtlConfig) (h : Handle) (m : Docs) : Prop where
  live : ∃ live, (h.snapshot ttl).forEachLive = some live ∧ (live.map NodeRef.key).Nodup ∧
    (∀ k, k ∈ live.map NodeRef.key ↔ (m k).isSome) ∧
    ∀ n ∈ live, (h.snapshot ttl).node n.key = some (some n)
  docs : ∀ k d, m k = some d → ∃ n es,
    (h.snapshot ttl).node k = some (some n) ∧ n.url = d.url ∧ n.title = d.title ∧
    n.snippet = d.snippet ∧ n.etag = d.etag ∧ n.contentHash = d.contentHash ∧
    n.fetchedAtMs = d.fetchedAtMs ∧ n.pinned = d.pinned ∧ n.checks = d.checks ∧
    n.changes = d.changes ∧ n.lastChangeMs = d.lastChangeMs ∧
    (h.snapshot ttl).segments xxh3 k = some d.segs ∧
    (h.snapshot ttl).neighbors k = some es ∧ es.map EdgeRef.raw = d.edges ∧
    (h.snapshot ttl).attrs k = some d.attrs

theorem Sim.agrees {h : Handle} {m : Docs} (hs : Sim xxh3 h m) : Agrees xxh3 ttl h m := by
  refine ⟨⟨_, Base.forEachLive_snapshot, Base.liveNodes_nodup, fun k => ?_, fun n hn => ?_⟩, ?_⟩
  · constructor
    · intro hk
      obtain ⟨n, hn, rfl⟩ := List.mem_map.mp hk
      obtain ⟨hnode, hlive⟩ := Base.mem_liveNodes.mp hn
      have hstub : n.isStub = false := by
        by_contra hst
        have hst' : n.isStub = true := by simpa using hst
        have hbase := ((hs.keys n.key).flags hnode).2 hst'
        simp [Base.isLive, hst', hbase.2] at hlive
      rw [(hs.keys n.key).doc_of_node hnode hstub]
      rfl
    · intro hd
      obtain ⟨n, hn, hstub, htomb, -⟩ := @Sim.node xxh3 ttl h m hs k hd
      have hkey := Base.key_of_nodeAt hn
      refine List.mem_map.mpr ⟨n, Base.mem_liveNodes.mpr ⟨?_, ?_⟩, hkey⟩
      · rw [hkey]
        exact hn
      · simp [Base.isLive, hstub, htomb]
  · rw [Handle.snapshot, Base.node_snapshot]
    exact congrArg some (Base.mem_liveNodes.mp hn).1
  · intro k d hd
    obtain ⟨n, hn, -, -, hdoc⟩ := @Sim.node xxh3 ttl h m hs k (by rw [hd]; rfl)
    obtain ⟨es, hes, hraw⟩ := @Base.neighbors_snapshot h.served (h.overlay.map Prod.snd) ttl
      hs.closed k
    rw [hd] at hdoc
    cases hdoc
    refine ⟨n, es, ?_, rfl, rfl, rfl, rfl, rfl, rfl, rfl, rfl, rfl, rfl, ?_, hes, hraw, ?_⟩
    · rw [Handle.snapshot, Base.node_snapshot]
      exact congrArg some hn
    · rw [Handle.snapshot, Base.segments_snapshot]
      rfl
    · rw [Handle.snapshot, Base.attrs_snapshot]
      rfl

/-- Every run of allowed transactions, with compactions and reopenings anywhere,
    serves the documents of the reference model; and from where it stands a
    compaction does not fault. -/
theorem run_refines (xxh3 : Bytes → UInt64) (rank : SortedMap UrlKey NodeModel → List UInt16)
    (ttl : TtlConfig) {cmds : List Cmd} {h : Handle}
    (hrun : Handle.create.run xxh3 rank ttl cmds = some h)
    (hok : Docs.allows xxh3 (fun _ => none) cmds = true) :
    Agrees xxh3 ttl h (Docs.run xxh3 (fun _ => none) cmds) ∧
      (h.compact xxh3 rank ttl).isSome := by
  have hs := Sim.create.run hrun hok
  obtain ⟨h', hc, -⟩ := @Sim.compact xxh3 rank ttl h _ hs
  exact ⟨hs.agrees, by rw [hc]; rfl⟩

/-- Two documents and an edge to a third, a compaction, a touch that changed the
    first document, a reopening. -/
def touchCompacted : List Cmd :=
  [.txn (.writes [.upsert ⟨"a", 1, 5, 10, none, none, none, true⟩,
      .upsert ⟨"b", 2, 6, 11, some "t", none, none, false⟩,
      .setEdges 1 [(3, .link, 4), (2, .link, 9)]]),
    .compact, .txn (.touch 1 ⟨20, .changed, some 8, none⟩), .reopen]

/-- Its counters survive the compaction, and the third key is no document. -/
theorem run_refines_touchCompacted :
    ∃ h : Handle,
      Handle.create.run (fun _ => 7) (fun _ => []) TtlConfig.default touchCompacted = some h ∧
      Agrees (fun _ => 7) TtlConfig.default h
        (Docs.run (fun _ => 7) (fun _ => none) touchCompacted) ∧
      Docs.run (fun _ => 7) (fun _ => none) touchCompacted 1
        = some ⟨"a", none, none, none, 8, 20, true, 1, 1, 20, [], [⟨2, 0, 0, 9⟩, ⟨3, 0, 0, 4⟩],
            []⟩ ∧
      Docs.run (fun _ => 7) (fun _ => none) touchCompacted 3 = none := by
  have hsome : (Handle.create.run (fun _ => 7) (fun _ => []) TtlConfig.default
      touchCompacted).isSome = true := by decide +kernel
  obtain ⟨h, hrun⟩ := Option.isSome_iff_exists.mp hsome
  exact ⟨h, hrun, (run_refines _ _ _ hrun (by decide +kernel)).1, by decide +kernel,
    by decide +kernel⟩

end run

end GraphR
