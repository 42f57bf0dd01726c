import GraphR.Store.Tombstone

/-! # Two placements of compactions in one run

    The invariant of a run is `Clean` and `Traced` for every key. It gives the
    exact condition under which every placement of compactions leaves the same
    tombstones, and with them the same live set, length and due documents. -/

namespace GraphR

open Wal ByteLib

/-! ## The invariant of a run -/

/-- The overlay node of a key, an empty one when it has none. -/
def Handle.patch (h : Handle) (k : UrlKey) : OverlayNode :=
  (foldKey k none (h.overlay.map Prod.snd)).getD {}

/-- Every key of a handle, after the transactions `done`. -/
def Tracks (h : Handle) (done : List (List Call)) : Prop :=
  ∀ k, Clean (h.served.nodes.get k) (h.patch k) ∧
    Traced k done [] (h.served.nodes.get k) (h.patch k)

section steps
variable {xxh3 : Bytes → UInt64} {rank : SortedMap UrlKey NodeModel → List UInt16}
  {ttl : TtlConfig} {h h' : Handle} {done : List (List Call)}

theorem Tracks.create : Tracks Handle.create [] := by
  intro k
  refine ⟨⟨?_, ?_, rfl⟩, ⟨rfl, ?_, ?_, ?_, ?_⟩⟩
  · intro n hn
    cases hn
  · intro c hc
    cases hc
  all_goals
    intro hp
    cases hp

theorem Gives.key {c : Call} {op : Op} (h : c.Gives op) : op.key = c.key := by
  cases c with
  | upsert doc => obtain ⟨-, rfl⟩ := h; rfl
  | touch key t => obtain ⟨r, rfl, -⟩ := h; rfl
  | pin key pinned => cases h; rfl
  | remove key => cases h; rfl

/-- The ops of a transaction, one by one. -/
theorem traced_ops {k : UrlKey} {m : Option NodeModel} {e : Option OverlayNode}
    {part calls : List Call} {ops : List Op} (hops : List.Forall₂ Call.Gives calls ops)
    (hclean : Clean m (e.getD {})) (htraced : Traced k done part m (e.getD {})) :
    Clean m ((foldKey k e ops).getD {}) ∧
      Traced k done (part ++ calls) m ((foldKey k e ops).getD {}) := by
  induction hops generalizing e part with
  | nil =>
    rw [List.append_nil]
    exact ⟨hclean, htraced⟩
  | @cons c op calls ops hop _ ih =>
    have hkey := Gives.key hop
    have hcons : foldKey k e (op :: ops)
        = foldKey k (if k = op.key then some ((e.getD {}).step op) else e) ops := rfl
    rw [hcons, show part ++ c :: calls = (part ++ [c]) ++ calls by simp]
    by_cases hk : k = op.key
    · rw [if_pos hk]
      exact ih (hclean.step hop) (htraced.step (hkey.symm.trans hk.symm) hop)
    · rw [if_neg hk]
      exact ih hclean (htraced.other fun hc => hk (hc.symm.trans hkey.symm))

theorem Tracks.txn (ht : Tracks h done) {calls : List Call} {staged : RecordBuf}
    (hstage : calls.foldlM (fun b c => c.stage (h.snapshot ttl) b) RecordBuf.new = some staged)
    (hcommit : h.commit xxh3 staged = some h') :
    Tracks h' (done ++ [calls]) ∧ h'.served = h.served := by
  obtain ⟨qs, hqs, hgives⟩ := @calls_give _ _ [] _ _ rfl hstage
  obtain ⟨hserved, hoverlay⟩ := Handle.commit_ops hqs hcommit
  refine ⟨fun k => ?_, hserved⟩
  obtain ⟨hclean, htraced⟩ := ht k
  have hstep := traced_ops hgives hclean htraced
  have hpatch : h'.patch k
      = (foldKey k (foldKey k none (h.overlay.map Prod.snd)) (qs.map Push.op)).getD {} := by
    rw [Handle.patch, hoverlay, foldKey_append]
    rfl
  rw [hserved, hpatch]
  exact ⟨hstep.1, hstep.2.boundary⟩

theorem Tracks.closed (ht : Tracks h done) : h.served.Closed := by
  intro k n hn e he
  rw [((ht k).1.base n hn).2.2] at he
  cases he

/-- What compaction makes of a run without edges: every node, nothing else. -/
theorem Tracks.compact (ht : Tracks h done) :
    ∃ h', h.compact xxh3 rank ttl = some h' ∧ Tracks h' done ∧ h'.overlay = [] := by
  obtain ⟨models, hmodels, hget⟩ :=
    @Base.collectModels_snapshot xxh3 h.served (h.overlay.map Prod.snd) ttl ht.closed
  have hedges : ∀ k n, models.get k = some n → n.edges = [] := by
    intro k n hn
    rw [hget] at hn
    obtain ⟨r, -, rfl⟩ := Option.map_eq_some_iff.mp hn
    simp only [NodeRef.toModel, (ht k).1.mergedEdges]
    rfl
  have hrefs : ∀ k, k ∉ referenced models := by
    intro k hk
    obtain ⟨src, n, hn, e, he, -⟩ := mem_referenced.mp hk
    rw [hedges src n hn] at he
    cases he
  have hstub : ∀ k n, models.get k = some n → hasFlag n.flags nflags.stub = false := by
    intro k n hn
    rw [hget] at hn
    obtain ⟨r, hr, rfl⟩ := Option.map_eq_some_iff.mp hn
    exact ((ht k).1.node hr).2.1
  have hkept : ∀ k, (manageStubs models).get k = models.get k := by
    intro k
    rw [get_manageStubs]
    cases hm : models.get k with
    | none => simp [hrefs k]
    | some n => simp [hstub k n hm]
  have hc : h.compact xxh3 rank ttl = some
      { disk := ⟨⟨manageStubs models, rank (manageStubs models)⟩, h.nextSeq - 1, []⟩
        served := ⟨manageStubs models, rank (manageStubs models)⟩, overlay := []
        nextSeq := h.nextSeq - 1 + 1 } := by
    unfold Handle.compact
    rw [Snapshot.compactNodes, Handle.snapshot, hmodels]
    rfl
  refine ⟨_, hc, fun k => ?_, rfl⟩
  obtain ⟨hclean, htraced⟩ := ht k
  simp only [Handle.patch, List.map_nil]
  rw [hkept k]
  refine ⟨⟨?_, ?_, rfl⟩, htraced.compacted ?_ ?_⟩
  · intro n hn
    refine ⟨?_, hstub k n hn, hedges k n hn⟩
    rw [hget] at hn
    obtain ⟨r, hr, rfl⟩ := Option.map_eq_some_iff.mp hn
    exact (hclean.node hr).2.2
  · intro c hc
    cases hc
  · rw [hget, Base.modelAt, Option.isSome_map, Base.nodeAt, isSome_mergedRef]
    rfl
  · rw [hget, Base.modelAt]
    cases hn : h.served.nodeAt (h.overlay.map Prod.snd) ttl k with
    | none =>
      have hnone := @isSome_mergedRef ttl k (h.served.idOf k) (h.served.rankOf k)
        (h.served.nodes.get k) (foldKey k none (h.overlay.map Prod.snd))
      rw [Base.nodeAt] at hn
      rw [hn] at hnone
      have hno : isPresent (h.served.nodes.get k) (h.patch k) = false := hnone.symm
      rw [hno]
      rfl
    | some r =>
      have hsome := @isSome_mergedRef ttl k (h.served.idOf k) (h.served.rankOf k)
        (h.served.nodes.get k) (foldKey k none (h.overlay.map Prod.snd))
      have htomb := (hclean.node hn).1
      rw [Base.nodeAt] at hn
      rw [hn] at hsome
      have hp : isPresent (h.served.nodes.get k) (h.patch k) = true := hsome.symm
      rw [hp, Bool.true_and, Option.map_some]
      exact htomb

end steps

/-! ## Runs -/

section runs
variable {xxh3 : Bytes → UInt64} {rank : SortedMap UrlKey NodeModel → List UInt16}
  {ttl : TtlConfig}

/-- Peel one step off a run. -/
theorem runSteps_cons {h h' : Handle} {s : Step} {steps : List Step}
    (hrun : h.runSteps xxh3 rank ttl (s :: steps) = some h') :
    ∃ h₁, h.execStep xxh3 rank ttl s = some h₁ ∧ h₁.runSteps xxh3 rank ttl steps = some h' := by
  rw [Handle.runSteps, List.foldlM_cons] at hrun
  cases hs : h.execStep xxh3 rank ttl s with
  | none => simp [hs] at hrun
  | some h₁ =>
    simp only [hs, Option.bind_eq_bind, Option.bind_some] at hrun
    exact ⟨h₁, rfl, hrun⟩

theorem runSteps_append {h h' : Handle} {steps more : List Step}
    (hrun : h.runSteps xxh3 rank ttl (steps ++ more) = some h') :
    ∃ h₁, h.runSteps xxh3 rank ttl steps = some h₁ ∧ h₁.runSteps xxh3 rank ttl more = some h' := by
  rw [Handle.runSteps, List.foldlM_append] at hrun
  cases hs : steps.foldlM (fun h s => h.execStep xxh3 rank ttl s) h with
  | none => simp [hs] at hrun
  | some h₁ =>
    simp only [hs, Option.bind_eq_bind, Option.bind_some] at hrun
    exact ⟨h₁, hs, hrun⟩

/-- A transaction, taken apart. -/
theorem execStep_txn {h h' : Handle} {calls : List Call}
    (hs : h.execStep xxh3 rank ttl (.txn calls) = some h') :
    ∃ staged, calls.foldlM (fun b c => c.stage (h.snapshot ttl) b) RecordBuf.new = some staged ∧
      h.commit xxh3 staged = some h' := by
  simp only [Handle.execStep] at hs
  cases hstage : calls.foldlM (fun b c => c.stage (h.snapshot ttl) b) RecordBuf.new with
  | none => simp [hstage] at hs
  | some staged =>
    simp only [hstage, Option.bind_eq_bind, Option.bind_some] at hs
    exact ⟨staged, rfl, hs⟩

theorem Tracks.run {h h' : Handle} {done : List (List Call)} {steps : List Step}
    (ht : Tracks h done) (hrun : h.runSteps xxh3 rank ttl steps = some h') :
    Tracks h' (done ++ txnsOf steps) := by
  induction steps generalizing h done with
  | nil =>
    cases hrun
    simpa [txnsOf] using ht
  | cons s steps ih =>
    obtain ⟨h₁, hs, hrest⟩ := runSteps_cons hrun
    cases s with
    | txn calls =>
      obtain ⟨staged, hstage, hcommit⟩ := execStep_txn hs
      have hstep := ih (ht.txn hstage hcommit).1 hrest
      rwa [List.append_assoc, List.singleton_append] at hstep
    | compact =>
      obtain ⟨h₂, hc, ht₂, -⟩ := @Tracks.compact xxh3 rank ttl h done ht
      have hsame : h₂ = h₁ := Option.some.inj (hc.symm.trans hs)
      exact ih (hsame ▸ ht₂) hrest

/-- The transactions alone, with no compaction. -/
def plain (txns : List (List Call)) : List Step := txns.map Step.txn

theorem txnsOf_append (a b : List Step) : txnsOf (a ++ b) = txnsOf a ++ txnsOf b := by
  induction a with
  | nil => rfl
  | cons s a ih =>
    cases s with
    | txn calls => rw [List.cons_append, txnsOf, txnsOf, ih, List.cons_append]
    | compact => rw [List.cons_append, txnsOf, txnsOf, ih]

theorem txnsOf_plain (txns : List (List Call)) : txnsOf (plain txns) = txns := by
  induction txns with
  | nil => rfl
  | cons calls txns ih => exact congrArg (calls :: ·) ih

/-- Without compactions the base stays as it is. -/
theorem served_plain {h h' : Handle} {done txns : List (List Call)} (ht : Tracks h done)
    (hrun : h.runSteps xxh3 rank ttl (plain txns) = some h') : h'.served = h.served := by
  induction txns generalizing h done with
  | nil =>
    cases hrun
    rfl
  | cons calls txns ih =>
    obtain ⟨h₁, hs, hrest⟩ := runSteps_cons hrun
    obtain ⟨staged, hstage, hcommit⟩ := execStep_txn hs
    obtain ⟨ht₁, hserved⟩ := ht.txn hstage hcommit
    exact (ih ht₁ hrest).trans hserved

/-- A transaction that neither creates nor deletes a document leaves its
    overlay node without a core. -/
theorem quiet_ops {k : UrlKey} {calls : List Call} {ops : List Op} {e : Option OverlayNode}
    (hops : List.Forall₂ Call.Gives calls ops) (hquiet : Quiet k calls)
    (hcore : (e.getD {}).core = none) : ((foldKey k e ops).getD {}).core = none := by
  induction hops generalizing e with
  | nil => exact hcore
  | @cons c op calls ops hop _ ih =>
    have hkey := Gives.key hop
    have hrest : Quiet k calls := fun c' hc' => hquiet c' (List.mem_cons_of_mem _ hc')
    have hcons : foldKey k e (op :: ops)
        = foldKey k (if k = op.key then some ((e.getD {}).step op) else e) ops := rfl
    rw [hcons]
    by_cases hk : k = op.key
    · rw [if_pos hk]
      refine ih hrest ?_
      have hres := hquiet c (by simp) (hkey.symm.trans hk.symm)
      cases c with
      | upsert doc => cases hres
      | remove key => cases hres
      | pin key pinned =>
        cases hop
        exact hcore
      | touch key t =>
        obtain ⟨r, rfl, -⟩ := hop
        exact hcore
    · rw [if_neg hk]
      exact ih hrest hcore

theorem quiet_plain {k : UrlKey} {h h' : Handle} {done txns : List (List Call)}
    (ht : Tracks h done) (hrun : h.runSteps xxh3 rank ttl (plain txns) = some h')
    (hquiet : Quiet k txns.flatten) (hcore : (h.patch k).core = none) :
    (h'.patch k).core = none := by
  induction txns generalizing h done with
  | nil =>
    cases hrun
    exact hcore
  | cons calls txns ih =>
    obtain ⟨h₁, hs, hrest⟩ := runSteps_cons hrun
    obtain ⟨staged, hstage, hcommit⟩ := execStep_txn hs
    obtain ⟨qs, hqs, hgives⟩ := @calls_give _ _ [] _ _ rfl hstage
    obtain ⟨-, hoverlay⟩ := Handle.commit_ops hqs hcommit
    refine ih (ht.txn hstage hcommit).1 hrest (fun c hc => hquiet c (by simp [hc])) ?_
    rw [Handle.patch, hoverlay, foldKey_append]
    exact quiet_ops hgives (fun c hc => hquiet c (by simp [hc])) hcore

/-! ## Agreement -/

/-- The tombstone mark of each document, `none` for a key without one. -/
def Handle.mark (ttl : TtlConfig) (h : Handle) (k : UrlKey) : Option Bool :=
  (h.served.nodeAt (h.overlay.map Prod.snd) ttl k).map NodeRef.isTombstone

/-- Two handles agree on which documents are tombstones, and on the live set,
    its length and which documents can come due. -/
structure SameTombstones (ttl : TtlConfig) (h₁ h₂ : Handle) : Prop where
  mark : ∀ k, ∃ n₁ n₂, (h₁.snapshot ttl).node k = some n₁ ∧ (h₂.snapshot ttl).node k = some n₂ ∧
    n₁.map NodeRef.isTombstone = n₂.map NodeRef.isTombstone
  live : ∃ l₁ l₂, (h₁.snapshot ttl).forEachLive = some l₁ ∧
    (h₂.snapshot ttl).forEachLive = some l₂ ∧
    ∀ k, k ∈ l₁.map NodeRef.key ↔ k ∈ l₂.map NodeRef.key
  len : (h₁.snapshot ttl).len = (h₂.snapshot ttl).len
  due : ∀ k, Base.canComeDue (h₁.snapshot ttl) k ↔ Base.canComeDue (h₂.snapshot ttl) k

theorem Tracks.live {h : Handle} {done : List (List Call)} (ht : Tracks h done) (k : UrlKey) :
    k ∈ (h.served.liveNodes (h.overlay.map Prod.snd) ttl).map NodeRef.key ↔
      h.mark ttl k = some false := by
  unfold Handle.mark
  rw [List.mem_map]
  constructor
  · rintro ⟨n, hn, rfl⟩
    obtain ⟨hnode, hlive⟩ := Base.mem_liveNodes.mp hn
    rw [hnode, Option.map_some]
    simp only [Base.isLive, Bool.and_eq_true, Bool.not_eq_true'] at hlive
    rw [hlive.1]
  · intro hmark
    obtain ⟨n, hn, htomb⟩ := Option.map_eq_some_iff.mp hmark
    have hkey := Base.key_of_nodeAt hn
    refine ⟨n, Base.mem_liveNodes.mpr ⟨by rw [hkey]; exact hn, ?_⟩, hkey⟩
    simp [Base.isLive, htomb, ((ht k).1.node hn).2.1]

/-- Handles with the same marks agree on everything that depends on them. -/
theorem sameTombstones_of_mark {h₁ h₂ : Handle} {done₁ done₂ : List (List Call)}
    (ht₁ : Tracks h₁ done₁) (ht₂ : Tracks h₂ done₂)
    (hmark : ∀ k, h₁.mark ttl k = h₂.mark ttl k) : SameTombstones ttl h₁ h₂ := by
  have hlive : ∀ k, k ∈ (h₁.served.liveNodes (h₁.overlay.map Prod.snd) ttl).map NodeRef.key ↔
      k ∈ (h₂.served.liveNodes (h₂.overlay.map Prod.snd) ttl).map NodeRef.key := by
    intro k
    rw [ht₁.live, ht₂.live, hmark]
  have hdue : ∀ {h : Handle} {done : List (List Call)}, Tracks h done → ∀ k,
      Base.canComeDue (h.snapshot ttl) k ↔
        k ∈ (h.served.liveNodes (h.overlay.map Prod.snd) ttl).map NodeRef.key := by
    intro h done ht k
    rw [Handle.snapshot, Base.canComeDue_iff, List.mem_map]
    constructor
    · rintro ⟨n, hn, hkey, -⟩
      exact ⟨n, hn, hkey⟩
    · rintro ⟨n, hn, hkey⟩
      have hnode := (Base.mem_liveNodes.mp hn).1
      exact ⟨n, hn, hkey, ((ht n.key).1.node hnode).2.2⟩
  refine ⟨fun k => ⟨_, _, Base.node_snapshot _ _ _ k, Base.node_snapshot _ _ _ k, hmark k⟩,
    ⟨_, _, Base.forEachLive_snapshot, Base.forEachLive_snapshot, hlive⟩, ?_, fun k => ?_⟩
  · -- the same keys, each visited once
    have hperm := (List.perm_ext_iff_of_nodup Base.liveNodes_nodup Base.liveNodes_nodup).mpr hlive
    have hlen := hperm.length_eq
    rw [List.length_map, List.length_map] at hlen
    unfold Snapshot.len Handle.snapshot
    rw [Base.forEachLive_snapshot, Base.forEachLive_snapshot, Option.map_some, Option.map_some, hlen]
  · rw [hdue ht₁, hdue ht₂, hlive]

/-- The mark, from the base node and the overlay node. -/
theorem Tracks.mark_spec {h : Handle} {txns : List (List Call)} (ht : Tracks h txns) (k : UrlKey) :
    h.mark ttl k = if isPresent (h.served.nodes.get k) (h.patch k)
      then some (tombOf (h.served.nodes.get k) (h.patch k)) else none := by
  have hsome := @isSome_mergedRef ttl k (h.served.idOf k) (h.served.rankOf k)
    (h.served.nodes.get k) (foldKey k none (h.overlay.map Prod.snd))
  rw [← Handle.patch] at hsome
  unfold Handle.mark Base.nodeAt
  rw [← hsome]
  cases hn : mergedRef ttl k (h.served.idOf k) (h.served.rankOf k) (h.served.nodes.get k)
      (foldKey k none (h.overlay.map Prod.snd)) with
  | none => rfl
  | some n => exact congrArg some ((ht k).1.node hn).1

/-- A key is present exactly when the last-wins reading has it. -/
theorem Tracks.mark_of_marked {h : Handle} {txns : List (List Call)} (ht : Tracks h txns)
    {k : UrlKey} (htomb : ∀ g, isPresent (h.served.nodes.get k) (h.patch k) = true →
      goneAfter k txns.flatten = some g → tombOf (h.served.nodes.get k) (h.patch k) = g) :
    h.mark ttl k = goneAfter k txns.flatten := by
  have hpresent := (ht k).2.present
  rw [List.append_nil] at hpresent
  rw [ht.mark_spec]
  cases hg : goneAfter k txns.flatten with
  | none =>
    rw [hg] at hpresent
    rw [hpresent]
    rfl
  | some g =>
    rw [hg, Option.isSome_some] at hpresent
    rw [if_pos hpresent, htomb g hpresent hg]

/-- The mark of a key whose history is settled is the last-wins reading. -/
theorem Tracks.mark_eq {h : Handle} {txns : List (List Call)} (ht : Tracks h txns) {k : UrlKey}
    (hsettled : ∀ pre post, txns = pre ++ post → Quiet k post.flatten →
      goneAfter k pre.flatten = some true → goneAfter k txns.flatten = some true) :
    h.mark ttl k = goneAfter k txns.flatten := by
  refine ht.mark_of_marked fun g hp hg => ?_
  cases g with
  | true => exact (ht k).2.tomb_of_gone hp (by rw [List.append_nil]; exact hg)
  | false =>
    by_contra htomb
    have htomb' : tombOf (h.served.nodes.get k) (h.patch k) = true := by simpa using htomb
    obtain ⟨pre, post, hdone, hquiet, hpre⟩ := (ht k).2.gone_of_tomb hp htomb'
    have hlast := hsettled pre post hdone hquiet hpre
    rw [hg] at hlast
    cases hlast

/-- With no base record the mark is the last-wins reading. -/
theorem Tracks.mark_plain {h : Handle} {txns : List (List Call)} (ht : Tracks h txns)
    {k : UrlKey} (hbase : h.served.nodes.get k = none) :
    h.mark ttl k = goneAfter k txns.flatten := by
  refine ht.mark_of_marked fun g hp hg => ?_
  obtain ⟨-, htraced⟩ := ht k
  rw [hbase] at hp htraced ⊢
  have hcore : (h.patch k).core.isSome = true := by
    simp only [isPresent, Option.isSome_none, Bool.or_false, Bool.and_eq_true] at hp
    exact hp.2
  cases htouch : (h.patch k).touch with
  | none =>
    have hlast := htraced.fresh hp hcore htouch
    rw [List.append_nil, hg] at hlast
    cases hlast
    simp [tombOf, baseTomb, htouch]
  | some t =>
    have hlast := htraced.touched hp t htouch
    rw [List.append_nil, hg] at hlast
    cases hlast
    simp [tombOf, baseTomb, htouch]

/-- A mark kept by a compaction stays while the document is neither upserted
    nor removed. -/
theorem mark_kept {k : UrlKey} {pre post : List (List Call)} {h' : Handle}
    (hrun : Handle.create.runSteps xxh3 rank ttl (plain pre ++ Step.compact :: plain post)
      = some h')
    (hquiet : Quiet k post.flatten) (hgone : goneAfter k pre.flatten = some true)
    (hend : (goneAfter k (pre ++ post).flatten).isSome) : h'.mark ttl k = some true := by
  obtain ⟨h₁, hpre, hrest⟩ := runSteps_append hrun
  have ht₁ := Tracks.create.run hpre
  rw [List.nil_append, txnsOf_plain] at ht₁
  obtain ⟨h₂, hcompact, hpost⟩ := runSteps_cons hrest
  obtain ⟨h₃, hc, ht₂, hempty⟩ := @Tracks.compact xxh3 rank ttl h₁ pre ht₁
  have hsame : h₃ = h₂ := Option.some.inj (hc.symm.trans hcompact)
  subst hsame
  have hpatch : h₃.patch k = {} := by
    rw [Handle.patch, hempty]
    rfl
  -- the compacted base carries the mark
  obtain ⟨-, htraced₂⟩ := ht₂ k
  rw [hpatch] at htraced₂
  have hp₂ : isPresent (h₃.served.nodes.get k) {} = true := by
    rw [htraced₂.present, List.append_nil, hgone]
    rfl
  have hbase : baseTomb (h₃.served.nodes.get k) = true :=
    htraced₂.kept hp₂ rfl rfl (by rw [List.append_nil]; exact hgone)
  have ht' := ht₂.run hpost
  rw [txnsOf_plain] at ht'
  have hserved := served_plain ht₂ hpost
  have hcore := quiet_plain ht₂ hpost hquiet (by rw [hpatch])
  have hp : isPresent (h'.served.nodes.get k) (h'.patch k) = true := by
    rw [(ht' k).2.present, List.append_nil]
    exact hend
  rw [ht'.mark_spec, if_pos hp, tombOf, hcore, hserved, hbase]
  rfl

theorem quiet_isSome {k : UrlKey} {calls more : List Call} (hquiet : Quiet k more)
    (h : (goneAfter k calls).isSome) : (goneAfter k (calls ++ more)).isSome := by
  induction more using List.reverseRecOn with
  | nil => simpa using h
  | append_singleton more c ih =>
    have hmore : Quiet k more := fun c' hc' => hquiet c' (by simp [hc'])
    rw [← List.append_assoc, goneAfter_append]
    by_cases hk : c.key = k
    · have hres := hquiet c (by simp) hk
      cases c with
      | upsert doc => cases hres
      | remove key => cases hres
      | pin key pinned => simpa [callGone, hk] using ih hmore
      | touch key t => simpa [callGone, hk] using ih hmore
    · simpa [callGone, hk] using ih hmore

/-- Every two placements of compactions in a run leave the same tombstones
    exactly when no mark that stood at the end of a transaction was cleared by a
    later touch of the same document. The run is one that commits, as it stands
    and with a compaction at any one point of it. -/
theorem placements_agree_iff (xxh3 : Bytes → UInt64)
    (rank : SortedMap UrlKey NodeModel → List UInt16) (ttl : TtlConfig)
    {txns : List (List Call)} (hplain : (Handle.create.runSteps xxh3 rank ttl (plain txns)).isSome)
    (hone : ∀ pre post, txns = pre ++ post →
      (Handle.create.runSteps xxh3 rank ttl (plain pre ++ Step.compact :: plain post)).isSome) :
    (∀ steps₁ steps₂ h₁ h₂, txnsOf steps₁ = txns → txnsOf steps₂ = txns →
      Handle.create.runSteps xxh3 rank ttl steps₁ = some h₁ →
      Handle.create.runSteps xxh3 rank ttl steps₂ = some h₂ → SameTombstones ttl h₁ h₂) ↔
    Settled txns := by
  constructor
  · -- no compaction against one compaction where the mark stood
    intro hagree k pre post htxns hquiet hgone
    obtain ⟨h₁, hrun₁⟩ := Option.isSome_iff_exists.mp hplain
    have hplaced : txnsOf (plain pre ++ Step.compact :: plain post) = txns := by
      rw [txnsOf_append, txnsOf, txnsOf_plain, txnsOf_plain, htxns]
    obtain ⟨h₂, hrun₂⟩ := Option.isSome_iff_exists.mp (hone pre post htxns)
    have hend : (goneAfter k (pre ++ post).flatten).isSome := by
      rw [List.flatten_append]
      exact quiet_isSome hquiet (by rw [hgone]; rfl)
    have hkept := mark_kept hrun₂ hquiet hgone hend
    obtain ⟨n₁, n₂, hn₁, hn₂, hsame⟩ :=
      (hagree _ _ h₁ h₂ (txnsOf_plain txns) hplaced hrun₁ hrun₂).mark k
    rw [Handle.snapshot, Base.node_snapshot, Option.some.injEq] at hn₁ hn₂
    have ht₁ := Tracks.create.run hrun₁
    rw [List.nil_append, txnsOf_plain] at ht₁
    have hserved := served_plain Tracks.create hrun₁
    have hmark₁ := @Tracks.mark_plain ttl h₁ txns ht₁ k (by rw [hserved]; rfl)
    rw [← hmark₁, Handle.mark, Base.nodeAt, hn₁, hsame, ← hn₂]
    exact hkept
  · intro hsettled steps₁ steps₂ h₁ h₂ htxns₁ htxns₂ hrun₁ hrun₂
    have ht₁ := Tracks.create.run hrun₁
    have ht₂ := Tracks.create.run hrun₂
    rw [List.nil_append, htxns₁] at ht₁
    rw [List.nil_append, htxns₂] at ht₂
    exact sameTombstones_of_mark ht₁ ht₂ fun k =>
      (ht₁.mark_eq (hsettled k)).trans (ht₂.mark_eq (hsettled k)).symm

/-- A document upserted, reported gone, and found unchanged later. -/
def goneThenUnchanged : List (List Call) :=
  [[.upsert ⟨"a", 1, 5, 10, none, none, none, false⟩], [.touch 1 ⟨20, .gone, none, none⟩],
    [.touch 1 ⟨30, .unchanged, none, none⟩]]

/-- The run commits wherever one compaction is put, and its tombstones depend on
    where. -/
theorem placements_agree_iff_goneThenUnchanged :
    ¬Settled goneThenUnchanged ∧
    ¬∀ steps₁ steps₂ h₁ h₂, txnsOf steps₁ = goneThenUnchanged →
      txnsOf steps₂ = goneThenUnchanged →
      Handle.create.runSteps (fun _ => 7) (fun _ => []) TtlConfig.default steps₁ = some h₁ →
      Handle.create.runSteps (fun _ => 7) (fun _ => []) TtlConfig.default steps₂ = some h₂ →
      SameTombstones TtlConfig.default h₁ h₂ := by
  have hnot : ¬Settled goneThenUnchanged := by
    intro h
    have hlast := h 1 (goneThenUnchanged.take 2) (goneThenUnchanged.drop 2) rfl
      (by
        intro c hc _
        simp only [goneThenUnchanged, List.drop, List.flatten_cons, List.flatten_nil,
          List.append_nil, List.mem_singleton] at hc
        rw [hc]
        rfl) rfl
    cases hlast
  refine ⟨hnot, ?_⟩
  rw [placements_agree_iff _ _ _ (by decide +kernel) ?_]
  · exact hnot
  · intro pre post hsplit
    have hlen : pre.length ≤ 3 := by
      have := congrArg List.length hsplit
      simp [goneThenUnchanged] at this
      omega
    have htake : pre = goneThenUnchanged.take pre.length := by rw [hsplit, List.take_left']; rfl
    have hdrop : post = goneThenUnchanged.drop pre.length := by rw [hsplit, List.drop_left']; rfl
    rw [htake, hdrop]
    generalize pre.length = n at hlen
    interval_cases n <;> decide +kernel

/-- With a compaction between the two touches the document is a tombstone,
    without one it is live. -/
theorem tombstone_depends_on_compaction :
    ∃ steps₁ steps₂ h₁ h₂, txnsOf steps₁ = goneThenUnchanged ∧
      txnsOf steps₂ = goneThenUnchanged ∧
      Handle.create.runSteps (fun _ => 7) (fun _ => []) TtlConfig.default steps₁ = some h₁ ∧
      Handle.create.runSteps (fun _ => 7) (fun _ => []) TtlConfig.default steps₂ = some h₂ ∧
      h₁.mark TtlConfig.default 1 = some true ∧ h₂.mark TtlConfig.default 1 = some false ∧
      ¬SameTombstones TtlConfig.default h₁ h₂ := by
  have hsome₁ : ((Handle.create.runSteps (fun _ => 7) (fun _ => []) TtlConfig.default
      (plain (goneThenUnchanged.take 2) ++ Step.compact :: plain (goneThenUnchanged.drop 2))).map
        fun h => h.mark TtlConfig.default 1) = some (some true) := by decide +kernel
  have hsome₂ : ((Handle.create.runSteps (fun _ => 7) (fun _ => []) TtlConfig.default
      (plain goneThenUnchanged)).map fun h => h.mark TtlConfig.default 1) = some (some false) := by
    decide +kernel
  obtain ⟨h₁, hrun₁, hmark₁⟩ := Option.map_eq_some_iff.mp hsome₁
  obtain ⟨h₂, hrun₂, hmark₂⟩ := Option.map_eq_some_iff.mp hsome₂
  refine ⟨_, _, h₁, h₂, rfl, rfl, hrun₁, hrun₂, hmark₁, hmark₂, fun hsame => ?_⟩
  obtain ⟨n₁, n₂, hn₁, hn₂, heq⟩ := hsame.mark 1
  rw [Handle.snapshot, Base.node_snapshot, Option.some.injEq] at hn₁ hn₂
  rw [Handle.mark, Base.nodeAt, hn₁] at hmark₁
  rw [Handle.mark, Base.nodeAt, hn₂] at hmark₂
  rw [hmark₁, hmark₂] at heq
  cases heq

end runs

end GraphR
