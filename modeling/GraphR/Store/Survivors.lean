import GraphR.Store.CrashSafe
import GraphR.Store.Reach

/-! # What survives

    A run in which processes die, beside the history it leaves: the batches that took
    effect, whole and in order, and the compactions. Replayed by a store in which nobody
    dies, the history shows what the bytes show; so the documents of the bytes, and
    their side sets, are those of the surviving batches, and what holds of every written
    store (`Reach`) holds of the one the bytes show. -/

namespace GraphR.OnDisk

open Wal ByteLib BaseFile Multi Opening

/-! ## Histories -/

section survivors
variable (xxh3 : Bytes → UInt64) (rank : SortedMap UrlKey NodeModel → List UInt16)
  (ttl : TtlConfig)

/-- A batch is committed, if its record gets on disk. -/
def takes (h : GraphR.Handle) (edits : List Edit) : Bool :=
  (stagedBy ttl h edits).any fun staged => !refuses xxh3 h staged

/-- What an event leaves in the history. -/
def happened (h : GraphR.Handle) : Event → List GraphR.Event
  | .transact _ edits => if takes xxh3 ttl h edits then [.batch edits] else []
  | .dieInAppend _ _ edits kept =>
    if takes xxh3 ttl h edits ∧ (stagedBy ttl h edits).any fun staged => whole xxh3 h staged kept
    then [.batch edits] else []
  | .compact _ | .dieInCompact _ _ => [.compact]
  | .reopen _ => []

/-- What a run leaves. -/
def survivors : GraphR.Handle → List Event → List GraphR.Event
  | _, [] => []
  | h, e :: es => happened xxh3 ttl h e ++
    ((execDecoded xxh3 rank ttl h e).elim [] fun h' => survivors h' es)

/-- The batches of a new store's run that survive. -/
def survived (events : List Event) : List (List Edit) :=
  batchesOf (survivors xxh3 rank ttl GraphR.Handle.create events)

end survivors

/-- What an event asks for. -/
def asked : Event → List GraphR.Event
  | .transact _ edits | .dieInAppend _ _ edits _ => [.batch edits]
  | .compact _ | .dieInCompact _ _ => [.compact]
  | .reopen _ => []

section history
variable {xxh3 : Bytes → UInt64} {rank : SortedMap UrlKey NodeModel → List UInt16}
  {ttl : TtlConfig} {h h' : GraphR.Handle} {past : List Op} {edits : List Edit}
  {staged : RecordBuf}

theorem happened_sublist (e : Event) : (happened xxh3 ttl h e).Sublist (asked e) := by
  cases e with
  | transact env edits =>
    rw [happened, asked]
    split_ifs
    · exact List.Sublist.refl _
    · exact List.nil_sublist _
  | dieInAppend env env' edits kept =>
    rw [happened, asked]
    split_ifs
    · exact List.Sublist.refl _
    · exact List.nil_sublist _
  | compact env => exact List.Sublist.refl _
  | dieInCompact env env' => exact List.Sublist.refl _
  | reopen env => exact List.Sublist.refl _

/-- A history has nothing that was not asked for, and keeps the order. -/
theorem survivors_sublist (events : List Event) :
    (survivors xxh3 rank ttl h events).Sublist (events.flatMap asked) := by
  induction events generalizing h with
  | nil => exact List.Sublist.refl _
  | cons e events ih =>
    rw [survivors, List.flatMap_cons]
    apply (happened_sublist e).append
    cases execDecoded xxh3 rank ttl h e with
    | none => exact List.nil_sublist _
    | some h' => exact ih

/-- A batch that is settled is refused, or one batch of the history. -/
theorem settle_happened (hstaged : stagedBy ttl h edits = some staged)
    (hsettle : settle xxh3 h staged = some h') : ∃ past',
    RunLib.run (Chronicle.exec xxh3 rank ttl) ⟨h, past⟩
      (if takes xxh3 ttl h edits then [.batch edits] else []) = some ⟨h', past'⟩ := by
  unfold settle at hsettle
  have htakes : takes xxh3 ttl h edits = !refuses xxh3 h staged := by
    rw [takes, hstaged, Option.any_some]
  cases hrefuses : refuses xxh3 h staged with
  | true =>
    rw [hrefuses, if_pos rfl, Option.some.injEq] at hsettle
    rw [htakes, hrefuses, hsettle]
    exact ⟨past, rfl⟩
  | false =>
    rw [hrefuses, if_neg Bool.false_ne_true] at hsettle
    split_ifs at hsettle
    -- what is staged reads back, so the history commits the same ops
    obtain ⟨qs, opss, hqs, -, -⟩ := @edits_give _ _ [] _ _ rfl hstaged
    have hread := record_reads hqs
    rw [htakes, hrefuses]
    refine ⟨past ++ (([] : List Push) ++ qs).map Push.op, ?_⟩
    have hexec : Chronicle.exec xxh3 rank ttl ⟨h, past⟩ (.batch edits)
        = some ⟨h', past ++ (([] : List Push) ++ qs).map Push.op⟩ := by
      have hstaged' : Chronicle.staged ttl ⟨h, past⟩ edits = some staged := hstaged
      unfold Chronicle.exec Chronicle.stagedOps
      simp only [hstaged', hread, hsettle, Option.bind_eq_bind, Option.bind_some]
    rw [Bool.not_false, if_pos rfl, RunLib.run, List.foldlM_cons, hexec]
    rfl

/-- An event of the decoded store is what it leaves in the history. -/
theorem exec_happened {e : Event} (hexec : execDecoded xxh3 rank ttl h e = some h') :
    ∃ past', RunLib.run (Chronicle.exec xxh3 rank ttl) ⟨h, past⟩ (happened xxh3 ttl h e)
      = some ⟨h', past'⟩ := by
  have hcompact : h.compact xxh3 rank ttl = some h' → ∃ past',
      RunLib.run (Chronicle.exec xxh3 rank ttl) ⟨h, past⟩ [.compact] = some ⟨h', past'⟩ := by
    intro hc
    refine ⟨past, ?_⟩
    rw [RunLib.run, List.foldlM_cons, Chronicle.exec, hc]
    rfl
  cases e with
  | transact env edits =>
    obtain ⟨staged, hstaged, hsettle⟩ := Option.bind_eq_some_iff.mp hexec
    exact settle_happened hstaged hsettle
  | dieInAppend env env' edits kept =>
    obtain ⟨staged, hstaged, hsettle⟩ := Option.bind_eq_some_iff.mp hexec
    rw [happened, hstaged, Option.any_some]
    split_ifs at hsettle with hwhole
    · simp only [hwhole, and_true]
      exact settle_happened hstaged hsettle
    · cases hsettle
      rw [if_neg fun hboth => hwhole hboth.2]
      exact ⟨past, rfl⟩
  | compact env => exact hcompact hexec
  | dieInCompact env env' => exact hcompact hexec
  | reopen env =>
    cases hexec
    exact ⟨past, rfl⟩

theorem run_survivors {events : List Event}
    (hrun : RunLib.run (execDecoded xxh3 rank ttl) h events = some h') :
    ∃ past', RunLib.run (Chronicle.exec xxh3 rank ttl) ⟨h, past⟩
      (survivors xxh3 rank ttl h events) = some ⟨h', past'⟩ := by
  induction events generalizing h past with
  | nil =>
    cases hrun
    exact ⟨past, rfl⟩
  | cons e events ih =>
    rw [RunLib.run, List.foldlM_cons] at hrun
    obtain ⟨h₁, hexec, hrest⟩ := Option.bind_eq_some_iff.mp hrun
    obtain ⟨past₁, hfirst⟩ := @exec_happened xxh3 rank ttl h h₁ past e hexec
    obtain ⟨past', hlast⟩ := @ih h₁ past₁ hrest
    refine ⟨past', ?_⟩
    rw [survivors, hexec, Option.elim_some, RunLib.run_append, hfirst, Option.bind_some, hlast]

variable {u : Unicode} {s s' : State} {events : List Event}

/-- Bytes that hold a decoded store hold, at the end of a run, the store that its
    history leads to. -/
theorem run_history (hrank : ∀ nodes, (rank nodes).length = nodes.entries.length)
    (hs : Stored xxh3 u s h)
    (hpass : RunLib.passes (exec xxh3 u rank ttl) (fun s => s.roomFor xxh3 u rank ttl) s events = true)
    (hrun : RunLib.run (exec xxh3 u rank ttl) s events = some s') (past : List Op) :
    ∃ c, RunLib.run (Chronicle.exec xxh3 rank ttl) ⟨h, past⟩ (survivors xxh3 rank ttl h events)
      = some c ∧ Stored xxh3 u s' c.handle := by
  -- the run over bytes and the decoded run go through together
  have hrel := RunLib.simulates (R := Stored xxh3 u)
    (fun s h e hs hroom => hs.exec hrank (h := h) e hroom) hs hpass
  rw [hrun] at hrel
  cases hdecoded : RunLib.run (execDecoded xxh3 rank ttl) h events with
  | none =>
    rw [hdecoded] at hrel
    cases hrel
  | some h' =>
    rw [hdecoded] at hrel
    cases hrel with
    | some hs' =>
      obtain ⟨past', hleft⟩ := @run_survivors xxh3 rank ttl h h' past events hdecoded
      exact ⟨_, hleft, hs'⟩

end history

/-! ## A rough run -/

deriving instance DecidableEq for Write, Edit, GraphR.Event

/-- What is left of `roughRun`: the second document is not in it. -/
def roughHistory : List GraphR.Event :=
  [.batch [.write (.upsert ⟨"a", 1, 5, 7, some "cat", none, none, false⟩),
      .write (.setAttrs 1 [(2, "x")])],
    .batch [.write (.upsert ⟨"c", 3, 5, 7, none, none, none, false⟩)],
    .compact]

theorem survivors_roughRun : survivors packHash exactRanks TtlConfig.default
    GraphR.Handle.create roughRun = roughHistory := by
  decide +kernel

/-- The run over bytes has room, and goes through. -/
theorem roughRun_goes : (create packHash ⟨5, 9⟩).any (fun s =>
    RunLib.passes (exec packHash .ascii exactRanks TtlConfig.default)
      (fun s => s.roomFor packHash .ascii exactRanks TtlConfig.default) s roughRun &&
    (RunLib.run (exec packHash .ascii exactRanks TtlConfig.default) s roughRun).isSome) = true := by
  decide +kernel

/-! ## What the bytes show -/

section shown
variable (xxh3 : Bytes → UInt64) (u : Unicode)
  (rank : SortedMap UrlKey NodeModel → List UInt16) (ttl : TtlConfig) (env : Env)

/-- No death leaves a trace of its own: where a run over bytes goes through, a store in
    which nobody dies runs through its history, made of what was asked for in the order
    in which it was, to a written store that shows the same reads, answers and next
    number. -/
theorem crash_history (hrank : ∀ nodes, (rank nodes).length = nodes.entries.length) :
    ∃ s, create xxh3 env = some s ∧ ∀ (events : List Event) (s' : State),
      RunLib.passes (exec xxh3 u rank ttl) (fun s => s.roomFor xxh3 u rank ttl) s events = true →
      RunLib.run (exec xxh3 u rank ttl) s events = some s' →
      (survivors xxh3 rank ttl GraphR.Handle.create events).Sublist (events.flatMap asked) ∧
      ∃ c, RunLib.run (Chronicle.exec xxh3 rank ttl) .create
        (survivors xxh3 rank ttl GraphR.Handle.create events) = some c ∧
        Reach xxh3 rank c.handle.served c.overlay ∧ Shows xxh3 u ttl s' c.handle := by
  obtain ⟨s, hcreate, hs⟩ := stored_create xxh3 u env
  refine ⟨s, hcreate, fun events s' hpass hrun => ⟨survivors_sublist events, ?_⟩⟩
  obtain ⟨c, hleft, hs'⟩ := run_history hrank hs hpass hrun []
  have hreach : Reach xxh3 rank c.handle.served c.overlay :=
    reach_of_run .create .create hleft
  exact ⟨c, hleft, hreach, hs'.shows ttl⟩

theorem crash_history_roughRun : ∃ s s' c, create packHash ⟨5, 9⟩ = some s ∧
    RunLib.run (exec packHash .ascii exactRanks TtlConfig.default) s roughRun = some s' ∧
    RunLib.run (Chronicle.exec packHash exactRanks TtlConfig.default) .create roughHistory
      = some c ∧ Reach packHash exactRanks c.handle.served c.overlay ∧
    Shows packHash .ascii TtlConfig.default s' c.handle := by
  have hgoes := roughRun_goes
  obtain ⟨s, hcreate, hruns⟩ := crash_history packHash .ascii exactRanks
    TtlConfig.default ⟨5, 9⟩ (Rank.length_ofNodes F64.exact)
  rw [hcreate, Option.any_some, Bool.and_eq_true, Option.isSome_iff_exists] at hgoes
  obtain ⟨hpass, s', hrun⟩ := hgoes
  obtain ⟨-, c, hleft, hreach, hshows⟩ := hruns roughRun s' hpass hrun
  rw [survivors_roughRun] at hleft
  exact ⟨s, s', c, hcreate, hrun, hleft, hreach, hshows⟩

/-- Sets made only on keys that are documents by the end of their batch are settled. -/
theorem setsSettled_of_documents {xxh3 : Bytes → UInt64} {batches : List (List Edit)}
    (h : ∀ pre post, batches = pre ++ post →
      ∀ op ∈ setsOf pre, ingested op.key (setsOf pre) = true) : SetsSettled xxh3 batches := by
  intro k pre post hsplit hpre _
  -- every op so far is for another key
  have hempty : ∀ (γ : Type) (K : SideKind xxh3 k γ), K.lastSet (setsOf pre) = [] := by
    intro γ K
    apply K.foldl_after_of_unchanged
    intro op hop
    have hkey : op.key ≠ k := by
      intro heq
      rw [← heq, h pre post hsplit op hop] at hpre
      cases hpre
    simp [SideKind.changes, hkey]
  exact ⟨fun _ => hempty _ _, fun _ => hempty _ _, fun _ => hempty _ _⟩

/-- The documents of the bytes are those whose last upsert or remove in a surviving
    batch is an upsert. Where no document was created over a set that a compaction could
    have dropped, each has the segments, edges and attributes last set there. -/
theorem survivors_shown (hrank : ∀ nodes, (rank nodes).length = nodes.entries.length) :
    ∃ s, create xxh3 env = some s ∧ ∀ (events : List Event) (s' : State),
      RunLib.passes (exec xxh3 u rank ttl) (fun s => s.roomFor xxh3 u rank ttl) s events = true →
      RunLib.run (exec xxh3 u rank ttl) s events = some s' →
      ∃ view, s'.snapshot ttl = some view ∧ ∀ k,
        ((∃ n, view.node k = some (some n) ∧ n.isStub = false) ↔
          ingested k (setsOf (survived xxh3 rank ttl events)) = true) ∧
        (SetsSettled xxh3 (survived xxh3 rank ttl events) →
          ingested k (setsOf (survived xxh3 rank ttl events)) = true →
          view.segments xxh3 k
              = some ((segsKind xxh3 k).lastSet (setsOf (survived xxh3 rank ttl events))) ∧
            (view.neighbors k).map (List.map EdgeRef.raw)
              = some ((edgesKind xxh3 k).lastSet (setsOf (survived xxh3 rank ttl events))) ∧
            view.attrs k
              = some ((attrsKind xxh3 k).lastSet (setsOf (survived xxh3 rank ttl events)))) := by
  obtain ⟨s, hcreate, hs⟩ := stored_create xxh3 u env
  refine ⟨s, hcreate, fun events s' hpass hrun => ?_⟩
  obtain ⟨c, hleft, hs'⟩ := run_history hrank hs hpass hrun []
  have hsides : Sides xxh3 (survived xxh3 rank ttl events) c := Sides.create.run hleft
  have hsame := hs'.same ttl
  refine ⟨_, hs'.snapshot ttl, fun k => ⟨?_, fun hsettled hdoc => ?_⟩⟩
  · rw [hsame.node]
    exact hsides.isDocument k
  · -- what is held for the key is the last set, as every set is rooted
    have hrooted := fun pre post hsplit hpre => hsettled k pre post hsplit hpre hdoc
    have hsegs := (hsides.held k _ (segsKind xxh3 k)).eq_lastSet
      fun pre post hsplit hpre => (hrooted pre post hsplit hpre).1
    have hedges := (hsides.held k _ (edgesKind xxh3 k)).eq_lastSet
      fun pre post hsplit hpre => (hrooted pre post hsplit hpre).2.1
    have hattrs := (hsides.held k _ (attrsKind xxh3 k)).eq_lastSet
      fun pre post hsplit hpre => (hrooted pre post hsplit hpre).2.2
    obtain ⟨hreadSegs, hreadEdges, hreadAttrs⟩ := @Sides.reads xxh3 ttl c _ hsides k hdoc
    rw [hsame.segments, hsame.neighbors, hsame.attrs, hreadSegs, hreadEdges, hreadAttrs,
      hsegs, hedges, hattrs]
    exact ⟨rfl, rfl, rfl⟩

theorem setsSettled_roughHistory : SetsSettled packHash (batchesOf roughHistory) := by
  apply setsSettled_of_documents
  intro pre post hsplit
  have hlen : pre.length ≤ 2 := by
    have hlen := congrArg List.length hsplit
    simp [roughHistory, batchesOf] at hlen
    omega
  have htake : pre = (batchesOf roughHistory).take pre.length := by
    rw [hsplit, List.take_left' rfl]
  rw [htake]
  generalize pre.length = n at hlen
  interval_cases n <;> decide +kernel

theorem survivors_shown_roughRun : ∃ s s' view, create packHash ⟨5, 9⟩ = some s ∧
    RunLib.run (exec packHash .ascii exactRanks TtlConfig.default) s roughRun = some s' ∧
    s'.snapshot TtlConfig.default = some view ∧ view.attrs 1 = some [(2, "x")] ∧
    ¬∃ n, view.node 2 = some (some n) ∧ n.isStub = false := by
  have hgoes := roughRun_goes
  obtain ⟨s, hcreate, hruns⟩ := survivors_shown packHash .ascii exactRanks
    TtlConfig.default ⟨5, 9⟩ (Rank.length_ofNodes F64.exact)
  rw [hcreate, Option.any_some, Bool.and_eq_true, Option.isSome_iff_exists] at hgoes
  obtain ⟨hpass, s', hrun⟩ := hgoes
  obtain ⟨view, hview, hshown⟩ := hruns roughRun s' hpass hrun
  -- in the history the first and the third batch are left
  simp only [survived, survivors_roughRun] at hshown
  refine ⟨s, s', view, hcreate, hrun, hview, ?_, ?_⟩
  · obtain ⟨-, -, hattrs⟩ := (hshown 1).2 setsSettled_roughHistory (by decide +kernel)
    rw [hattrs]
    decide +kernel
  · rw [(hshown 2).1]
    decide +kernel

end shown

end GraphR.OnDisk
