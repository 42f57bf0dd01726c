import GraphR.Store.History

/-! # What a new document starts with

    An upsert that creates a document should find nothing of the key to inherit:
    no counters, no learned interval, no pin. The store decides that from what it
    holds of the key, and three things can be left there: a touch or a pin staged
    while the key was no document (a stub passes for a node, and a remove staged
    earlier in the batch is not looked at), and a stub's own record, whose content
    hash is 0.

    `Fits` is the condition on a step that none of the three arises. Along a run
    whose steps all meet it, a key that is no document is `Blank`, and an upsert of
    it inherits nothing. -/

namespace GraphR

open Wal ByteLib

/-! ## The condition on a step -/

section fits
variable (ttl : TtlConfig)

/-- An op of a batch, after the ops `pre` of the same batch: a touch or a pin
    finds a document, and an upsert that creates one the base knows as a stub
    carries a hash other than the stub's. -/
def OpFits (c : Chronicle) (pre : List Op) : Op → Prop
  | .touch k _ => ingested k (c.past ++ pre) = true
  | .pin k _ => ingested k (c.past ++ pre) = true
  | .upsert u => ingested u.key (c.past ++ pre) = false → (c.base u.key).isSome →
      Op.remove u.key ∉ c.overlay ++ pre → u.contentHash ≠ 0 ∨ ttl.baseS = 1
  | _ => True

/-- Every op of a batch fits where it takes effect. -/
def Fits (c : Chronicle) : Event → Prop
  | .batch edits => ∀ ops, c.stagedOps ttl edits = some ops →
      ∀ pre op post, ops = pre ++ op :: post → OpFits ttl c pre op
  | _ => True

end fits

/-! ## Keys that are no documents -/

/-- A stub's record, as compaction writes it first. -/
structure BlankStub (n : NodeModel) : Prop where
  contentHash : n.contentHash = 0
  lastChangeMs : n.lastChangeMs = 0
  intervalS : n.intervalS = 0
  checks : n.checks = 0
  changes : n.changes = 0
  pinned : hasFlag n.flags nflags.pinned = false

/-- Nothing of the key is left to inherit. -/
structure Blank (m : Option NodeModel) (q : OverlayNode) : Prop where
  core : q.core = none
  touch : q.touch = none
  carried : q.carried = none
  pinned : q.pinned = none
  severed : q.severed = q.removed
  base : q.severed = false → ∀ n, m = some n → BlankStub n

theorem Blank.removed (m : Option NodeModel) : Blank m { removed := true, severed := true } :=
  ⟨rfl, rfl, rfl, rfl, rfl, fun h => by cases h⟩

theorem blankStub_stubModel : BlankStub stubModel := ⟨rfl, rfl, rfl, rfl, rfl, by decide⟩

/-- A key is severed by a remove among the ops folded, and by nothing else. -/
theorem severed_foldKey (k : UrlKey) (ops : List Op) :
    ((foldKey k none ops).getD {}).severed = decide (Op.remove k ∈ ops) := by
  induction ops using List.reverseRecOn with
  | nil => rfl
  | append_singleton ops op ih =>
    rw [foldKey_append]
    unfold foldKey at ih ⊢
    simp only [List.foldl_cons, List.foldl_nil, List.mem_append, List.mem_singleton]
    by_cases hk : k = op.key
    · rw [if_pos hk, Option.getD_some]
      cases op with
      | remove key =>
        have hkey : k = key := hk
        simp [OverlayNode.step, hkey]
      | upsert u => simpa [OverlayNode.step] using ih
      | segs key v => simpa [OverlayNode.step] using ih
      | edges key v => simpa [OverlayNode.step] using ih
      | attrs key v => simpa [OverlayNode.step] using ih
      | touch key t => simpa [OverlayNode.step] using ih
      | pin key b => simpa [OverlayNode.step] using ih
    · have hne : Op.remove k ≠ op := by
        rintro rfl
        exact hk rfl
      rw [if_neg hk, ih]
      simp [hne]

theorem foldKey_append_one (k : UrlKey) (e : Option OverlayNode) (ops : List Op) (op : Op) :
    foldKey k e (ops ++ [op])
      = if k = op.key then some (((foldKey k e ops).getD {}).step op) else foldKey k e ops := by
  rw [foldKey_append]
  rfl

/-- Ops on other keys leave a key's node alone. -/
theorem foldKey_of_other {k : UrlKey} (e : Option OverlayNode) {ops : List Op}
    (h : ∀ op ∈ ops, op.key ≠ k) : foldKey k e ops = e := by
  induction ops using List.reverseRecOn with
  | nil => rfl
  | append_singleton ops op ih =>
    rw [foldKey_append_one, if_neg fun hk => h op (by simp) hk.symm]
    exact ih fun o ho => h o (by simp [ho])

/-! ## The invariant -/

/-- After the ops `pre` of the running batch, every key that is no document is
    blank. -/
def BlankAt (c : Chronicle) (pre : List Op) : Prop :=
  ∀ k, ingested k (c.past ++ pre) = false →
    Blank (c.base k) ((foldKey k none (c.overlay ++ pre)).getD {})

/-- What a run whose steps fit keeps. -/
structure BlankInv (c : Chronicle) : Prop where
  synced : c.handle.Synced
  closed : c.handle.served.Closed
  blank : BlankAt c []

section steps
variable {xxh3 : Bytes → UInt64} {rank : SortedMap UrlKey NodeModel → List UInt16}
  {ttl : TtlConfig} {c c' : Chronicle}

theorem BlankInv.create : BlankInv Chronicle.create := by
  refine ⟨Handle.Synced.create, ?_, ?_⟩
  · intro k n hn
    cases hn
  · intro k _
    exact ⟨rfl, rfl, rfl, rfl, rfl, fun _ n hn => by cases hn⟩

/-- One op. A touch or a pin of a blank key does not fit, and an upsert makes it
    a document. -/
theorem BlankAt.step {pre : List Op} {op : Op} (h : BlankAt c pre) (hfit : OpFits ttl c pre op) :
    BlankAt c (pre ++ [op]) := by
  intro k hk
  rw [← List.append_assoc, ingested_append_one] at hk
  rw [← List.append_assoc, foldKey_append_one]
  by_cases hkey : k = op.key
  · rw [if_pos hkey, Option.getD_some]
    cases op with
    | upsert u =>
      have hu : u.key = k := hkey.symm
      simp [ingestOp, hu] at hk
    | remove key => exact Blank.removed _
    | touch key t =>
      have hk' : ingested key (c.past ++ pre) = false := by
        rw [← show k = key from hkey]
        exact hk
      rw [OpFits, hk'] at hfit
      cases hfit
    | pin key b =>
      have hk' : ingested key (c.past ++ pre) = false := by
        rw [← show k = key from hkey]
        exact hk
      rw [OpFits, hk'] at hfit
      cases hfit
    | segs key v =>
      obtain ⟨h1, h2, h3, h4, h5, h6⟩ := h k hk
      exact ⟨h1, h2, h3, h4, h5, h6⟩
    | edges key v =>
      obtain ⟨h1, h2, h3, h4, h5, h6⟩ := h k hk
      exact ⟨h1, h2, h3, h4, h5, h6⟩
    | attrs key v =>
      obtain ⟨h1, h2, h3, h4, h5, h6⟩ := h k hk
      exact ⟨h1, h2, h3, h4, h5, h6⟩
  · rw [ingestOp_other hkey] at hk
    rw [if_neg hkey]
    exact h k hk

/-- The ops of a batch, up to any point of it. -/
theorem BlankAt.ops {ops pre post : List Op} (h : BlankAt c [])
    (hfit : ∀ pre op post, ops = pre ++ op :: post → OpFits ttl c pre op)
    (hsplit : ops = pre ++ post) : BlankAt c pre := by
  induction pre using List.reverseRecOn generalizing post with
  | nil => exact h
  | append_singleton pre op ih =>
    rw [List.append_assoc, List.singleton_append] at hsplit
    exact (ih hsplit).step (hfit pre op post hsplit)

/-- What compaction makes of a blank key: nothing, a fresh stub, or the stub it
    was. -/
theorem Blank.compacted {k : UrlKey} {id : Option Nat} {rank : UInt16} {m m' : Option NodeModel}
    {p : Option OverlayNode} {segs : List SegRef} {edges : List Edge}
    {attrs : List (UInt8 × String)} {refs : List UrlKey} (h : Blank m (p.getD {}))
    (hm' : m' = ((mergedRef ttl k id rank m p).map fun n => n.toModel segs edges attrs).elim
      (if k ∈ refs then some stubModel else none)
      fun x => if hasFlag x.flags nflags.stub = true ∧ k ∉ refs then none else some x) :
    Blank m' {} := by
  refine ⟨rfl, rfl, rfl, rfl, rfl, fun _ x hx => ?_⟩
  rw [hx] at hm'
  -- the merged node, if there is one, is the base record untouched
  have hnode : mergedRef ttl k id rank m p = none ∨ ∃ n, m = some n ∧ BlankStub n ∧
      mergedRef ttl k id rank m p = some (.make k id n.url n.title n.snippet
        (baseFreshness (n.toRec k) none) rank) := by
    cases p with
    | none =>
      cases m with
      | none => exact .inl rfl
      | some n => exact .inr ⟨n, rfl, h.base rfl n rfl, rfl⟩
    | some q =>
      obtain ⟨hcore, htouch, hcarried, hpinned, hsev, hbase⟩ := h
      simp only [Option.getD_some] at hcore htouch hcarried hpinned hsev hbase
      by_cases hrem : q.removed = true
      · left
        simp [mergedRef, hrem]
      · rw [Bool.not_eq_true] at hrem
        cases m with
        | none =>
          left
          simp [mergedRef, hrem, hcore]
        | some n =>
          right
          refine ⟨n, rfl, hbase (hsev.trans hrem) n rfl, ?_⟩
          simp [mergedRef, hrem, hcore, baseFreshness, hpinned, htouch]
  rcases hnode with hnone | ⟨n, -, hstub, hsome⟩
  · rw [hnone] at hm'
    by_cases href : k ∈ refs
    · simp only [Option.map_none, Option.elim_none, href, if_true, Option.some.injEq] at hm'
      exact hm' ▸ blankStub_stubModel
    · simp [href] at hm'
  · rw [hsome] at hm'
    simp only [Option.map_some, Option.elim_some] at hm'
    split_ifs at hm'
    cases hm'
    exact ⟨hstub.contentHash, hstub.lastChangeMs, hstub.intervalS, hstub.checks, hstub.changes,
      hstub.pinned⟩

theorem BlankInv.step {e : Event} (h : BlankInv c) (hfit : Fits ttl c e)
    (hs : c.exec xxh3 rank ttl e = some c') : BlankInv c' := by
  cases e with
  | batch edits =>
    obtain ⟨opss, -, hops, hpast, hoverlay, hserved, hsynced⟩ := Chronicle.exec_batch hs
    have hall : BlankAt c opss.flatten :=
      h.blank.ops (hfit _ hops) (List.append_nil _).symm
    refine ⟨hsynced h.synced, hserved ▸ h.closed, ?_⟩
    intro k hk
    rw [List.append_nil, hpast] at hk
    rw [List.append_nil, Chronicle.base, hserved, hoverlay]
    exact hall k hk
  | compact =>
    obtain ⟨hpast, hoverlay, hsynced, hclosed, refs, hbase⟩ := Chronicle.exec_compact h.closed hs
    refine ⟨hsynced, hclosed, ?_⟩
    intro k hk
    rw [List.append_nil, hpast] at hk
    have hblank := h.blank k (by rwa [List.append_nil])
    rw [List.append_nil] at hblank
    rw [hoverlay]
    exact hblank.compacted (hbase k)
  | reopen =>
    cases hs
    rw [h.synced.reopen]
    exact h

/-! ## A created document -/

/-- The upsert of a blank key, read back. -/
theorem Blank.upserted {k : UrlKey} {id : Option Nat} {rank : UInt16} {m : Option NodeModel}
    {q : OverlayNode} {u : Upsert} (h : Blank m q)
    (hhash : m.isSome → q.severed = false → u.contentHash ≠ 0 ∨ ttl.baseS = 1) :
    ∃ n, mergedRef ttl k id rank m (some (q.step (.upsert u))) = some n ∧ n.checks = 0 ∧
      n.changes = 0 ∧ n.lastChangeMs = 0 ∧ n.intervalS = ttl.baseS ∧
      n.pinned = hasFlag u.flags nflags.pinned := by
  obtain ⟨hcore, htouch, hcarried, hpinned, hsev, hbase⟩ := h
  refine ⟨_, rfl, ?_⟩
  have hpin := (coreFlags_spec (q.step (.upsert u)) u
    (if q.severed = true then none else m.map (·.toRec k))).1
  simp only [NodeRef.make, NodeRef.pinned, coreFreshness, OverlayNode.step, htouch, hcarried,
    coreCounters] at hpin ⊢
  rw [hpin]
  by_cases hs : q.severed = true
  · simp only [hs, if_true, Option.elim_none, coreInterval]
    refine ⟨trivial, trivial, trivial, trivial, ?_⟩
    by_cases hu : hasFlag u.flags nflags.pinned = true <;>
      simp [OverlayNode.foldedPin, hpinned, hcore, hu]
  · rw [Bool.not_eq_true] at hs
    cases m with
    | none =>
      simp only [hs, Bool.false_eq_true, if_false, Option.map_none, Option.elim_none, coreInterval]
      refine ⟨trivial, trivial, trivial, trivial, ?_⟩
      by_cases hu : hasFlag u.flags nflags.pinned = true <;>
        simp [OverlayNode.foldedPin, hpinned, hcore, hu]
    | some n =>
      have hstub := hbase hs n rfl
      simp only [hs, Bool.false_eq_true, if_false, Option.map_some, Option.elim_some, coreInterval,
        NodeModel.toRec, hstub.contentHash, hstub.intervalS, hstub.checks, hstub.changes,
        hstub.lastChangeMs]
      refine ⟨trivial, trivial, trivial, ?_, ?_⟩
      · rcases hhash rfl hs with hne | hone
        · rw [if_neg fun h => hne h.symm]
        · rw [hone]
          split_ifs <;> rfl
      · by_cases hu : hasFlag u.flags nflags.pinned = true <;>
          simp [OverlayNode.foldedPin, hpinned, hcore, hu, hstub.pinned]

/-- What the batch that led from `c` to `c'` created, if it did not name it
    again: no counter, no learned interval, and the pin the upsert asked for. -/
def InheritsNothing (ttl : TtlConfig) (c c' : Chronicle) : Prop :=
  ∀ pre u post, c'.past = c.past ++ (pre ++ .upsert u :: post) → (∀ op ∈ post, op.key ≠ u.key) →
    ingested u.key (c.past ++ pre) = false →
    ∃ n, (c'.handle.snapshot ttl).node u.key = some (some n) ∧ n.checks = 0 ∧ n.changes = 0 ∧
      n.lastChangeMs = 0 ∧ n.intervalS = ttl.baseS ∧ n.pinned = hasFlag u.flags nflags.pinned

/-- Along a run whose steps all fit, a created document inherits nothing. -/
theorem new_document_inherits_nothing (xxh3 : Bytes → UInt64)
    (rank : SortedMap UrlKey NodeModel → List UInt16) (ttl : TtlConfig) (events : List Event)
    (c c' : Chronicle) (edits : List Edit)
    (hrun : RunLib.Run (Chronicle.exec xxh3 rank ttl) (Fits ttl) Chronicle.create events c)
    (hfit : Fits ttl c (.batch edits)) (hs : c.exec xxh3 rank ttl (.batch edits) = some c') :
    InheritsNothing ttl c c' := by
  have hinv : BlankInv c := hrun.invariant BlankInv.create fun _ _ _ h hf he => h.step hf he
  obtain ⟨opss, -, hops, hpast, hoverlay, hserved, -⟩ := Chronicle.exec_batch hs
  intro pre u post hsplit hpost hnew
  rw [hpast] at hsplit
  have hflat : opss.flatten = pre ++ .upsert u :: post := List.append_cancel_left hsplit
  -- at the upsert the key is blank; the ops after it are on other keys
  have hblank := (hinv.blank.ops (hfit _ hops) hflat) u.key hnew
  have hpatch : foldKey u.key none (c.overlay ++ opss.flatten)
      = some (((foldKey u.key none (c.overlay ++ pre)).getD {}).step (.upsert u)) := by
    rw [hflat, show c.overlay ++ (pre ++ .upsert u :: post)
        = ((c.overlay ++ pre) ++ [.upsert u]) ++ post by simp, foldKey_append,
      foldKey_of_other _ hpost, foldKey_append_one]
    exact if_pos rfl
  have hhash : (c.base u.key).isSome →
      ((foldKey u.key none (c.overlay ++ pre)).getD {}).severed = false →
      u.contentHash ≠ 0 ∨ ttl.baseS = 1 := by
    intro hsome hsev
    rw [severed_foldKey, decide_eq_false_iff_not] at hsev
    exact hfit _ hops pre (.upsert u) post hflat hnew hsome hsev
  obtain ⟨n, hn, hfields⟩ := @Blank.upserted ttl u.key (c.handle.served.idOf u.key)
    (c.handle.served.rankOf u.key) _ _ _ hblank hhash
  refine ⟨n, ?_, hfields⟩
  rw [Handle.snapshot, Base.node_snapshot, ← Chronicle.overlay, hserved, hoverlay, hpatch]
  exact congrArg some hn

/-! ## Runs -/

instance decidableOpFits (ttl : TtlConfig) (c : Chronicle) (pre : List Op) :
    (op : Op) → Decidable (OpFits ttl c pre op)
  | .touch _ _ => inferInstanceAs (Decidable (_ = true))
  | .pin _ _ => inferInstanceAs (Decidable (_ = true))
  | .upsert _ => inferInstanceAs (Decidable (_ = false → _ = true → _ ∉ _ → _ ∨ _))
  | .segs _ _ => .isTrue trivial
  | .edges _ _ => .isTrue trivial
  | .attrs _ _ => .isTrue trivial
  | .remove _ => .isTrue trivial

/-- `Fits`, decided. -/
def fitsCheck (ttl : TtlConfig) (c : Chronicle) : Event → Bool
  | .batch edits => (c.stagedOps ttl edits).all fun ops =>
      (List.range ops.length).all fun i => ops[i]?.all fun op => OpFits ttl c (ops.take i) op
  | _ => true

theorem fits_of_check {e : Event} (h : fitsCheck ttl c e = true) : Fits ttl c e := by
  cases e with
  | compact => trivial
  | reopen => trivial
  | batch edits =>
    intro ops hops pre op post hsplit
    rw [fitsCheck, hops, Option.all_some, List.all_eq_true] at h
    have hat := h pre.length (by rw [List.mem_range, hsplit]; simp)
    have hget : ops[pre.length]? = some op := by rw [hsplit]; simp
    have htake : ops.take pre.length = pre := by rw [hsplit]; simp
    rw [hget, htake] at hat
    simpa using hat

end steps

/-- A document with url `a` and an edge to key 2. -/
def linkedBatch : Event :=
  .batch [.write (.upsert ⟨"a", 1, 5, 10, none, none, none, false⟩),
    .write (.setEdges 1 [(2, .link, 1)])]

/-- The document touched, pinned, folded into a base, and removed. -/
def removedRun : List Event :=
  [linkedBatch, .batch [.touch 1 ⟨20, .changed, some 6, none⟩, .pin 1 true], .compact,
    .batch [.write (.remove 1)]]

/-- A run and one more batch, with what the handle holds after both. -/
def lastBatch (check : Chronicle → Event → Bool) (events : List Event) (edits : List Edit) :
    Option (Chronicle × Chronicle) := do
  let step := Chronicle.exec (fun _ => 7) (fun _ => []) TtlConfig.default
  let c ← RunLib.checkedRun step check Chronicle.create events
  if check c (.batch edits) then do
    let c' ← step c (.batch edits)
    some (c, c')
  else none

theorem of_lastBatch {check : Chronicle → Event → Bool} {events : List Event} {edits : List Edit}
    {c c' : Chronicle} (h : lastBatch check events edits = some (c, c')) :
    RunLib.checkedRun (Chronicle.exec (fun _ => 7) (fun _ => []) TtlConfig.default) check
        Chronicle.create events = some c ∧ check c (.batch edits) = true ∧
      c.exec (fun _ => 7) (fun _ => []) TtlConfig.default (.batch edits) = some c' := by
  unfold lastBatch at h
  simp only [Option.bind_eq_bind, Option.bind_eq_some_iff] at h
  obtain ⟨d, hd, h⟩ := h
  split_ifs at h with hcheck
  · obtain ⟨d', hd', h⟩ := Option.bind_eq_some_iff.mp h
    cases h
    exact ⟨hd, hcheck, hd'⟩

/-- The removed document created again: it starts afresh. -/
theorem new_document_inherits_nothing_reborn :
    ∃ c c', c'.past = c.past ++ [.upsert ⟨1, 6, 30, 0, "a", none, none, none⟩] ∧
      ingested 1 c.past = false ∧ InheritsNothing TtlConfig.default c c' := by
  have heval : (lastBatch (fitsCheck TtlConfig.default) removedRun
      [.write (.upsert ⟨"a", 1, 6, 30, none, none, none, false⟩)]).any (fun p =>
        decide (p.2.past = p.1.past ++ [.upsert ⟨1, 6, 30, 0, "a", none, none, none⟩]
          ∧ ingested 1 p.1.past = false)) = true := by
    decide +kernel
  cases hlast : lastBatch (fitsCheck TtlConfig.default) removedRun
      [.write (.upsert ⟨"a", 1, 6, 30, none, none, none, false⟩)] with
  | none => simp [hlast] at heval
  | some p =>
    rw [hlast, Option.any_some] at heval
    obtain ⟨hpast, hnew⟩ := of_decide_eq_true heval
    obtain ⟨hrun, hcheck, hexec⟩ := of_lastBatch hlast
    exact ⟨p.1, p.2, hpast, hnew, new_document_inherits_nothing _ _ _ _ _ _ _
      (RunLib.Run.of_checkedRun (fun _ _ => fits_of_check) hrun) (fits_of_check hcheck) hexec⟩

/-- A stub, minted by a compaction, is pinned. -/
def pinnedStubRun : List Event := [linkedBatch, .compact, .batch [.pin 2 true]]

/-- The pin of the stub lies in wait: the document created later, which did not
    ask for one, is pinned. -/
theorem pinned_stub_lies_in_wait :
    ∃ c c' n, RunLib.run (Chronicle.exec (fun _ => 7) (fun _ => []) TtlConfig.default)
        Chronicle.create pinnedStubRun = some c ∧
      c.exec (fun _ => 7) (fun _ => []) TtlConfig.default
        (.batch [.write (.upsert ⟨"b", 2, 6, 30, none, none, none, false⟩)]) = some c' ∧
      ingested 2 c.past = false ∧
      (c'.handle.snapshot TtlConfig.default).node 2 = some (some n) ∧ n.pinned = true ∧
      ¬InheritsNothing TtlConfig.default c c' := by
  have heval : (lastBatch (fun _ _ => true) pinnedStubRun
      [.write (.upsert ⟨"b", 2, 6, 30, none, none, none, false⟩)]).any (fun p =>
        decide (p.2.past = p.1.past ++ [.upsert ⟨2, 6, 30, 0, "b", none, none, none⟩]
          ∧ ingested 2 p.1.past = false
          ∧ ((p.2.handle.snapshot TtlConfig.default).node 2).any (fun n =>
            n.any NodeRef.pinned) = true)) = true := by
    decide +kernel
  cases hlast : lastBatch (fun _ _ => true) pinnedStubRun
      [.write (.upsert ⟨"b", 2, 6, 30, none, none, none, false⟩)] with
  | none => simp [hlast] at heval
  | some p =>
    rw [hlast, Option.any_some] at heval
    obtain ⟨hpast, hnew, hnode⟩ := of_decide_eq_true heval
    obtain ⟨hrun, -, hexec⟩ := of_lastBatch hlast
    cases hn : (p.2.handle.snapshot TtlConfig.default).node 2 with
    | none => simp [hn] at hnode
    | some o =>
      cases o with
      | none => simp [hn] at hnode
      | some n =>
        simp only [hn, Option.any_some] at hnode
        refine ⟨p.1, p.2, n, ?_, hexec, hnew, hn, hnode, ?_⟩
        · simpa [RunLib.run, RunLib.checkedRun] using hrun
        · intro h
          obtain ⟨n', hn', -, -, -, -, hpin⟩ := h [] ⟨2, 6, 30, 0, "b", none, none, none⟩ []
            hpast (by simp) (by simpa using hnew)
          rw [hn] at hn'
          cases hn'
          rw [hnode] at hpin
          exact absurd hpin (by decide)

end GraphR
