import GraphR.Store.Staging

/-! # Tombstones and compaction points

    A touch that reports a document gone tombstones it. The overlay folds touches
    last-wins, so a later touch clears the mark; a base record keeps it, so after
    a compaction a later touch does not. A document therefore may or may not be a
    tombstone depending on where compactions ran.

    `goneAfter` is the last-wins reading of a history, which does not know about
    compactions. Every placement of compactions agrees with every other exactly
    when no mark that a compaction could have kept was cleared later
    (`Settled`). -/

namespace GraphR

open Wal ByteLib

/-! ## Runs with compactions placed in them -/

/-- A staging call of a run. -/
inductive Call where
  | upsert (doc : DocRecord)
  | touch (key : UrlKey) (t : Writer.Touch)
  | pin (key : UrlKey) (pinned : Bool)
  | remove (key : UrlKey)

namespace Call

def key : Call → UrlKey
  | .upsert doc => doc.urlKey
  | .touch key _ => key
  | .pin key _ => key
  | .remove key => key

/-- Stage a call; `none` when it is refused or finds no node. -/
def stage (s : Snapshot) (b : RecordBuf) : Call → Option RecordBuf
  | .upsert doc =>
    match Writer.upsertNode b doc with
    | .ok b' => some b'
    | .error _ => none
  | .touch key t =>
    match Writer.touch b s key t with
    | some (.ok (true, b')) => some b'
    | _ => none
  | .pin key pinned =>
    match Writer.setPinned b s key pinned with
    | some (true, b') => some b'
    | _ => none
  | .remove key => some (Writer.remove b key)

/-- The call creates or deletes the document. -/
def resets : Call → Bool
  | .upsert _ => true
  | .remove _ => true
  | _ => false

end Call

/-- A step of a run. -/
inductive Step where
  | txn (calls : List Call)
  | compact

/-- The transactions of a run, without its compactions. -/
def txnsOf : List Step → List (List Call)
  | [] => []
  | .txn calls :: steps => calls :: txnsOf steps
  | .compact :: steps => txnsOf steps

namespace Handle

variable (xxh3 : Bytes → UInt64) (rank : SortedMap UrlKey NodeModel → List UInt16)
  (ttl : TtlConfig)

def execStep (h : Handle) : Step → Option Handle
  | .txn calls => do
    let staged ← calls.foldlM (fun b c => c.stage (h.snapshot ttl) b) RecordBuf.new
    h.commit xxh3 staged
  | .compact => h.compact xxh3 rank ttl

def runSteps (h : Handle) (steps : List Step) : Option Handle :=
  steps.foldlM (fun h s => h.execStep xxh3 rank ttl s) h

end Handle

/-! ## The last-wins reading -/

/-- Whether `k`'s last touch since its upsert reported it gone; `none` when it
    is no document. -/
def callGone (k : UrlKey) (g : Option Bool) (c : Call) : Option Bool :=
  if c.key = k then
    match c with
    | .upsert _ => some false
    | .touch _ t => g.map fun _ => t.outcome = .gone
    | .pin _ _ => g
    | .remove _ => none
  else g

def goneAfter (k : UrlKey) (calls : List Call) : Option Bool := calls.foldl (callGone k) none

theorem goneAfter_append (k : UrlKey) (calls : List Call) (c : Call) :
    goneAfter k (calls ++ [c]) = callGone k (goneAfter k calls) c := by
  simp [goneAfter]

/-- No call of the list creates or deletes `k`. -/
def Quiet (k : UrlKey) (calls : List Call) : Prop := ∀ c ∈ calls, c.key = k → c.resets = false

/-- Whenever a transaction ends with a document's last touch reporting it gone,
    and the document is neither upserted nor removed afterwards, its last touch
    of all reports it gone too. -/
def Settled (txns : List (List Call)) : Prop :=
  ∀ k pre post, txns = pre ++ post → Quiet k post.flatten →
    goneAfter k pre.flatten = some true → goneAfter k txns.flatten = some true

/-! ## Staged ops -/

/-- The op a call stages, up to the counters a touch carries. -/
def Call.Gives : Call → Op → Prop
  | .upsert doc, op => doc.url ≠ "" ∧ op = .upsert (doc.toUpsert (Writer.docFlags doc))
  | .touch key t, op => ∃ r, op = .touch key r ∧ r.tombstone = (t.outcome = .gone : Bool)
  | .pin key pinned, op => op = .pin key pinned
  | .remove key, op => op = .remove key

/-- A staged call is one push of the op it gives. -/
theorem Call.stage_gives {c : Call} {s : Snapshot} {ps : List Push} {b b' : RecordBuf}
    (hps : pushAll ps RecordBuf.new = .ok b) (h : c.stage s b = some b') :
    ∃ p : Push, p.apply b = .ok b' ∧ c.Gives p.op := by
  have hread := record_reads hps
  cases c with
  | upsert doc =>
    unfold Call.stage at h
    cases hup : Writer.upsertNode b doc with
    | error e => simp [hup] at h
    | ok b₁ =>
      simp only [hup, Option.some.injEq] at h
      subst h
      obtain ⟨p, hp, hop⟩ := Write.stage_push (w := .upsert doc) hup
      refine ⟨p, hp, ?_, hop⟩
      -- an empty URL is refused
      rintro hempty
      have hlen : strLen doc.url = 0 := by rw [hempty]; rfl
      unfold Writer.upsertNode at hup
      cases hlabel : checkLabel "url" doc.url <;>
        simp [hlabel, hlen, bind, Except.bind] at hup
  | touch key t =>
    unfold Call.stage Writer.touch at h
    cases hetag : checkOptLabel "etag" t.etag with
    | error e => simp [hetag] at h
    | ok _ =>
      simp only [hetag, hread, Option.bind_eq_bind, Option.bind_some] at h
      cases hnode : s.node key with
      | none => simp [hnode] at h
      | some n =>
        cases n with
        | none => simp [hnode] at h
        | some node =>
          simp only [hnode, Option.bind_some] at h
          cases hivl : s.ttl.nextInterval (max node.intervalS 1) t.outcome with
          | none => simp [hivl] at h
          | some interval =>
            simp only [hivl, Option.bind_some] at h
            cases hpush : b.pushTouch key
                (Writer.touchRecord node (Writer.stagedCore key (ps.map Push.op)) t interval) with
            | error e => simp [hpush, Except.map] at h
            | ok b₁ =>
              simp only [hpush, Except.map, Option.some.injEq] at h
              subst h
              exact ⟨.touch key _, hpush, _, rfl, rfl⟩
  | pin key pinned =>
    refine ⟨.pin key pinned, ?_, rfl⟩
    unfold Call.stage Writer.setPinned at h
    simp only [hread, Option.bind_eq_bind, Option.bind_some] at h
    by_cases hstaged : (Writer.stagedCore key (ps.map Push.op)).isSome = true
    · simp only [hstaged, if_true, Option.some.injEq] at h
      subst h
      rfl
    · simp only [hstaged, Bool.false_eq_true, if_false] at h
      cases hnode : s.node key with
      | none => simp [hnode] at h
      | some n =>
        cases n with
        | none => simp [hnode] at h
        | some node =>
          simp only [hnode, Option.bind_some, Option.some.injEq] at h
          subst h
          rfl
  | remove key =>
    simp only [Call.stage, Option.some.injEq] at h
    subst h
    exact ⟨.remove key, rfl, rfl⟩

theorem calls_give {s : Snapshot} {calls : List Call} {ps : List Push} {b b' : RecordBuf}
    (hps : pushAll ps RecordBuf.new = .ok b)
    (h : calls.foldlM (fun b c => c.stage s b) b = some b') :
    ∃ qs, pushAll (ps ++ qs) RecordBuf.new = .ok b' ∧
      List.Forall₂ Call.Gives calls (qs.map Push.op) := by
  induction calls generalizing ps b with
  | nil =>
    cases h
    exact ⟨[], by simpa using hps, .nil⟩
  | cons c calls ih =>
    rw [List.foldlM_cons] at h
    cases hc : c.stage s b with
    | none => simp [hc] at h
    | some b₁ =>
      simp only [hc, Option.bind_eq_bind, Option.bind_some] at h
      obtain ⟨p, hp, hgives⟩ := Call.stage_gives hps hc
      obtain ⟨qs, hqs, hrest⟩ := ih (pushAll_append_one hps hp) h
      exact ⟨p :: qs, by simpa using hqs, .cons hgives hrest⟩

/-! ## One key -/

/-- The key has a node. -/
def isPresent (m : Option NodeModel) (q : OverlayNode) : Bool :=
  !q.removed && (q.core.isSome || m.isSome)

/-- The base record carries the mark. -/
def baseTomb (m : Option NodeModel) : Bool := m.any fun n => hasFlag n.flags nflags.tombstone

/-- The mark of a node: over a core the last touch's, over a base record also
    the record's own. -/
def tombOf (m : Option NodeModel) (q : OverlayNode) : Bool :=
  (q.core.isNone && baseTomb m) || q.touch.any TouchRecord.tombstone

/-- What a run of upserts, touches, pins and removes keeps of a key. -/
structure Clean (m : Option NodeModel) (q : OverlayNode) : Prop where
  base : ∀ n, m = some n → n.url ≠ "" ∧ hasFlag n.flags nflags.stub = false ∧ n.edges = []
  core : ∀ c, q.core = some c → c.url ≠ "" ∧ hasFlag c.flags nflags.stub = false ∧
    hasFlag c.flags nflags.tombstone = false
  edges : q.edges = none

/-- How the marks of a key relate to its history: `done` are the transactions
    before the running one, `part` the calls of that one so far. -/
structure Traced (k : UrlKey) (done : List (List Call)) (part : List Call)
    (m : Option NodeModel) (q : OverlayNode) : Prop where
  present : isPresent m q = (goneAfter k (done.flatten ++ part)).isSome
  touched : isPresent m q = true → ∀ t, q.touch = some t →
    goneAfter k (done.flatten ++ part) = some t.tombstone
  fresh : isPresent m q = true → q.core.isSome → q.touch = none →
    goneAfter k (done.flatten ++ part) = some false
  kept : isPresent m q = true → q.core = none → q.touch = none →
    goneAfter k (done.flatten ++ part) = some true → baseTomb m = true
  /-- A base mark was the last-wins reading at some boundary since the document
      was created. -/
  source : isPresent m q = true → q.core = none → baseTomb m = true →
    ∃ pre post, done = pre ++ post ∧ Quiet k (post.flatten ++ part) ∧
      goneAfter k pre.flatten = some true

section key
variable {k : UrlKey} {done : List (List Call)} {part : List Call} {m : Option NodeModel}
  {q : OverlayNode}

theorem Quiet.append {calls : List Call} {c : Call} (h : Quiet k calls)
    (hc : c.key = k → c.resets = false) : Quiet k (calls ++ [c]) := by
  intro c' hc' hk
  rcases List.mem_append.mp hc' with hc' | hc'
  · exact h c' hc' hk
  · rw [List.mem_singleton.mp hc'] at hk ⊢
    exact hc hk

/-- A call on another key. -/
theorem Traced.other {c : Call} (h : Traced k done part m q) (hc : c.key ≠ k) :
    Traced k done (part ++ [c]) m q := by
  have hgone : goneAfter k (done.flatten ++ (part ++ [c])) = goneAfter k (done.flatten ++ part) := by
    rw [← List.append_assoc, goneAfter_append]
    exact if_neg hc
  refine ⟨?_, ?_, ?_, ?_, ?_⟩
  · rw [hgone]; exact h.present
  · rw [hgone]; exact h.touched
  · rw [hgone]; exact h.fresh
  · rw [hgone]; exact h.kept
  · intro hp hcore hb
    obtain ⟨pre, post, hdone, hquiet, hpre⟩ := h.source hp hcore hb
    refine ⟨pre, post, hdone, ?_, hpre⟩
    rw [← List.append_assoc]
    exact hquiet.append fun hk => absurd hk hc

/-- A call on the key, with the op it gives. -/
theorem Traced.step {c : Call} {op : Op} (h : Traced k done part m q) (hc : c.key = k)
    (hop : c.Gives op) : Traced k done (part ++ [c]) m (q.step op) := by
  have hgone : goneAfter k (done.flatten ++ (part ++ [c]))
      = callGone k (goneAfter k (done.flatten ++ part)) c := by
    rw [← List.append_assoc, goneAfter_append]
  have hsource : c.resets = false → isPresent m q = true → q.core = none → baseTomb m = true →
      ∃ pre post, done = pre ++ post ∧ Quiet k (post.flatten ++ (part ++ [c])) ∧
        goneAfter k pre.flatten = some true := by
    intro hres hp hcore hb
    obtain ⟨pre, post, hdone, hquiet, hpre⟩ := h.source hp hcore hb
    refine ⟨pre, post, hdone, ?_, hpre⟩
    rw [← List.append_assoc]
    exact hquiet.append fun _ => hres
  cases c with
  | upsert doc =>
    obtain ⟨-, rfl⟩ := hop
    have hsome : callGone k (goneAfter k (done.flatten ++ part)) (.upsert doc) = some false := by
      rw [callGone, if_pos hc]
    rw [hsome] at hgone
    refine ⟨?_, ?_, ?_, ?_, ?_⟩ <;> simp [hgone, isPresent, OverlayNode.step]
  | remove key =>
    cases hop
    have hnone : callGone k (goneAfter k (done.flatten ++ part)) (.remove key) = none := by
      rw [callGone, if_pos hc]
    rw [hnone] at hgone
    refine ⟨?_, ?_, ?_, ?_, ?_⟩ <;> simp [hgone, isPresent, OverlayNode.step]
  | pin key pinned =>
    cases hop
    have hsame : callGone k (goneAfter k (done.flatten ++ part)) (.pin key pinned)
        = goneAfter k (done.flatten ++ part) := by
      rw [callGone, if_pos hc]
    rw [hsame] at hgone
    refine ⟨?_, ?_, ?_, ?_, hsource rfl⟩
    · rw [hgone]; exact h.present
    · rw [hgone]; exact h.touched
    · rw [hgone]; exact h.fresh
    · rw [hgone]; exact h.kept
  | touch key t =>
    obtain ⟨r, rfl, hr⟩ := hop
    have hmap : callGone k (goneAfter k (done.flatten ++ part)) (.touch key t)
        = (goneAfter k (done.flatten ++ part)).map fun _ => r.tombstone := by
      rw [callGone, if_pos hc, hr]
    rw [hmap] at hgone
    refine ⟨?_, ?_, ?_, ?_, hsource rfl⟩
    · rw [hgone, Option.isSome_map]; exact h.present
    · intro hp t' ht'
      simp only [OverlayNode.step, Option.some.injEq] at ht'
      subst ht'
      have hsome : (goneAfter k (done.flatten ++ part)).isSome = true := h.present ▸ hp
      obtain ⟨g, hg⟩ := Option.isSome_iff_exists.mp hsome
      rw [hgone, hg]
      rfl
    · intro _ _ ht
      cases ht
    · intro _ _ ht
      cases ht

/-- The end of a transaction. -/
theorem Traced.boundary (h : Traced k done part m q) : Traced k (done ++ [part]) [] m q := by
  have hflat : (done ++ [part]).flatten ++ [] = done.flatten ++ part := by simp
  refine ⟨?_, ?_, ?_, ?_, ?_⟩
  · rw [hflat]; exact h.present
  · rw [hflat]; exact h.touched
  · rw [hflat]; exact h.fresh
  · rw [hflat]; exact h.kept
  · intro hp hcore hb
    obtain ⟨pre, post, rfl, hquiet, hpre⟩ := h.source hp hcore hb
    exact ⟨pre, post ++ [part], by simp, by simpa using hquiet, hpre⟩

/-- A mark of the last-wins reading is a mark of the node. -/
theorem Traced.tomb_of_gone (h : Traced k done part m q) (hp : isPresent m q = true)
    (hgone : goneAfter k (done.flatten ++ part) = some true) : tombOf m q = true := by
  unfold tombOf
  cases htouch : q.touch with
  | some t =>
    have hg := h.touched hp t htouch
    rw [hgone, Option.some.injEq] at hg
    simp [← hg]
  | none =>
    cases hcore : q.core with
    | none => simp [h.kept hp hcore htouch hgone]
    | some c =>
      have hg := h.fresh hp (by rw [hcore]; rfl) htouch
      rw [hgone] at hg
      cases hg

/-- A mark of the node was one of the last-wins reading at some boundary since
    the document was created. -/
theorem Traced.gone_of_tomb (h : Traced k done [] m q) (hp : isPresent m q = true)
    (htomb : tombOf m q = true) :
    ∃ pre post, done = pre ++ post ∧ Quiet k post.flatten ∧
      goneAfter k pre.flatten = some true := by
  unfold tombOf at htomb
  rw [Bool.or_eq_true, Bool.and_eq_true] at htomb
  rcases htomb with ⟨hcore, hb⟩ | htouch
  · obtain ⟨pre, post, hdone, hquiet, hpre⟩ :=
      h.source hp (Option.isNone_iff_eq_none.mp hcore) hb
    exact ⟨pre, post, hdone, by simpa using hquiet, hpre⟩
  · cases ht : q.touch with
    | none => simp [ht] at htouch
    | some t =>
      have hg := h.touched hp t ht
      rw [ht, Option.any_some] at htouch
      rw [htouch, List.append_nil] at hg
      exact ⟨done, [], by simp, by simp [Quiet], hg⟩

/-- Folding the key into a base record that carries its mark. -/
theorem Traced.compacted {m' : Option NodeModel} (h : Traced k done [] m q)
    (hsome : m'.isSome = isPresent m q)
    (htomb : baseTomb m' = (isPresent m q && tombOf m q)) : Traced k done [] m' {} := by
  have hpresent : isPresent m' {} = isPresent m q := by simpa [isPresent] using hsome
  refine ⟨hpresent.trans h.present, by simp, by simp, ?_, ?_⟩
  · intro hp _ _ hgone
    rw [hpresent] at hp
    rw [htomb, hp, h.tomb_of_gone hp hgone]
    rfl
  · intro hp _ hb
    rw [hpresent] at hp
    rw [htomb, hp, Bool.true_and] at hb
    obtain ⟨pre, post, hdone, hquiet, hpre⟩ := h.gone_of_tomb hp hb
    exact ⟨pre, post, hdone, by simpa using hquiet, hpre⟩

theorem Clean.step {c : Call} {op : Op} (h : Clean m q) (hop : c.Gives op) :
    Clean m (q.step op) := by
  refine ⟨h.base, ?_, ?_⟩
  · cases c with
    | upsert doc =>
      obtain ⟨hurl, rfl⟩ := hop
      intro u hu
      simp only [OverlayNode.step, Option.some.injEq] at hu
      subst hu
      refine ⟨hurl, ?_⟩
      simp only [DocRecord.toUpsert, Writer.docFlags]
      cases doc.pinned <;> decide
    | touch key t =>
      obtain ⟨r, rfl, -⟩ := hop
      exact h.core
    | pin key pinned =>
      cases hop
      exact h.core
    | remove key =>
      cases hop
      intro u hu
      cases hu
  · cases c with
    | upsert doc =>
      obtain ⟨-, rfl⟩ := hop
      exact h.edges
    | touch key t =>
      obtain ⟨r, rfl, -⟩ := hop
      exact h.edges
    | pin key pinned =>
      cases hop
      exact h.edges
    | remove key =>
      cases hop
      rfl

end key

/-! ## Nodes of a clean key -/

section node
variable {ttl : TtlConfig} {k : UrlKey} {id : Option Nat} {rank : UInt16} {m : Option NodeModel}
  {p : Option OverlayNode}

theorem isSome_mergedRef : (mergedRef ttl k id rank m p).isSome = isPresent m (p.getD {}) := by
  unfold mergedRef isPresent
  cases p with
  | none => simp
  | some q =>
    by_cases hrem : q.removed = true
    · simp [hrem]
    · cases hcore : q.core <;> simp [hrem, hcore]

/-- A node of a clean key: never a stub, always with a URL, and marked as
    `tombOf` says. -/
theorem Clean.node (h : Clean m (p.getD {})) {n : NodeRef}
    (hn : mergedRef ttl k id rank m p = some n) :
    n.isTombstone = tombOf m (p.getD {}) ∧ n.isStub = false ∧ n.url ≠ "" := by
  have htomb : ∀ f : UInt16, hasFlag (f ||| nflags.tombstone) nflags.tombstone = true ∧
      hasFlag (f ||| nflags.tombstone) nflags.stub = hasFlag f nflags.stub := fun f =>
    ⟨hasFlag_or_self f (by decide), hasFlag_or_other f (by decide)⟩
  cases hcore : (p.getD {}).core with
  | some c =>
    -- the core is staged: its flags stand, under the touch that may follow
    obtain ⟨q, rfl⟩ : ∃ q, p = some q := by
      cases p with
      | none => cases hcore
      | some q => exact ⟨q, rfl⟩
    simp only [Option.getD_some] at hcore h ⊢
    obtain ⟨hurl, hstub, hno⟩ := h.core c hcore
    obtain ⟨-, hstub', hno'⟩ := coreFlags_spec q c
      (if q.severed then none else m.map (·.toRec k))
    rw [hstub] at hstub'
    rw [hno] at hno'
    by_cases hrem : q.removed = true
    · simp [mergedRef, hrem] at hn
    · simp only [mergedRef, Option.any_some, hrem, Bool.false_eq_true, if_false, Option.bind_some,
        hcore, Option.map_some, Option.some.injEq] at hn
      subst hn
      cases htouch : q.touch with
      | none =>
        simp [NodeRef.make, NodeRef.isTombstone, NodeRef.isStub, coreFreshness, htouch, tombOf,
          hcore, hstub', hno', hurl]
      | some t =>
        by_cases ht : t.tombstone = true <;>
          simp [NodeRef.make, NodeRef.isTombstone, NodeRef.isStub, coreFreshness, htouch, tombOf,
            hcore, hstub', hno', hurl, Freshness.touched, ht, htomb]
  | none =>
    -- without a staged core the node is the one of the base, pinned and touched
    have hbase : ∃ b, m = some b ∧ n.url = b.url ∧ n.flags =
        (if (p.getD {}).touch.any TouchRecord.tombstone then
          (p.getD {}).pinned.elim b.flags (withPin b.flags) ||| nflags.tombstone
        else (p.getD {}).pinned.elim b.flags (withPin b.flags)) := by
      cases p with
      | none =>
        obtain ⟨b, rfl, rfl⟩ := Option.map_eq_some_iff.mp (show m.map _ = some n from hn)
        exact ⟨b, rfl, rfl, rfl⟩
      | some q =>
        simp only [Option.getD_some] at hcore ⊢
        by_cases hrem : q.removed = true
        · simp [mergedRef, hrem] at hn
        · simp only [mergedRef, Option.any_some, hrem, Bool.false_eq_true, if_false,
            Option.bind_some, hcore, Option.map_none] at hn
          obtain ⟨b, rfl, rfl⟩ := Option.map_eq_some_iff.mp hn
          refine ⟨b, rfl, rfl, ?_⟩
          cases htouch : q.touch with
          | none => simp [NodeRef.make, baseFreshness, htouch, NodeModel.toRec]
          | some t => simp [NodeRef.make, baseFreshness, htouch, NodeModel.toRec, Freshness.touched]
    obtain ⟨b, rfl, hurl, hflags⟩ := hbase
    obtain ⟨hburl, hbstub, -⟩ := h.base b rfl
    -- the pin changes its own bit only
    have hpin : ∀ bit, bit = nflags.stub ∨ bit = nflags.tombstone →
        hasFlag ((p.getD {}).pinned.elim b.flags (withPin b.flags)) bit = hasFlag b.flags bit := by
      intro bit hbit
      cases (p.getD {}).pinned with
      | none => rfl
      | some pinned => exact withPin_other _ _ hbit
    refine ⟨?_, ?_, by rw [hurl]; exact hburl⟩
    · unfold NodeRef.isTombstone tombOf
      rw [hflags, hcore]
      by_cases ht : (p.getD {}).touch.any TouchRecord.tombstone = true
      · rw [if_pos ht, (htomb _).1, ht, Bool.or_true]
      · rw [if_neg ht, hpin _ (.inr rfl)]
        simp [baseTomb, ht]
    · unfold NodeRef.isStub
      rw [hflags]
      by_cases ht : (p.getD {}).touch.any TouchRecord.tombstone = true
      · rw [if_pos ht, (htomb _).2, hpin _ (.inl rfl), hbstub]
      · rw [if_neg ht, hpin _ (.inl rfl), hbstub]

theorem Clean.mergedEdges (h : Clean m (p.getD {})) : mergedEdges m p = [] := by
  have hbase : m.elim [] NodeModel.edges = [] := by
    cases m with
    | none => rfl
    | some n => exact (h.base n rfl).2.2
  unfold GraphR.mergedEdges
  cases p with
  | none => exact hbase
  | some q =>
    have hedges : q.edges = none := h.edges
    simp [hedges, hbase]

end node

end GraphR
