import GraphR.Library.Run
import GraphR.Store.ReferenceRun

/-! # Histories of a store

    A store run through one handle, every staging call allowed in every batch: a
    call that is refused, or that finds no node, stages nothing and the batch goes
    on. Beside the handle stands every op committed so far, compacted or not, in
    order: what a document is at some point is a matter of that history, not of
    where its ops are kept.

    `set_named_attrs` stages what `set_attrs` stages for the records it encodes
    under the keys `0 ..`, and is not listed apart. -/

namespace GraphR

open Wal ByteLib

/-! ## Calls, batches, events -/

/-- A staging call. -/
inductive Edit where
  | write (w : Write)
  | touch (key : UrlKey) (t : Writer.Touch)
  | pin (key : UrlKey) (pinned : Bool)

namespace Edit

/-- The record after a call; `none` is a panic. -/
def stage (s : Snapshot) (b : RecordBuf) : Edit → Option RecordBuf
  | .write w => some ((w.stage b).toOption.getD b)
  | .touch key t => (Writer.touch b s key t).map fun r => (r.toOption.map Prod.snd).getD b
  | .pin key pinned => (Writer.setPinned b s key pinned).map Prod.snd

/-- What a call that reads no state stages: its op, unless it is refused. -/
def sets : Edit → List Op
  | .write w => if (w.stage RecordBuf.new).isOk then [w.op] else []
  | _ => []

/-- The ops a call may stage. A touch carries state it has read. -/
def Gives : Edit → List Op → Prop
  | .write w, ops => ops = (Edit.write w).sets
  | .touch key _, ops => ops = [] ∨ ∃ r, ops = [.touch key r]
  | .pin key pinned, ops => ops = [] ∨ ops = [.pin key pinned]

end Edit

/-- What happens to a store. -/
inductive Event where
  | batch (edits : List Edit)
  | compact
  | reopen

/-- A handle, and every op committed so far. -/
structure Chronicle where
  handle : Handle
  past : List Op

namespace Chronicle

/-- A fresh store. -/
def create : Chronicle := ⟨Handle.create, []⟩

section steps
variable (xxh3 : Bytes → UInt64) (rank : SortedMap UrlKey NodeModel → List UInt16)
  (ttl : TtlConfig)

/-- The record a batch stages. -/
def staged (c : Chronicle) (edits : List Edit) : Option RecordBuf :=
  edits.foldlM (fun b e => e.stage (c.handle.snapshot ttl) b) RecordBuf.new

/-- The ops of that record. -/
def stagedOps (c : Chronicle) (edits : List Edit) : Option (List Op) := do
  let staged ← c.staged ttl edits
  staged.opViews.mapM OpView.read

def exec (c : Chronicle) : Event → Option Chronicle
  | .batch edits => do
    let staged ← c.staged ttl edits
    let ops ← c.stagedOps ttl edits
    let handle ← c.handle.commit xxh3 staged
    some ⟨handle, c.past ++ ops⟩
  | .compact => do
    let handle ← c.handle.compact xxh3 rank ttl
    some { c with handle }
  | .reopen => some { c with handle := c.handle.reopen }

end steps

/-- The ops above the base. -/
def overlay (c : Chronicle) : List Op := c.handle.overlay.map Prod.snd

/-- The base node of a key. -/
def base (c : Chronicle) (k : UrlKey) : Option NodeModel := c.handle.served.nodes.get k

/-- The overlay node of a key. -/
def patch (c : Chronicle) (k : UrlKey) : Option OverlayNode := foldKey k none c.overlay

end Chronicle

/-- Whether `k` is an ingested document after an op. -/
def ingestOp (k : UrlKey) (g : Bool) : Op → Bool
  | .upsert u => if u.key = k then true else g
  | .remove key => if key = k then false else g
  | _ => g

/-- `k` is an ingested document: its last upsert or remove is an upsert. -/
def ingested (k : UrlKey) (ops : List Op) : Bool := ops.foldl (ingestOp k) false

theorem ingested_append_one (k : UrlKey) (ops : List Op) (op : Op) :
    ingested k (ops ++ [op]) = ingestOp k (ingested k ops) op := by
  unfold ingested
  rw [List.foldl_append]
  rfl

theorem ingestOp_other {k : UrlKey} {g : Bool} {op : Op} (h : k ≠ op.key) :
    ingestOp k g op = g := by
  cases op with
  | upsert u => exact if_neg h.symm
  | remove key => exact if_neg h.symm
  | _ => rfl

/-! ## What a batch stages -/

section staging

/-- A push accepts or refuses whatever stands in the record already. -/
theorem isOk_apply (p : Push) (b b' : RecordBuf) : (p.apply b).isOk = (p.apply b').isOk := by
  have hparts : ∀ key as, (b.pushAttrParts key as).isOk = (b'.pushAttrParts key as).isOk := by
    intro key as
    unfold RecordBuf.pushAttrParts
    split_ifs
    · rfl
    · cases RecordBuf.attrPartsTotal none as with
      | error e => rfl
      | ok total =>
        simp only
        split_ifs <;> rfl
  cases p with
  | upsert doc flags =>
    simp only [Push.apply, RecordBuf.pushUpsert]
    split_ifs <;> rfl
  | segments key segs =>
    simp only [Push.apply, RecordBuf.pushSegments]
    split_ifs <;> rfl
  | edges key es =>
    simp only [Push.apply, RecordBuf.pushEdges]
    split_ifs <;> rfl
  | touch key t =>
    simp only [Push.apply, RecordBuf.pushTouch]
    split_ifs <;> rfl
  | remove key => rfl
  | pin key pinned => rfl
  | attrs key as => exact hparts key _
  | attrParts key as => exact hparts key as

/-- So does a call that reads no state. -/
theorem Write.isOk_stage (w : Write) (b b' : RecordBuf) :
    (w.stage b).isOk = (w.stage b').isOk := by
  cases w with
  | upsert doc =>
    have hpush := isOk_apply (.upsert doc (Writer.docFlags doc)) b b'
    simp only [Push.apply] at hpush
    simp only [Write.stage, Writer.upsertNode, bind, Except.bind]
    cases checkLabel "url" doc.url with
    | error e => rfl
    | ok _ =>
      simp only
      by_cases hempty : strLen doc.url = 0
      · simp [hempty]
      · simp only [hempty, if_false]
        cases checkOptLabel "title" doc.title with
        | error e => rfl
        | ok _ =>
          cases checkOptLabel "snippet" doc.snippet with
          | error e => rfl
          | ok _ =>
            cases checkOptLabel "etag" doc.etag with
            | error e => rfl
            | ok _ => exact hpush
  | remove key => rfl
  | setSegments key segs => exact isOk_apply (.segments key segs) b b'
  | setEdges key edges => rfl
  | setEdgesWithFlags key edges => rfl
  | setAttrs key attrs =>
    simp only [Write.stage, Writer.setAttrs, bind, Except.bind]
    split_ifs with hcount
    · rfl
    · cases Writer.ownAttrs attrs.reverse [] with
      | error e => rfl
      | ok owned =>
        simp only
        split_ifs with htotal
        · rfl
        · exact isOk_apply (.attrParts key _) b b'

/-- A call that is accepted is one push of an op it may stage. -/
theorem Edit.stage_gives {e : Edit} {s : Snapshot} {ps : List Push} {b b' : RecordBuf}
    (hps : pushAll ps RecordBuf.new = .ok b) (h : e.stage s b = some b') :
    ∃ qs, pushAll (ps ++ qs) RecordBuf.new = .ok b' ∧ e.Gives (qs.map Push.op) := by
  have hread := record_reads hps
  have hsame : pushAll (ps ++ []) RecordBuf.new = .ok b := by simpa using hps
  cases e with
  | write w =>
    simp only [Edit.stage, Option.some.injEq] at h
    have hok := w.isOk_stage b RecordBuf.new
    cases hw : w.stage b with
    | error e =>
      -- what is refused stages nothing, and gives nothing
      rw [hw] at h hok
      subst h
      refine ⟨[], hsame, ?_⟩
      rw [Edit.Gives, Edit.sets, ← hok]
      rfl
    | ok b₁ =>
      rw [hw] at h hok
      subst h
      obtain ⟨p, hp, hop⟩ := Write.stage_push hw
      refine ⟨[p], pushAll_append_one hps hp, ?_⟩
      rw [Edit.Gives, Edit.sets, ← hok, ← hop]
      rfl
  | touch key t =>
    unfold Edit.stage Writer.touch at h
    cases hetag : checkOptLabel "etag" t.etag with
    | error e =>
      simp only [hetag, Option.map_some, Option.some.injEq] at h
      subst h
      exact ⟨[], hsame, .inl rfl⟩
    | ok _ =>
      simp only [hetag, hread, Option.bind_eq_bind, Option.bind_some] at h
      cases hnode : s.node key with
      | none => simp [hnode] at h
      | some n =>
        cases n with
        | none =>
          -- no such node: `touch` answers false
          simp only [hnode, Option.bind_some, Option.map_some, Option.some.injEq] at h
          subst h
          exact ⟨[], hsame, .inl rfl⟩
        | some node =>
          simp only [hnode, Option.bind_some] at h
          cases hivl : s.ttl.nextInterval (max node.intervalS 1) t.outcome with
          | none => simp [hivl] at h
          | some interval =>
            simp only [hivl, Option.bind_some, Option.map_some, Option.some.injEq] at h
            cases hpush : b.pushTouch key
                (Writer.touchRecord node (Writer.stagedCore key (ps.map Push.op)) t interval) with
            | error e =>
              rw [hpush] at h
              subst h
              exact ⟨[], hsame, .inl rfl⟩
            | ok b₁ =>
              rw [hpush] at h
              subst h
              exact ⟨[.touch key _], pushAll_append_one hps hpush, .inr ⟨_, rfl⟩⟩
  | pin key pinned =>
    have hone : pushAll (ps ++ [.pin key pinned]) RecordBuf.new = .ok (b.pushPin key pinned) :=
      pushAll_append_one hps rfl
    unfold Edit.stage Writer.setPinned at h
    simp only [hread, Option.bind_eq_bind, Option.bind_some] at h
    -- a node staged in this batch can be pinned before it is committed
    by_cases hstaged : (Writer.stagedCore key (ps.map Push.op)).isSome = true
    · simp only [hstaged, if_true, Option.map_some, Option.some.injEq] at h
      subst h
      exact ⟨[.pin key pinned], hone, .inr rfl⟩
    · simp only [hstaged, Bool.false_eq_true, if_false] at h
      cases hnode : s.node key with
      | none => simp [hnode] at h
      | some n =>
        cases n with
        | none =>
          simp only [hnode, Option.bind_some, Option.map_some, Option.some.injEq] at h
          subst h
          exact ⟨[], hsame, .inl rfl⟩
        | some node =>
          simp only [hnode, Option.bind_some, Option.map_some, Option.some.injEq] at h
          subst h
          exact ⟨[.pin key pinned], hone, .inr rfl⟩

theorem edits_give {s : Snapshot} {edits : List Edit} {ps : List Push} {b b' : RecordBuf}
    (hps : pushAll ps RecordBuf.new = .ok b)
    (h : edits.foldlM (fun b e => e.stage s b) b = some b') :
    ∃ qs opss, pushAll (ps ++ qs) RecordBuf.new = .ok b' ∧
      List.Forall₂ Edit.Gives edits opss ∧ qs.map Push.op = opss.flatten := by
  induction edits generalizing ps b with
  | nil =>
    cases h
    exact ⟨[], [], by simpa using hps, .nil, rfl⟩
  | cons e edits ih =>
    rw [List.foldlM_cons] at h
    cases he : e.stage s b with
    | none => simp [he] at h
    | some b₁ =>
      simp only [he, Option.bind_eq_bind, Option.bind_some] at h
      obtain ⟨qs, hqs, hgives⟩ := Edit.stage_gives hps he
      obtain ⟨rs, opss, hrs, hrest, hops⟩ := ih hqs h
      refine ⟨qs ++ rs, qs.map Push.op :: opss, by simpa using hrs, .cons hgives hrest, ?_⟩
      rw [List.map_append, hops, List.flatten_cons]

end staging

/-! ## Steps -/

section steps
variable {xxh3 : Bytes → UInt64} {rank : SortedMap UrlKey NodeModel → List UInt16}
  {ttl : TtlConfig} {c c' : Chronicle}

/-- A batch publishes the ops its calls give, over the same base. -/
theorem Chronicle.exec_batch {edits : List Edit}
    (h : c.exec xxh3 rank ttl (.batch edits) = some c') :
    ∃ opss, List.Forall₂ Edit.Gives edits opss ∧ c.stagedOps ttl edits = some opss.flatten ∧
      c'.past = c.past ++ opss.flatten ∧ c'.overlay = c.overlay ++ opss.flatten ∧
      c'.handle.served = c.handle.served ∧ (c.handle.Synced → c'.handle.Synced) := by
  unfold exec at h
  cases hstaged : c.staged ttl edits with
  | none => simp [hstaged] at h
  | some b =>
    obtain ⟨qs, opss, hqs, hgives, hops⟩ := @edits_give _ _ [] _ _ rfl hstaged
    have hread := record_reads hqs
    rw [List.nil_append] at hqs hread
    have hstagedOps : c.stagedOps ttl edits = some opss.flatten := by
      rw [stagedOps, hstaged, ← hops]
      exact hread
    simp only [hstaged, hstagedOps, Option.bind_eq_bind, Option.bind_some] at h
    cases hcommit : c.handle.commit xxh3 b with
    | none => simp [hcommit] at h
    | some handle =>
      simp only [hcommit, Option.bind_some, Option.some.injEq] at h
      subst h
      obtain ⟨hserved, hoverlay⟩ := Handle.commit_ops hqs hcommit
      rw [hops] at hoverlay
      exact ⟨opss, hgives, hstagedOps, rfl, hoverlay, hserved, fun hs => hs.commit hcommit⟩

/-- A compaction folds every key: what the snapshot gives for it becomes its base
    node, a stub nothing refers to is dropped, a target without a node becomes a
    stub. -/
theorem Chronicle.exec_compact (hclosed : c.handle.served.Closed)
    (h : c.exec xxh3 rank ttl .compact = some c') :
    c'.past = c.past ∧ c'.overlay = [] ∧ c'.handle.Synced ∧ c'.handle.served.Closed ∧
      ∃ refs : List UrlKey, ∀ k, c'.base k =
        (c.handle.served.modelAt xxh3 c.overlay ttl k).elim
          (if k ∈ refs then some stubModel else none)
          fun m => if hasFlag m.flags nflags.stub = true ∧ k ∉ refs then none else some m := by
  obtain ⟨models, hmodels, hget⟩ :=
    @Base.collectModels_snapshot xxh3 c.handle.served c.overlay ttl hclosed
  unfold exec at h
  cases hc : c.handle.compact xxh3 rank ttl with
  | none => simp [hc] at h
  | some handle =>
    simp only [hc, Option.bind_eq_bind, Option.bind_some, Option.some.injEq] at h
    have hsynced := Handle.Synced.compact hc
    have hnodes : (c.handle.snapshot ttl).compactNodes xxh3 = some (manageStubs models) := by
      rw [Snapshot.compactNodes, Handle.snapshot, ← overlay, hmodels]
      rfl
    rw [Handle.compact, hnodes] at hc
    simp only [Option.bind_eq_bind, Option.bind_some, Option.some.injEq] at hc
    subst h hc
    refine ⟨rfl, rfl, hsynced, manageStubs_closed _ _, referenced models, fun k => ?_⟩
    rw [base]
    simp only
    rw [get_manageStubs, hget]
    cases c.handle.served.modelAt xxh3 c.overlay ttl k <;> rfl

end steps

end GraphR
