import GraphR.Store.Single

/-! # What a transaction stages

    A staging call is one push, so an accepted transaction is a sequence of
    pushes and the record codec applies: the ops a commit publishes are the ops
    the calls stand for. The normal forms the writer computes are said once here,
    without its loops: the first edge per destination, the last attribute per
    key, both in order. -/

namespace GraphR

open Wal ByteLib

/-! ## Normal forms -/

/-- The first element of each key. -/
def firstBy {α κ : Type} [DecidableEq κ] (f : α → κ) : List α → List α
  | [] => []
  | a :: l => a :: (firstBy f l).filter fun b => f b ≠ f a

section firstBy
variable {α κ : Type} [DecidableEq κ] {f : α → κ}

theorem firstBy_sublist (l : List α) : (firstBy f l).Sublist l := by
  induction l with
  | nil => exact List.Sublist.refl _
  | cons a l ih =>
    rw [firstBy]
    exact (List.filter_sublist.trans ih).cons_cons a

theorem firstBy_pairwise (l : List α) : (firstBy f l).Pairwise fun a b => f a ≠ f b := by
  induction l with
  | nil => exact List.Pairwise.nil
  | cons a l ih =>
    rw [firstBy, List.pairwise_cons]
    refine ⟨?_, ih.filter _⟩
    intro b hb
    have hne : f b ≠ f a := by simpa using (List.mem_filter.mp hb).2
    exact hne.symm

/-- Dropping whole keys commutes with keeping the first of each. -/
theorem firstBy_filter (p : κ → Bool) (l : List α) :
    firstBy f (l.filter fun a => p (f a)) = (firstBy f l).filter fun a => p (f a) := by
  induction l with
  | nil => rfl
  | cons a l ih =>
    by_cases ha : p (f a) = true
    · rw [List.filter_cons, if_pos ha, firstBy, firstBy, ih, List.filter_cons, if_pos ha]
      simp only [List.filter_filter]
      congr 2
      funext b
      rw [Bool.and_comm]
    · rw [List.filter_cons, if_neg ha, firstBy, List.filter_cons, if_neg ha, ih, List.filter_filter]
      apply List.filter_congr
      intro b _
      by_cases hb : f b = f a
      · simp [hb, ha]
      · simp [hb]

end firstBy

/-- Specs of other documents, the first per destination, at most 4096. -/
def keptSpecs (key : UrlKey) (edges : List Writer.EdgeSpec) : List Writer.EdgeSpec :=
  (firstBy Writer.EdgeSpec.dst (edges.filter fun e => e.dst ≠ key)).take maxEdges

/-- The last attribute of each key, in key order. -/
def attrSet (attrs : List (UInt8 × String)) : List (UInt8 × String) :=
  (firstBy Prod.fst attrs.reverse).insertionSort fun a b => a.1 ≤ b.1

namespace Writer

/-- The loop over the specs, from any point of it. -/
theorem ownEdges_eq (key : UrlKey) (es : List EdgeSpec) (seen : List UrlKey) (owned : List Edge)
    (hlt : owned.length < maxEdges) :
    ownEdges key es seen owned = owned ++ ((firstBy EdgeSpec.dst
      (es.filter fun e => !(e.dst = key || seen.contains e.dst))).take
        (maxEdges - owned.length)).map EdgeSpec.toEdge := by
  induction es generalizing seen owned with
  | nil => simp [ownEdges, firstBy]
  | cons e rest ih =>
    unfold ownEdges
    by_cases hskip : e.dst = key ∨ e.dst ∈ seen
    · rw [if_pos hskip, ih seen owned hlt, List.filter_cons_of_neg (by simpa [or_iff_not_imp_left] using hskip)]
    · rw [if_neg hskip, List.filter_cons_of_pos (by simpa using hskip), firstBy]
      obtain ⟨room, hroom⟩ : ∃ room, maxEdges - owned.length = room + 1 :=
        ⟨maxEdges - owned.length - 1, by omega⟩
      rw [hroom, List.take_succ_cons, List.map_cons]
      by_cases hfull : (owned ++ [e.toEdge]).length = maxEdges
      · have hzero : room = 0 := by simp at hfull; omega
        rw [if_pos hfull, hzero]
        simp
      · have hlen : (owned ++ [e.toEdge]).length = owned.length + 1 := by simp
        rw [if_neg hfull, ih (e.dst :: seen) _ (by omega), hlen,
          show maxEdges - (owned.length + 1) = room by omega]
        -- the destination just taken is skipped from here on
        have hdrop := firstBy_filter (f := EdgeSpec.dst) (fun d => d ≠ e.dst)
          (rest.filter fun e' => !(e'.dst = key || seen.contains e'.dst))
        rw [← hdrop, List.filter_filter, List.append_assoc, List.singleton_append]
        congr 6
        funext e'
        by_cases he' : e'.dst = e.dst <;> simp [he']

theorem edgeSet_eq (key : UrlKey) (es : List EdgeSpec) :
    edgeSet key es
      = ((keptSpecs key es).map EdgeSpec.toEdge).insertionSort fun a b => a.dst ≤ b.dst := by
  unfold edgeSet keptSpecs
  rw [ownEdges_eq key es [] [] (by decide)]
  simp

/-- The loop over a reversed list: each element is checked, and one whose key is
    there already is skipped. -/
def ownLast {α κ : Type} [DecidableEq κ] (f : α → κ) (check : α → Except Error Unit) :
    List α → List α → Except Error (List α)
  | [], owned => .ok owned
  | a :: rest, owned => do
    check a
    if owned.any fun o => f o = f a then ownLast f check rest owned
    else ownLast f check rest (owned ++ [a])

/-- It accepts what passes the checks, and keeps the first of each key, from any
    point of it. -/
theorem ownLast_ok {α κ : Type} [DecidableEq κ] {f : α → κ} {check : α → Except Error Unit}
    {as owned r : List α} :
    ownLast f check as owned = .ok r ↔ (∀ a ∈ as, check a = .ok ()) ∧
      r = owned ++ firstBy f (as.filter fun a => !(owned.any fun o => f o = f a)) := by
  induction as generalizing owned with
  | nil => simp [ownLast, firstBy, eq_comm]
  | cons a rest ih =>
    unfold ownLast
    cases hcheck : check a with
    | error e => simp [hcheck, bind, Except.bind]
    | ok u =>
      simp only [bind, Except.bind, List.mem_cons, forall_eq_or_imp, hcheck, true_and]
      by_cases hdup : (owned.any fun o => decide (f o = f a)) = true
      · rw [if_pos hdup, ih, List.filter_cons_of_neg (by simpa using hdup)]
      · rw [if_neg hdup, ih, List.filter_cons,
          if_pos (by rw [Bool.not_eq_true', Bool.eq_false_iff]; exact hdup), firstBy]
        have hdrop := firstBy_filter (f := f) (fun k => k ≠ f a)
          (rest.filter fun b => !(owned.any fun o => f o = f b))
        have hskip : (rest.filter fun b => !((owned ++ [a]).any fun o => f o = f b))
            = (rest.filter fun b => !(owned.any fun o => f o = f b)).filter
                fun b => decide (f b ≠ f a) := by
          rw [List.filter_filter]
          apply List.filter_congr
          intro b _
          by_cases hb : f b = f a
          · simp [hb]
          · simp [hb, Ne.symm hb]
        rw [hskip, hdrop, List.append_assoc, List.singleton_append]

/-- The check of an attribute value. -/
def checkAttr (a : UInt8 × String) : Except Error Unit :=
  if maxAttrLen < strLen a.2 then .error (.format "attribute too long") else .ok ()

theorem ownAttrs_eq_ownLast (as owned : List (UInt8 × String)) :
    ownAttrs as owned = ownLast Prod.fst checkAttr as owned := by
  induction as generalizing owned with
  | nil => rfl
  | cons a rest ih =>
    rw [ownAttrs, ownLast]
    by_cases hlen : maxAttrLen < strLen a.2
    · simp [checkAttr, hlen, bind, Except.bind]
    · have hcheck : checkAttr a = .ok () := if_neg hlen
      rw [if_neg hlen, hcheck, ih, ih]
      rfl

/-- The loop over the attributes. -/
theorem ownAttrs_eq {as r : List (UInt8 × String)} (h : ownAttrs as [] = .ok r) :
    r = firstBy Prod.fst as := by
  rw [ownAttrs_eq_ownLast, ownLast_ok] at h
  simpa using h.2

end Writer

/-! ## Ascending runs -/

/-- Destinations strictly ascending. -/
def Ascending (es : List Edge) : Prop := es.Pairwise fun a b => a.dst < b.dst

theorem notAscending_eq_false {ks : List UInt64} (h : ks.Pairwise (· < ·)) :
    RecordBuf.notAscending ks = false := by
  induction ks with
  | nil => rfl
  | cons a ks ih =>
    cases ks with
    | nil => rfl
    | cons c ks =>
      obtain ⟨hac, hrest⟩ := List.pairwise_cons.mp h
      have hlt : a < c := hac c (by simp)
      rw [RecordBuf.notAscending, ih hrest]
      simpa using hlt

/-- The staged edges are strictly ascending and within the cap. -/
theorem edgeSet_ascending (key : UrlKey) (es : List Writer.EdgeSpec) :
    Ascending (Writer.edgeSet key es) ∧ (Writer.edgeSet key es).length ≤ maxEdges := by
  rw [Writer.edgeSet_eq]
  have hne : ((keptSpecs key es).map Writer.EdgeSpec.toEdge).Pairwise fun a b => a.dst ≠ b.dst :=
    List.pairwise_map.mpr ((firstBy_pairwise _).sublist (List.take_sublist _ _))
  refine ⟨?_, ?_⟩
  · have hsorted := List.pairwise_insertionSort (fun a b : Edge => a.dst ≤ b.dst)
      ((keptSpecs key es).map Writer.EdgeSpec.toEdge)
    have hne' := (List.perm_insertionSort (fun a b : Edge => a.dst ≤ b.dst) _).symm.pairwise hne
      (fun h => Ne.symm h)
    exact (hsorted.and hne').imp fun h => lt_of_le_of_ne h.1 h.2
  · rw [List.length_insertionSort, List.length_map]
    exact (List.length_take_le _ _)

/-! ## Calls and ops -/

theorem pushAll_append_one {ps : List Push} {p : Push} {b b' : RecordBuf}
    (hps : pushAll ps RecordBuf.new = .ok b) (hp : p.apply b = .ok b') :
    pushAll (ps ++ [p]) RecordBuf.new = .ok b' := by
  unfold pushAll at hps ⊢
  rw [List.foldlM_append, hps]
  simp [bind, Except.bind, pure, Except.pure, hp]

/-- The op a call stands for. -/
def Write.op : Write → Op
  | .upsert doc => .upsert (doc.toUpsert (Writer.docFlags doc))
  | .remove key => .remove key
  | .setSegments key segs => .segs key (segs.map SegmentRecord.toView)
  | .setEdges key edges => .edges key (Writer.edgeSet key (edges.map fun (d, t, w) => ⟨d, t, w, 0⟩))
  | .setEdgesWithFlags key edges =>
    .edges key (Writer.edgeSet key (edges.map fun (d, t, w, f) => ⟨d, t, w, f &&& eflags.exact⟩))
  | .setAttrs key attrs => .attrs key (attrSet attrs)

/-- Staging edges always succeeds. -/
theorem stageEdges_push (b : RecordBuf) (key : UrlKey) (es : List Writer.EdgeSpec) :
    (Push.edges key (Writer.edgeSet key es)).apply b = .ok (Writer.stageEdges b key es) := by
  obtain ⟨hasc, hlen⟩ := edgeSet_ascending key es
  have hno : RecordBuf.notAscending ((Writer.edgeSet key es).map Edge.dst) = false :=
    notAscending_eq_false (List.pairwise_map.mpr hasc)
  have hpush : b.pushEdges key (Writer.edgeSet key es)
      = .ok (b.stage opEdges 0 key (edgesBody (Writer.edgeSet key es))) := by
    unfold RecordBuf.pushEdges
    rw [if_neg (by omega), hno]
    rfl
  unfold Writer.stageEdges
  simp only [Push.apply, hpush]

/-- An accepted call is one push of its op. -/
theorem Write.stage_push {w : Write} {b b' : RecordBuf} (h : w.stage b = .ok b') :
    ∃ p : Push, p.apply b = .ok b' ∧ p.op = w.op := by
  cases w with
  | upsert doc =>
    refine ⟨.upsert doc (Writer.docFlags doc), ?_, rfl⟩
    simp only [Write.stage, Writer.upsertNode, bind, Except.bind] at h
    cases hurl : checkLabel "url" doc.url with
    | error e => simp [hurl] at h
    | ok _ =>
      simp only [hurl] at h
      split_ifs at h with hempty
      cases htitle : checkOptLabel "title" doc.title with
      | error e => simp [htitle] at h
      | ok _ =>
        cases hsnip : checkOptLabel "snippet" doc.snippet with
        | error e => simp [htitle, hsnip] at h
        | ok _ =>
          cases hetag : checkOptLabel "etag" doc.etag with
          | error e => simp [htitle, hsnip, hetag] at h
          | ok _ => simpa [htitle, hsnip, hetag, Push.apply] using h
  | remove key => exact ⟨.remove key, h, rfl⟩
  | setSegments key segs => exact ⟨.segments key segs, h, rfl⟩
  | setEdges key edges =>
    cases h
    exact ⟨_, stageEdges_push _ _ _, rfl⟩
  | setEdgesWithFlags key edges =>
    cases h
    exact ⟨_, stageEdges_push _ _ _, rfl⟩
  | setAttrs key attrs =>
    simp only [Write.stage, Writer.setAttrs] at h
    split_ifs at h with hcount
    cases hown : Writer.ownAttrs attrs.reverse [] with
    | error e => simp [hown, bind, Except.bind] at h
    | ok owned =>
      simp only [hown, bind, Except.bind] at h
      split_ifs at h with htotal
      refine ⟨.attrParts key _, h, ?_⟩
      have howned := Writer.ownAttrs_eq hown
      rw [Push.op, Write.op, List.map_map, attrSet, ← howned]
      congr 1
      exact (List.map_congr_left fun a _ => by simp [attrValue]).trans (List.map_id _)

theorem stage_pushes {ws : List Write} {b b' : RecordBuf}
    (h : ws.foldlM (fun b w => w.stage b) b = .ok b') :
    ∃ ps, pushAll ps b = .ok b' ∧ ps.map Push.op = ws.map Write.op := by
  induction ws generalizing b with
  | nil => exact ⟨[], h, rfl⟩
  | cons w ws ih =>
    rw [List.foldlM_cons] at h
    cases hw : w.stage b with
    | error e => simp [hw, bind, Except.bind] at h
    | ok b₁ =>
      simp only [hw, bind, Except.bind] at h
      obtain ⟨p, hp, hop⟩ := Write.stage_push hw
      obtain ⟨ps, hps, hops⟩ := ih h
      refine ⟨p :: ps, ?_, by simp [hop, hops]⟩
      rw [pushAll, List.foldlM_cons, hp]
      exact hps

/-- The ops a transaction may stage over a snapshot. -/
def Txn.Stages (s : Snapshot) : Txn → List Op → Prop
  | .touch key t, ops => ∃ node interval, s.node key = some (some node) ∧
      ops = [.touch key (Writer.touchRecord node none t interval)]
  | .pin key pinned, ops => ops = [.pin key pinned]
  | .writes ws, ops => ops = ws.map Write.op

theorem Txn.stage_pushes {t : Txn} {s : Snapshot} {b : RecordBuf} (h : t.stage s = some b) :
    ∃ ps, pushAll ps RecordBuf.new = .ok b ∧ t.Stages s (ps.map Push.op) := by
  have hnew : RecordBuf.new.opViews.mapM OpView.read = some [] := rfl
  cases t with
  | touch key t =>
    unfold Txn.stage Writer.touch at h
    cases hetag : checkOptLabel "etag" t.etag with
    | error e => simp [hetag] at h
    | ok _ =>
      simp only [hetag, hnew, Option.bind_eq_bind, Option.bind_some] at h
      cases hnode : s.node key with
      | none => simp [hnode] at h
      | some n =>
        cases n with
        | none => simp [hnode] at h
        | some node =>
          simp only [hnode, Option.bind_some] at h
          cases hivl : s.ttl.nextInterval (max node.intervalS 1) t.outcome with
          | none => simp [hivl] at h
          | some interval =>
            simp only [hivl, Option.bind_some] at h
            cases hpush : RecordBuf.new.pushTouch key
                (Writer.touchRecord node (Writer.stagedCore key []) t interval) with
            | error e => simp [hpush, Except.map] at h
            | ok b₁ =>
              simp only [hpush, Except.map, Option.some.injEq] at h
              subst h
              refine ⟨[.touch key (Writer.touchRecord node none t interval)], ?_, node, interval,
                hnode, rfl⟩
              have hpush' : RecordBuf.new.pushTouch key
                  (Writer.touchRecord node none t interval) = .ok b₁ := hpush
              simp [pushAll, Push.apply, bind, Except.bind, pure, Except.pure, hpush']
  | pin key pinned =>
    have hstaged : (Writer.stagedCore key []).isSome = false := rfl
    unfold Txn.stage Writer.setPinned at h
    simp only [hnew, hstaged, Option.bind_eq_bind, Option.bind_some, Bool.false_eq_true,
      if_false] at h
    refine ⟨[.pin key pinned], ?_, rfl⟩
    cases hnode : s.node key with
    | none => simp [hnode] at h
    | some n =>
      cases n with
      | none => simp [hnode] at h
      | some node =>
        simp only [hnode, Option.bind_some, Option.some.injEq] at h
        subst h
        rfl
  | writes ws =>
    unfold Txn.stage at h
    cases hws : ws.foldlM (fun b w => w.stage b) RecordBuf.new with
    | error e => simp [hws] at h
    | ok b₁ =>
      simp only [hws, Option.some.injEq] at h
      subst h
      obtain ⟨ps, hps, hops⟩ := GraphR.stage_pushes hws
      exact ⟨ps, hps, hops⟩

/-! ## What a commit publishes -/

/-- A commit of accepted pushes publishes their ops and leaves the base. -/
theorem Handle.commit_ops {h h' : Handle} {xxh3 : Bytes → UInt64} {ps : List Push} {b : RecordBuf}
    (hp : pushAll ps RecordBuf.new = .ok b) (hc : h.commit xxh3 b = some h') :
    h'.served = h.served ∧
      h'.overlay.map Prod.snd = h.overlay.map Prod.snd ++ ps.map Push.op := by
  have hholds := Holds.new.pushAll hp
  have hread := (record_reads hp)
  unfold Handle.commit at hc
  split_ifs at hc with hempty hnext
  · cases hc
    have hnil : ps = [] := by
      have hlen := hholds.ops
      simp only [RecordBuf.isEmpty, beq_iff_eq] at hempty
      rw [hempty] at hlen
      simpa using hlen.symm
    subst hnil
    exact ⟨rfl, by simp⟩
  · cases hseal : b.seal xxh3 (UInt64.ofNat h.nextSeq) with
    | error e => simp [hseal] at hc
    | ok _ =>
      simp only [hseal, hread, Option.bind_eq_bind, Option.bind_some, Option.some.injEq] at hc
      subst hc
      refine ⟨rfl, ?_⟩
      simp [Handle.numbered, List.map_map, Function.comp_def, List.zipIdx_map_fst]

end GraphR
