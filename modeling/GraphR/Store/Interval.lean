import GraphR.Store.NewDocument

/-! # The learned interval of a document absorbed again

    An upsert of unchanged content must not reset the interval the touches have
    learned. The overlay carries the counters of a touch across the upsert, but not
    its interval: that is looked up in the base record, and only there. So what the
    last touch learned survives the upsert once a compaction has folded it, and
    before that only by coincidence. -/

namespace GraphR

open Wal ByteLib

/-- The interval the base record offers for content `hash`. -/
def baseInterval (ttl : TtlConfig) (m : Option NodeModel) (severed : Bool) (hash : UInt64) :
    UInt32 :=
  (if severed then none else m).elim ttl.baseS fun r =>
    if r.contentHash = hash then max r.intervalS 1 else ttl.baseS

/-- The interval of content `hash` outlives an upsert of the same content: no
    touch is newer than the last upsert and the last compaction (and the base
    record it then comes from has an interval, 0 being read as 1), or the touch
    left what the base record offers. -/
def IntervalFolded (ttl : TtlConfig) (m : Option NodeModel) (q : OverlayNode) (hash : UInt64) :
    Prop :=
  match q.touch with
  | none => q.core.isSome ∨ ∀ r, m = some r → 1 ≤ r.intervalS
  | some t => t.intervalS = baseInterval ttl m q.severed hash

/-- A key without a core is severed only while it is removed. -/
theorem removed_of_severed (k : UrlKey) (ops : List Op) :
    ((foldKey k none ops).getD {}).core = none → ((foldKey k none ops).getD {}).severed = true →
      ((foldKey k none ops).getD {}).removed = true := by
  induction ops using List.reverseRecOn with
  | nil =>
    intro _ h
    cases h
  | append_singleton ops op ih =>
    rw [foldKey_append_one]
    by_cases hk : k = op.key
    · rw [if_pos hk, Option.getD_some]
      cases op with
      | upsert u =>
        intro h
        cases h
      | remove key => exact fun _ _ => rfl
      | segs key v => exact ih
      | edges key v => exact ih
      | attrs key v => exact ih
      | touch key t => exact ih
      | pin key b => exact ih
    · rw [if_neg hk]
      exact ih

theorem eq_max_one_iff (a : UInt32) : a = max a 1 ↔ 1 ≤ a := by
  have hmax : max a 1 = if a ≤ 1 then 1 else a := rfl
  rw [hmax]
  have hone : (1 : UInt32).toNat = 1 := rfl
  split_ifs with h
  · rw [UInt32.le_iff_toNat_le, hone] at h
    rw [← UInt32.toNat_inj, UInt32.le_iff_toNat_le, hone]
    omega
  · rw [UInt32.le_iff_toNat_le, hone] at h
    rw [UInt32.le_iff_toNat_le, hone]
    exact ⟨fun _ => by omega, fun _ => rfl⟩

/-- The look-up over a record is the one over its model. -/
theorem coreInterval_eq (ttl : TtlConfig) (k : UrlKey) (m : Option NodeModel) (severed : Bool)
    (u : Upsert) : coreInterval ttl u (if severed then none else m.map (·.toRec k))
      = baseInterval ttl m severed u.contentHash := by
  cases severed with
  | true => rfl
  | false => cases m <;> rfl

section reading
variable {ttl : TtlConfig} {k : UrlKey} {id : Option Nat} {rank : UInt16} {m : Option NodeModel}
  {p : Option OverlayNode} {n : NodeRef}

/-- After an upsert the interval is what the base record offers. -/
theorem mergedRef_upsert (q : OverlayNode) (u : Upsert) :
    ∃ n', mergedRef ttl k id rank m (some (q.step (.upsert u))) = some n' ∧
      n'.intervalS = baseInterval ttl m q.severed u.contentHash := by
  exact ⟨_, rfl, coreInterval_eq ttl k m q.severed u⟩

/-- Before it, it is the last touch's, or else the content's own. -/
theorem intervalS_mergedRef (hsev : (p.getD {}).core = none → (p.getD {}).severed = true →
      (p.getD {}).removed = true) (hn : mergedRef ttl k id rank m p = some n) :
    n.intervalS = baseInterval ttl m (p.getD {}).severed n.contentHash ↔
      IntervalFolded ttl m (p.getD {}) n.contentHash := by
  obtain ⟨hrem, ⟨q, u, rfl, hcore, rfl⟩ | ⟨hcore, r, rfl, rfl⟩⟩ := mergedRef_cases hn
  · -- an overlay core: with no touch its interval is looked up in the same way
    simp only [Option.getD_some]
    unfold IntervalFolded
    cases htouch : q.touch with
    | none =>
      simp only [NodeRef.make, coreFreshness, htouch, hcore, Option.isSome_some, true_or, iff_true]
      exact coreInterval_eq ttl k m q.severed u
    | some t => simp [NodeRef.make, coreFreshness, htouch, Freshness.touched]
  · -- the base record, under the touch if there is one
    have hnotsev : (p.getD {}).severed = false := by
      by_contra h
      rw [Bool.not_eq_false] at h
      rw [hsev hcore h] at hrem
      cases hrem
    have hmax := eq_max_one_iff r.intervalS
    cases p with
    | none => simp [IntervalFolded, NodeRef.make, baseFreshness, NodeModel.toRec, baseInterval, hmax]
    | some q =>
      simp only [Option.getD_some] at hcore hnotsev ⊢
      cases htouch : q.touch with
      | none =>
        simp [IntervalFolded, htouch, hcore, NodeRef.make, baseFreshness, NodeModel.toRec,
          baseInterval, hnotsev, hmax]
      | some t => simp [IntervalFolded, htouch, NodeRef.make, baseFreshness, Freshness.touched]

end reading

/-- A node whose content is absorbed again, in a batch that names it once: the
    interval read after the commit is the one read before it exactly when it had
    been folded. -/
theorem interval_kept_iff (xxh3 : Bytes → UInt64) (rank : SortedMap UrlKey NodeModel → List UInt16)
    (ttl : TtlConfig) (c c' : Chronicle) (edits : List Edit) (pre post : List Op) (u : Upsert)
    (n : NodeRef) (hs : c.exec xxh3 rank ttl (.batch edits) = some c')
    (hpast : c'.past = c.past ++ (pre ++ .upsert u :: post))
    (honce : ∀ op ∈ pre ++ post, op.key ≠ u.key)
    (hn : (c.handle.snapshot ttl).node u.key = some (some n))
    (hhash : u.contentHash = n.contentHash) :
    ∃ n', (c'.handle.snapshot ttl).node u.key = some (some n') ∧
      (n'.intervalS = n.intervalS ↔
        IntervalFolded ttl (c.base u.key) ((c.patch u.key).getD {}) n.contentHash) := by
  obtain ⟨opss, -, -, hpast', hoverlay, hserved, -⟩ := Chronicle.exec_batch hs
  rw [hpast'] at hpast
  have hflat : opss.flatten = pre ++ .upsert u :: post := List.append_cancel_left hpast
  have hpatch : foldKey u.key none (c.overlay ++ opss.flatten)
      = some (((c.patch u.key).getD {}).step (.upsert u)) := by
    rw [hflat, show c.overlay ++ (pre ++ .upsert u :: post)
        = c.overlay ++ pre ++ [.upsert u] ++ post by simp, foldKey_append,
      foldKey_of_other _ fun op hop => honce op (by simp [hop]), foldKey_append_one,
      foldKey_append, foldKey_of_other _ fun op hop => honce op (by simp [hop])]
    exact if_pos rfl
  rw [Handle.snapshot, Base.node_snapshot, ← Chronicle.overlay, Option.some.injEq] at hn
  obtain ⟨n', hn', hinterval⟩ := @mergedRef_upsert ttl u.key (c.handle.served.idOf u.key)
    (c.handle.served.rankOf u.key) (c.base u.key) ((c.patch u.key).getD {}) u
  refine ⟨n', ?_, ?_⟩
  · rw [Handle.snapshot, Base.node_snapshot, ← Chronicle.overlay, hserved, hoverlay, hpatch]
    exact congrArg some hn'
  · rw [hinterval, hhash, eq_comm]
    exact intervalS_mergedRef (removed_of_severed u.key c.overlay) hn

/-- A document and one check that found it unchanged. -/
def checkedOnce : List Event :=
  [.batch [.write (.upsert ⟨"a", 1, 5, 10, none, none, none, false⟩)],
    .batch [.touch 1 ⟨20, .unchanged, none, none⟩]]

/-- The same document absorbed again. -/
def absorbAgain : List Edit := [.write (.upsert ⟨"a", 1, 5, 30, none, none, none, false⟩)]

/-- What key 1 reads as before and after it is absorbed again. -/
def aroundAbsorb (events : List Event) :
    Option ((Chronicle × Chronicle) × (NodeRef × NodeRef)) := do
  let p ← lastBatch (fun _ _ => true) events absorbAgain
  let n ← (p.1.handle.snapshot TtlConfig.default).node 1
  let n' ← (p.2.handle.snapshot TtlConfig.default).node 1
  let pair ← n.bind fun a => n'.map fun b => (a, b)
  some (p, pair)

theorem of_aroundAbsorb {events : List Event} {c c' : Chronicle} {n n' : NodeRef}
    (h : aroundAbsorb events = some ((c, c'), (n, n'))) :
    lastBatch (fun _ _ => true) events absorbAgain = some (c, c') ∧
      (c.handle.snapshot TtlConfig.default).node 1 = some (some n) ∧
      (c'.handle.snapshot TtlConfig.default).node 1 = some (some n') := by
  unfold aroundAbsorb at h
  simp only [Option.bind_eq_bind, Option.bind_eq_some_iff, Option.map_eq_some_iff] at h
  obtain ⟨p, hp, o, ho, o', ho', pair, ⟨a, ha, b, hb, hpair⟩, h⟩ := h
  subst hpair ha hb
  cases h
  exact ⟨hp, ho, ho'⟩

/-- Once a compaction has folded the check, the interval it learned stays. -/
theorem interval_kept_iff_folded :
    ∃ c c' n n', lastBatch (fun _ _ => true) (checkedOnce ++ [.compact]) absorbAgain
        = some (c, c') ∧
      (c.handle.snapshot TtlConfig.default).node 1 = some (some n) ∧ n.intervalS = 32400 ∧
      (c'.handle.snapshot TtlConfig.default).node 1 = some (some n') ∧ n'.intervalS = 32400 ∧
      IntervalFolded TtlConfig.default (c.base 1) ((c.patch 1).getD {}) n.contentHash := by
  have heval : (aroundAbsorb (checkedOnce ++ [.compact])).any (fun p =>
      decide (p.1.2.past = p.1.1.past ++ [.upsert ⟨1, 5, 30, 0, "a", none, none, none⟩] ∧
        p.2.1.contentHash = 5 ∧ p.2.1.intervalS = 32400 ∧ p.2.2.intervalS = 32400)) = true := by
    decide +kernel
  cases haround : aroundAbsorb (checkedOnce ++ [.compact]) with
  | none => simp [haround] at heval
  | some p =>
    obtain ⟨⟨c, c'⟩, n, n'⟩ := p
    rw [haround, Option.any_some] at heval
    obtain ⟨hpast, hhash, hbefore, hafter⟩ := of_decide_eq_true heval
    obtain ⟨hlast, hn, hn'⟩ := of_aroundAbsorb haround
    obtain ⟨m, hm, hiff⟩ := interval_kept_iff _ _ _ c c' absorbAgain [] []
      ⟨1, 5, 30, 0, "a", none, none, none⟩ n (of_lastBatch hlast).2.2 hpast (by simp) hn hhash.symm
    have hsame : m = n' := Option.some.inj (Option.some.inj (hm.symm.trans hn'))
    refine ⟨c, c', n, n', hlast, hn, hbefore, hn', hafter, hiff.mp ?_⟩
    rw [hsame]
    exact hafter.trans hbefore.symm

/-- Before that, absorbing the unchanged document resets it. -/
theorem absorb_resets_interval :
    ∃ c c' n n', lastBatch (fun _ _ => true) checkedOnce absorbAgain = some (c, c') ∧
      (c.handle.snapshot TtlConfig.default).node 1 = some (some n) ∧ n.isStub = false ∧
      n.isTombstone = false ∧ n.contentHash = 5 ∧ n.intervalS = 32400 ∧
      (c'.handle.snapshot TtlConfig.default).node 1 = some (some n') ∧
      n'.intervalS = TtlConfig.default.baseS ∧ n'.intervalS ≠ n.intervalS := by
  have heval : (aroundAbsorb checkedOnce).any (fun p =>
      decide (p.2.1.isStub = false ∧ p.2.1.isTombstone = false ∧ p.2.1.contentHash = 5 ∧
        p.2.1.intervalS = 32400 ∧ p.2.2.intervalS = TtlConfig.default.baseS)) = true := by
    decide +kernel
  cases haround : aroundAbsorb checkedOnce with
  | none => simp [haround] at heval
  | some p =>
    obtain ⟨⟨c, c'⟩, n, n'⟩ := p
    rw [haround, Option.any_some] at heval
    obtain ⟨hstub, htomb, hhash, hbefore, hafter⟩ := of_decide_eq_true heval
    obtain ⟨hlast, hn, hn'⟩ := of_aroundAbsorb haround
    refine ⟨c, c', n, n', hlast, hn, hstub, htomb, hhash, hbefore, hn', hafter, ?_⟩
    simp only at hbefore hafter
    rw [hbefore, hafter]
    decide

end GraphR
