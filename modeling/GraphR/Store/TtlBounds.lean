import GraphR.Store.Due
import GraphR.Store.Interval

/-! # Adaptive freshness over every configuration

    No field of a configuration is checked. Its arithmetic is total but for one
    step, the clamp between `min_s` and `max_s`: with the two crossed, a touch
    that finds its document unchanged or changed panics. With them in order,
    every touch of every run stores an interval between them, and moves the one
    before it the way its outcome says. -/

namespace GraphR

open Wal ByteLib

/-! ## The arithmetic -/

namespace TtlConfig

variable {cfg : TtlConfig}

theorem clamp_eq (h : cfg.minS ≤ cfg.maxS) (v : Nat) :
    ∃ r, cfg.clamp v = some r ∧
      r.toNat = max cfg.minS.toNat (min v cfg.maxS.toNat) := by
  have hle : ¬cfg.maxS < cfg.minS := by
    rw [UInt32.lt_iff_toNat_lt]
    rw [UInt32.le_iff_toNat_le] at h
    omega
  have hmin : cfg.minS.toNat < 2 ^ 32 := cfg.minS.toNat_lt
  have hmax : cfg.maxS.toNat < 2 ^ 32 := cfg.maxS.toNat_lt
  refine ⟨_, if_neg hle, ?_⟩
  rw [UInt32.toNat_ofNat', Nat.mod_eq_of_lt (by omega)]

/-- A product of two `u32` never leaves the `u64` it is computed in. -/
theorem product_lt (a b : UInt32) : a.toNat * b.toNat < 2 ^ 64 := by
  have ha : a.toNat < 2 ^ 32 := a.toNat_lt
  have hb : b.toNat < 2 ^ 32 := b.toNat_lt
  calc a.toNat * b.toNat ≤ (2 ^ 32 - 1) * (2 ^ 32 - 1) := Nat.mul_le_mul (by omega) (by omega)
    _ < 2 ^ 64 := by norm_num

theorem one_le_max_one (a : UInt32) : 1 ≤ (max a 1).toNat := by
  have hmax : max a 1 = if a ≤ 1 then 1 else a := rfl
  have hone : (1 : UInt32).toNat = 1 := rfl
  rw [hmax]
  split_ifs with h
  · simp
  · rw [UInt32.le_iff_toNat_le, hone] at h
    omega

/-- A ratio of at least one does not shrink. -/
theorem le_scaled {i num den : Nat} (hden : 1 ≤ den) (h : den ≤ num) : i ≤ i * num / den :=
  (Nat.le_div_iff_mul_le (by omega)).mpr (Nat.mul_le_mul_left i h)

/-- A ratio of at most one does not grow. -/
theorem scaled_le {i num den : Nat} (h : num ≤ den) : i * num / den ≤ i :=
  Nat.div_le_of_le_mul (by rw [Nat.mul_comm]; exact Nat.mul_le_mul_right i h)

theorem nextInterval_isSome (h : cfg.minS ≤ cfg.maxS) (i : UInt32) (o : Outcome) :
    (cfg.nextInterval i o).isSome := by
  cases o with
  | unchanged =>
    obtain ⟨r, hr, -⟩ := clamp_eq h (i.toNat * cfg.growNum.toNat / (max cfg.growDen 1).toNat)
    simp [nextInterval, hr]
  | changed =>
    obtain ⟨r, hr, -⟩ := clamp_eq h (i.toNat * cfg.cutNum.toNat / (max cfg.cutDen 1).toNat)
    simp [nextInterval, hr]
  | error => rfl
  | gone => rfl

/-- What an observation stores lies between the bounds. -/
theorem nextInterval_bounds (h : cfg.minS ≤ cfg.maxS) {i r : UInt32} {o : Outcome}
    (ho : o ≠ .gone) (hr : cfg.nextInterval i o = some r) : cfg.minS ≤ r ∧ r ≤ cfg.maxS := by
  rw [UInt32.le_iff_toNat_le, UInt32.le_iff_toNat_le]
  have hle := UInt32.le_iff_toNat_le.mp h
  cases o with
  | unchanged =>
    obtain ⟨r', hr', hval⟩ := clamp_eq h (i.toNat * cfg.growNum.toNat / (max cfg.growDen 1).toNat)
    rw [nextInterval, hr', Option.some.injEq] at hr
    subst hr
    omega
  | changed =>
    obtain ⟨r', hr', hval⟩ := clamp_eq h (i.toNat * cfg.cutNum.toNat / (max cfg.cutDen 1).toNat)
    rw [nextInterval, hr', Option.some.injEq] at hr
    subst hr
    omega
  | error =>
    cases hr
    omega
  | gone => exact absurd rfl ho

/-- An unchanged document is not checked sooner, up to the ceiling. -/
theorem nextInterval_unchanged (h : cfg.minS ≤ cfg.maxS) {i r : UInt32}
    (hgrow : max cfg.growDen 1 ≤ cfg.growNum) (hr : cfg.nextInterval i .unchanged = some r) :
    min i.toNat cfg.maxS.toNat ≤ r.toNat := by
  obtain ⟨r', hr', hval⟩ := clamp_eq h (i.toNat * cfg.growNum.toNat / (max cfg.growDen 1).toNat)
  rw [nextInterval, hr', Option.some.injEq] at hr
  subst hr
  have hscaled := le_scaled (i := i.toNat) (one_le_max_one cfg.growDen)
    (UInt32.le_iff_toNat_le.mp hgrow)
  omega

/-- A changed one is not checked later, down to the floor. -/
theorem nextInterval_changed (h : cfg.minS ≤ cfg.maxS) {i r : UInt32}
    (hcut : cfg.cutNum ≤ max cfg.cutDen 1) (hr : cfg.nextInterval i .changed = some r) :
    r.toNat ≤ max i.toNat cfg.minS.toNat := by
  obtain ⟨r', hr', hval⟩ := clamp_eq h (i.toNat * cfg.cutNum.toNat / (max cfg.cutDen 1).toNat)
  rw [nextInterval, hr', Option.some.injEq] at hr
  subst hr
  have hscaled := scaled_le (i := i.toNat) (UInt32.le_iff_toNat_le.mp hcut)
  omega

/-- With the bounds crossed there is no interval to store. -/
theorem nextInterval_unchanged_none (h : cfg.maxS < cfg.minS) (i : UInt32) :
    cfg.nextInterval i .unchanged = none :=
  if_pos h

/-! ### The next check -/

/-- The share of its interval a node of rank `r` waits, in permille. -/
def waits (cfg : TtlConfig) (r : UInt16) : Nat :=
  1000 - min cfg.importanceBiasPermille.toNat 1000 * min r.toNat 1000 / 1000

/-- The sum is cut off at the last moment there is. -/
theorem nextCheckAtMs_eq (cfg : TtlConfig) (f : UInt64) (i : UInt32) (r : UInt16) :
    ∃ t, cfg.nextCheckAtMs f i r = some t ∧
      t.toNat = min (f.toNat + i.toNat * 1000 * cfg.waits r / 1000) (2 ^ 64 - 1) := by
  obtain ⟨t, ht⟩ := Option.isSome_iff_exists.mp (cfg.nextCheckAtMs_isSome f i r)
  refine ⟨t, ht, ?_⟩
  simp only [nextCheckAtMs, Option.bind_eq_bind, Option.bind_eq_some_iff, ckSub, ckMul,
    Option.ite_none_right_eq_some, Option.some.injEq] at ht
  obtain ⟨_, ⟨-, rfl⟩, _, ⟨-, rfl⟩, _, ⟨-, rfl⟩, rfl⟩ := ht
  rw [UInt64.toNat_ofNat', Nat.mod_eq_of_lt (by omega)]
  rfl

/-- A higher rank waits no longer. -/
theorem waits_anti (cfg : TtlConfig) {r r' : UInt16} (h : r ≤ r') : cfg.waits r' ≤ cfg.waits r := by
  have hle := UInt16.le_iff_toNat_le.mp h
  have hmin : min r.toNat 1000 ≤ min r'.toNat 1000 := by omega
  exact Nat.sub_le_sub_left (Nat.div_le_div_right (Nat.mul_le_mul_left _ hmin)) 1000

end TtlConfig

/-- The moment of the next check: it is always there, never before the last
    look, no later for a higher rank and no earlier for a longer interval. -/
structure CheckTimes (cfg : TtlConfig) : Prop where
  total : ∀ f i r, (cfg.nextCheckAtMs f i r).isSome
  unwrapped : ∀ f i r t, cfg.nextCheckAtMs f i r = some t → f ≤ t
  rank : ∀ f i r r' t t', r ≤ r' → cfg.nextCheckAtMs f i r = some t →
    cfg.nextCheckAtMs f i r' = some t' → t' ≤ t
  interval : ∀ f i i' r t t', i ≤ i' → cfg.nextCheckAtMs f i r = some t →
    cfg.nextCheckAtMs f i' r = some t' → t ≤ t'

theorem TtlConfig.checkTimes (cfg : TtlConfig) : CheckTimes cfg where
  total := cfg.nextCheckAtMs_isSome
  unwrapped := by
    intro f i r t ht
    obtain ⟨t', ht', hval⟩ := cfg.nextCheckAtMs_eq f i r
    rw [ht', Option.some.injEq] at ht
    subst ht
    have hf : f.toNat < 2 ^ 64 := f.toNat_lt
    rw [UInt64.le_iff_toNat_le, hval]
    omega
  rank := by
    intro f i r r' t t' hr ht ht'
    obtain ⟨u, hu, hval⟩ := cfg.nextCheckAtMs_eq f i r
    obtain ⟨u', hu', hval'⟩ := cfg.nextCheckAtMs_eq f i r'
    rw [hu, Option.some.injEq] at ht
    rw [hu', Option.some.injEq] at ht'
    subst ht ht'
    have hshare := Nat.div_le_div_right (c := 1000)
      (Nat.mul_le_mul_left (i.toNat * 1000) (cfg.waits_anti hr))
    rw [UInt64.le_iff_toNat_le, hval, hval']
    omega
  interval := by
    intro f i i' r t t' hi ht ht'
    obtain ⟨u, hu, hval⟩ := cfg.nextCheckAtMs_eq f i r
    obtain ⟨u', hu', hval'⟩ := cfg.nextCheckAtMs_eq f i' r
    rw [hu, Option.some.injEq] at ht
    rw [hu', Option.some.injEq] at ht'
    subst ht ht'
    have hle := UInt32.le_iff_toNat_le.mp hi
    have hshare := Nat.div_le_div_right (c := 1000) (Nat.mul_le_mul_right (cfg.waits r)
      (Nat.mul_le_mul_right 1000 hle))
    rw [UInt64.le_iff_toNat_le, hval, hval']
    omega

/-! ## Touches of a store

    The touch is computed on one view and committed onto another, later one; the
    buffer may hold other ops before it and after it. -/

/-- The op replaces what a touch of `k` before it has left. -/
def Wal.Op.Rewrites (k : UrlKey) : Op → Prop
  | .upsert u => u.key = k
  | .touch key _ => key = k
  | .remove key => key = k
  | _ => False

/-- A touch staged on a view of one state and committed onto another: what it
    read of the node, and what is read of it then. -/
inductive CommittedTouch (ttl : TtlConfig) (k : UrlKey) (t : Writer.Touch) (n n' : NodeRef) :
    Prop where
  | intro {xxh3 : Bytes → UInt64} {rank : SortedMap UrlKey NodeModel → List UInt16}
      {base base' : Base} {ops ops' new : List Op} {before after : List Push}
      {b b₁ b₂ : RecordBuf} (view : Reach xxh3 rank base ops) (onto : Reach xxh3 rank base' ops')
      (staged : pushAll before RecordBuf.new = .ok b)
      (read : (base.snapshot ops ttl).node k = some (some n))
      (touched : Writer.touch b (base.snapshot ops ttl) k t = some (.ok (true, b₁)))
      (rest : pushAll after b₁ = .ok b₂) (last : ∀ p ∈ after, ¬p.op.Rewrites k)
      (record : b₂.opViews.mapM OpView.read = some new)
      (committed : (base'.snapshot (ops' ++ new) ttl).node k = some (some n'))

/-- No touch of any store panics, whatever is staged before it. -/
def TouchTotal (ttl : TtlConfig) : Prop :=
  ∀ (xxh3 : Bytes → UInt64) (rank : SortedMap UrlKey NodeModel → List UInt16) (base : Base)
    (ops : List Op), Reach xxh3 rank base ops →
    ∀ (before : List Push) (b : RecordBuf), pushAll before RecordBuf.new = .ok b →
      ∀ k t, (Writer.touch b (base.snapshot ops ttl) k t).isSome

/-- What a committed touch stores, `current` being the interval before it. -/
def TouchBounds (current : NodeRef → UInt32) (ttl : TtlConfig) : Prop :=
  ∀ k t n n', CommittedTouch ttl k t n n' →
    (t.outcome ≠ .gone → ttl.minS ≤ n'.intervalS ∧ n'.intervalS ≤ ttl.maxS) ∧
    (t.outcome = .unchanged → max ttl.growDen 1 ≤ ttl.growNum →
      min (current n).toNat ttl.maxS.toNat ≤ n'.intervalS.toNat) ∧
    (t.outcome = .changed → ttl.cutNum ≤ max ttl.cutDen 1 →
      n'.intervalS.toNat ≤ max (current n).toNat ttl.minS.toNat)

section touches
variable {ttl : TtlConfig} {base base' : Base} {ops ops' : List Op} {k : UrlKey}
  {t : Writer.Touch} {n n' : NodeRef}

/-- A view is read without a fault, so only the arithmetic can panic. -/
theorem touch_eq {before : List Push} {b : RecordBuf} (hb : pushAll before RecordBuf.new = .ok b)
    (hetag : checkOptLabel "etag" t.etag = .ok ())
    (hn : (base.snapshot ops ttl).node k = some (some n)) :
    Writer.touch b (base.snapshot ops ttl) k t
      = (ttl.nextInterval (max n.intervalS 1) t.outcome).map fun interval =>
          (b.pushTouch k (Writer.touchRecord n (Writer.stagedCore k (before.map Push.op)) t
            interval)).map (true, ·) := by
  have httl : (base.snapshot ops ttl).ttl = ttl := rfl
  unfold Writer.touch
  rw [hetag]
  simp only [record_reads hb, hn, httl, Option.bind_eq_bind, Option.bind_some]
  cases ttl.nextInterval (max n.intervalS 1) t.outcome <;> rfl

theorem touchTotal (h : ttl.minS ≤ ttl.maxS) : TouchTotal ttl := by
  intro xxh3 rank base ops _ before b hb k t
  cases hetag : checkOptLabel "etag" t.etag with
  | error e =>
    unfold Writer.touch
    rw [hetag]
    rfl
  | ok u =>
    have hread := Base.node_snapshot base ops ttl k
    generalize mergedRef ttl k (base.idOf k) (base.rankOf k) (base.nodes.get k)
      (foldKey k none ops) = node at hread
    cases node with
    | none =>
      unfold Writer.touch
      rw [hetag]
      simp only [record_reads hb, hread, Option.bind_eq_bind, Option.bind_some]
      rfl
    | some n =>
      obtain ⟨interval, hinterval⟩ :=
        Option.isSome_iff_exists.mp (TtlConfig.nextInterval_isSome h (max n.intervalS 1) t.outcome)
      rw [touch_eq hb hetag hread, hinterval]
      rfl

/-- The last touch of a key is what is read of its freshness. -/
theorem intervalS_of_touch {id : Option Nat} {rank : UInt16} {m : Option NodeModel}
    {q : OverlayNode} {r : TouchRecord} (hq : q.touch = some r)
    (hn : mergedRef ttl k id rank m (some q) = some n) : n.intervalS = r.intervalS := by
  rcases (mergedRef_cases hn).2 with ⟨q', c, hq', -, rfl⟩ | ⟨-, m', -, rfl⟩
  · cases hq'
    simp [NodeRef.make, coreFreshness, hq, Freshness.touched]
  · simp [NodeRef.make, baseFreshness, hq, Freshness.touched]

/-- Ops that do not rewrite the key leave its touch. -/
theorem touch_kept {r : TouchRecord} {p : Option OverlayNode} {new : List Op}
    (hp : ∃ q, p = some q ∧ q.touch = some r) (hnew : ∀ op ∈ new, ¬op.Rewrites k) :
    ∃ q, foldKey k p new = some q ∧ q.touch = some r := by
  induction new using List.reverseRecOn with
  | nil => exact hp
  | append_singleton new op ih =>
    obtain ⟨q, hq, htouch⟩ := ih fun o ho => hnew o (by simp [ho])
    have hop := hnew op (by simp)
    rw [foldKey_append_one]
    by_cases hk : k = op.key
    · rw [if_pos hk, hq]
      refine ⟨_, rfl, ?_⟩
      -- the ops that change the touch name the key
      cases op with
      | upsert u => exact absurd hk.symm hop
      | touch key t => exact absurd hk.symm hop
      | remove key => exact absurd hk.symm hop
      | segs key s => exact htouch
      | edges key es => exact htouch
      | attrs key as => exact htouch
      | pin key b => exact htouch
    · rw [if_neg hk]
      exact ⟨q, hq, htouch⟩

/-- A committed touch stores the next interval of the one it read. -/
theorem CommittedTouch.interval (h : CommittedTouch ttl k t n n') :
    ttl.nextInterval (max n.intervalS 1) t.outcome = some n'.intervalS := by
  obtain @⟨xxh3, rank, base, base', ops, ops', new, before, after, b, b₁, b₂, -, -, hb, hn, htouch,
    hafter, hkeep, hnew, hn'⟩ := h
  cases hetag : checkOptLabel "etag" t.etag with
  | error e =>
    unfold Writer.touch at htouch
    rw [hetag] at htouch
    cases htouch
  | ok u =>
    rw [touch_eq hb hetag hn] at htouch
    obtain ⟨interval, hinterval, hpush⟩ := Option.map_eq_some_iff.mp htouch
    set r := Writer.touchRecord n (Writer.stagedCore k (before.map Push.op)) t interval with hr
    cases hpushed : b.pushTouch k r with
    | error e =>
      rw [hpushed] at hpush
      cases hpush
    | ok b₁' =>
      rw [hpushed] at hpush
      cases hpush
      -- the record that is committed: what stood before, the touch, what came after
      have hone : pushAll (before ++ [.touch k r]) RecordBuf.new = .ok b₁ :=
        pushAll_append_one hb hpushed
      have hall : pushAll ((before ++ [.touch k r]) ++ after) RecordBuf.new = .ok b₂ := by
        unfold pushAll at hone hafter ⊢
        rw [List.foldlM_append, hone]
        exact hafter
      rw [record_reads hall, Option.some.injEq] at hnew
      rw [Base.node_snapshot, Option.some.injEq, ← hnew] at hn'
      have hfold : ∃ q, foldKey k none (ops' ++ ((before ++ [Push.touch k r]) ++ after).map Push.op)
          = some q ∧ q.touch = some r := by
        rw [List.map_append, List.map_append, ← List.append_assoc, ← List.append_assoc,
          foldKey_append]
        refine touch_kept ?_ ?_
        · rw [List.map_singleton, foldKey_append_one]
          exact ⟨_, if_pos rfl, rfl⟩
        · intro op hop
          obtain ⟨p, hp, rfl⟩ := List.mem_map.mp hop
          exact hkeep p hp
      obtain ⟨q, hq, hqtouch⟩ := hfold
      rw [hq] at hn'
      rw [hinterval, intervalS_of_touch hqtouch hn']
      rfl

theorem touchBounds (h : ttl.minS ≤ ttl.maxS) : TouchBounds (fun n => max n.intervalS 1) ttl := by
  intro k t n n' hc
  have hnext := hc.interval
  refine ⟨fun ho => TtlConfig.nextInterval_bounds h ho hnext, ?_, ?_⟩
  · intro ho hgrow
    rw [ho] at hnext
    exact TtlConfig.nextInterval_unchanged h hgrow hnext
  · intro ho hcut
    rw [ho] at hnext
    exact TtlConfig.nextInterval_changed h hcut hnext

/-- A stored interval of 0 is read as 1 by the next touch. With no growth and no
    cut, 1 it stays, which is more than 0 was. -/
def ZeroStays (ttl : TtlConfig) : Prop :=
  ttl.minS = 0 ∧ 1 ≤ ttl.maxS ∧ ttl.cutNum = max ttl.cutDen 1

theorem toNat_max_one (a : UInt32) : (max a 1).toNat = max a.toNat 1 := by
  have hmax : max a 1 = if a ≤ 1 then 1 else a := rfl
  have hone : (1 : UInt32).toNat = 1 := rfl
  rw [hmax]
  split_ifs with h
  · rw [UInt32.le_iff_toNat_le, hone] at h
    rw [hone]
    omega
  · rw [UInt32.le_iff_toNat_le, hone] at h
    omega

theorem touchBounds_stored (h : ttl.minS ≤ ttl.maxS) (hzero : ¬ZeroStays ttl) :
    TouchBounds (fun n => n.intervalS) ttl := by
  intro k t n n' hc
  obtain ⟨hwithin, hgrows, hcuts⟩ := touchBounds h k t n n' hc
  simp only [toNat_max_one] at hgrows hcuts
  refine ⟨hwithin, ?_, ?_⟩
  · intro ho hgrow
    have hge := hgrows ho hgrow
    show min n.intervalS.toNat ttl.maxS.toNat ≤ n'.intervalS.toNat
    omega
  · intro ho hcut
    have hle := hcuts ho hcut
    show n'.intervalS.toNat ≤ max n.intervalS.toNat ttl.minS.toNat
    by_cases hn : 1 ≤ n.intervalS.toNat
    · omega
    -- a stored 0: the touch cuts 1, and what is left is no more than the floor
    have hnext := hc.interval
    have hone : (max n.intervalS 1).toNat = 1 := by
      rw [toNat_max_one]
      omega
    obtain ⟨r, hr, hval⟩ := TtlConfig.clamp_eq h
      ((max n.intervalS 1).toNat * ttl.cutNum.toNat / (max ttl.cutDen 1).toNat)
    rw [ho, TtlConfig.nextInterval, hr, Option.some.injEq] at hnext
    rw [← hnext, hval, hone, Nat.one_mul]
    have hden := TtlConfig.one_le_max_one ttl.cutDen
    have hcut' := UInt32.le_iff_toNat_le.mp hcut
    by_cases heq : ttl.cutNum.toNat = (max ttl.cutDen 1).toNat
    · have hfloor : ttl.minS.toNat ≠ 0 ∨ ttl.maxS.toNat = 0 := by
        by_contra hnot
        push Not at hnot
        refine hzero ⟨UInt32.toNat_inj.mp hnot.1, ?_, UInt32.toNat_inj.mp heq⟩
        rw [UInt32.le_iff_toNat_le]
        have : (1 : UInt32).toNat = 1 := rfl
        omega
      rw [heq, Nat.div_self (by omega)]
      omega
    · rw [Nat.div_eq_of_lt (by omega)]
      omega

end touches

/-! ## Exactly when -/

/-- A store with one uncompacted document. -/
def oneUpsert : List Op := [.upsert ⟨1, 5, 7, 0, "a", none, none, none⟩]

/-- A document of content 5 checked once, whose interval is 0 then. -/
def zeroInterval : List Op :=
  oneUpsert ++ [.touch 1 ⟨0, 2, some 5, none, 0, 1, 0, 0, false⟩]

theorem reach_staged {ops : List Op} (h : ∀ op ∈ ops, StagedOp op) :
    Reach (fun _ => 0) (fun _ => []) ⟨SortedMap.empty, []⟩ ops := by
  simpa using Reach.commit .create h

theorem not_touchTotal {ttl : TtlConfig} (h : ttl.maxS < ttl.minS) : ¬TouchTotal ttl := by
  intro htotal
  have hreach := @reach_staged oneUpsert (by simp [oneUpsert, StagedOp, hasFlag])
  obtain ⟨n, hn⟩ : ∃ n, (Base.snapshot ⟨SortedMap.empty, []⟩ oneUpsert ttl).node 1
      = some (some n) := ⟨_, Base.node_snapshot _ _ _ _⟩
  have hsome := htotal _ _ _ _ hreach [] RecordBuf.new rfl 1 ⟨0, .unchanged, none, none⟩
  rw [@touch_eq _ _ _ _ _ _ [] _ rfl rfl hn, TtlConfig.nextInterval_unchanged_none h] at hsome
  cases hsome

theorem not_touchBounds_stored {ttl : TtlConfig} (hle : ttl.minS ≤ ttl.maxS) (h : ZeroStays ttl) :
    ¬TouchBounds (fun n => n.intervalS) ttl := by
  intro hbounds
  obtain ⟨hmin, hmax, hcut⟩ := h
  have hreach := @reach_staged zeroInterval (by simp [zeroInterval, oneUpsert, StagedOp, hasFlag])
  obtain ⟨n, hn, hzero, hetag⟩ : ∃ n, (Base.snapshot ⟨SortedMap.empty, []⟩ zeroInterval ttl).node 1
      = some (some n) ∧ n.intervalS = 0 ∧ n.etag = none :=
    ⟨_, Base.node_snapshot _ _ _ _, rfl, rfl⟩
  -- the touch that finds it changed stores 1
  have hden := TtlConfig.one_le_max_one ttl.cutDen
  obtain ⟨r, hr, hval⟩ := TtlConfig.clamp_eq hle
    ((max n.intervalS 1).toNat * ttl.cutNum.toNat / (max ttl.cutDen 1).toNat)
  have hone : (max n.intervalS 1).toNat = 1 := by
    rw [hzero]
    rfl
  have hfloor : ttl.minS.toNat = 0 := by
    rw [hmin]
    rfl
  have hroom : 1 ≤ ttl.maxS.toNat := UInt32.le_iff_toNat_le.mp hmax
  rw [hone, Nat.one_mul, hcut, Nat.div_self (by omega)] at hval
  have hnext : ttl.nextInterval (max n.intervalS 1) .changed = some r := by
    rw [TtlConfig.nextInterval, ← hr, hone]
  set rec := Writer.touchRecord n none ⟨0, .changed, none, none⟩ r with hrec
  have hshort : rec.etag = none := by
    simp [hrec, Writer.touchRecord, hetag]
  obtain ⟨b₁, hpush⟩ : ∃ b₁, RecordBuf.new.pushTouch 1 rec = .ok b₁ := by
    refine ⟨_, if_neg ?_⟩
    rw [hshort]
    decide
  have htouch : Writer.touch RecordBuf.new (Base.snapshot ⟨SortedMap.empty, []⟩ zeroInterval ttl) 1
      ⟨0, .changed, none, none⟩ = some (.ok (true, b₁)) := by
    rw [@touch_eq _ _ _ _ _ _ [] _ rfl rfl hn, hnext, Option.map_some]
    exact congrArg (fun x => some (Except.map (true, ·) x)) hpush
  have hone' : pushAll [.touch 1 rec] RecordBuf.new = .ok b₁ := @pushAll_append_one [] _ _ _ rfl hpush
  obtain ⟨n', hn', hinterval⟩ : ∃ n', (Base.snapshot ⟨SortedMap.empty, []⟩
      (zeroInterval ++ [.touch 1 rec]) ttl).node 1 = some (some n') ∧ n'.intervalS = rec.intervalS :=
    ⟨_, Base.node_snapshot _ _ _ _, rfl⟩
  have hcommitted : CommittedTouch ttl 1 ⟨0, .changed, none, none⟩ n n' :=
    @CommittedTouch.intro _ _ _ _ _ _ _ _ _ _ _ _ [] [] _ _ _ hreach hreach rfl hn htouch rfl
      (by simp) (record_reads hone') hn'
  have hbad := (hbounds 1 _ n n' hcommitted).2.2 rfl (hcut ▸ UInt32.le_refl _)
  have hstored : n'.intervalS.toNat = r.toNat := by rw [hinterval]; rfl
  have hcurrent : n.intervalS.toNat = 0 := by rw [hzero]; rfl
  simp only [hstored, hcurrent] at hbad
  omega

/-- For every configuration: no touch panics and every committed touch stores an
    interval within its bounds if and only if the floor is no more than the
    ceiling. Against the interval as it is stored, where the touch reads a 0 as
    1, it is so unless a zero stays as well. The next check is sound either
    way. -/
theorem freshness_bounded_iff (ttl : TtlConfig) :
    (TouchTotal ttl ∧ TouchBounds (fun n => max n.intervalS 1) ttl ↔ ttl.minS ≤ ttl.maxS) ∧
    (TouchTotal ttl ∧ TouchBounds (fun n => n.intervalS) ttl ↔
      ttl.minS ≤ ttl.maxS ∧ ¬ZeroStays ttl) ∧
    (∀ i : UInt32, i.toNat * ttl.growNum.toNat < 2 ^ 64 ∧ i.toNat * ttl.cutNum.toNat < 2 ^ 64) ∧
    CheckTimes ttl := by
  have hord : TouchTotal ttl → ttl.minS ≤ ttl.maxS := by
    intro htotal
    by_contra hnot
    refine not_touchTotal ?_ htotal
    rw [UInt32.le_iff_toNat_le] at hnot
    rw [UInt32.lt_iff_toNat_lt]
    omega
  refine ⟨⟨fun h => hord h.1, fun h => ⟨touchTotal h, touchBounds h⟩⟩, ⟨?_, ?_⟩,
    fun i => ⟨TtlConfig.product_lt _ _, TtlConfig.product_lt _ _⟩, ttl.checkTimes⟩
  · rintro ⟨htotal, hbounds⟩
    exact ⟨hord htotal, fun hzero => not_touchBounds_stored (hord htotal) hzero hbounds⟩
  · rintro ⟨h, hzero⟩
    exact ⟨touchTotal h, touchBounds_stored h hzero⟩

/-- The default policy with its floor above its ceiling. -/
def crossedBounds : TtlConfig := { TtlConfig.default with maxS := 899 }

/-- A touch of an unchanged document panics under it. -/
theorem touch_panics_crossedBounds :
    ¬(TouchTotal crossedBounds ∧ TouchBounds (fun n => max n.intervalS 1) crossedBounds) :=
  fun h => not_touchTotal (by decide) h.1

end GraphR
