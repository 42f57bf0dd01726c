import GraphR.Library.Settle
import GraphR.Store.Snapshot

/-! # A record that stays in the log and is committed again

    A commit whose append failed after its bytes reached the log is retried, and
    the log then holds its ops twice. The second copy is folded onto a node the
    first copy has changed, and the nodes that result may differ: an upsert of
    the second copy carries the counters of a touch of the first. Every cell of
    a node but the hidden one settles, so nothing that is read differs, then or
    after any further op. -/

namespace GraphR

open Wal ByteLib SettleLib

/-! ## The cells of an overlay node -/

/-- Freshness since the last upsert: a touch, or else the counters carried. The
    counters under a touch are never read, and an upsert replaces them. -/
inductive FreshCell where
  | touched (t : TouchRecord)
  | carried (c : Option (UInt16 × UInt16 × UInt64))

/-- The pin: explicit, or what a pinning core would make of it. -/
inductive PinCell where
  | known (pinned : Bool)
  | unset (core : Bool)

namespace OverlayNode

def freshCell (p : OverlayNode) : FreshCell :=
  match p.touch with
  | some t => .touched t
  | none => .carried p.carried

def pinCell (p : OverlayNode) : PinCell :=
  match p.pinned with
  | some b => .known b
  | none => .unset (p.core.any fun c => hasFlag c.flags nflags.pinned)

/-- Alike: equal in every cell, so all a reader sees and all a later op builds on
    is the same. -/
structure Alike (p q : OverlayNode) : Prop where
  core : p.core = q.core
  segs : p.segs = q.segs
  edges : p.edges = q.edges
  attrs : p.attrs = q.attrs
  removed : p.removed = q.removed
  severed : p.severed = q.severed
  fresh : p.freshCell = q.freshCell
  pin : p.pinCell = q.pinCell

end OverlayNode

/-! ### One op on each cell -/

/-- A cell that one kind of op sets and a remove clears. -/
def setCell {γ : Type} (value : Op → Option γ) (x : Option γ) (op : Op) : Option γ :=
  match op with
  | .remove _ => none
  | op => (value op).or x

def coreValue : Op → Option Upsert
  | .upsert u => some u
  | _ => none

def segsValue : Op → Option (List SegView)
  | .segs _ s => some s
  | _ => none

def edgesValue : Op → Option (List Edge)
  | .edges _ es => some es
  | _ => none

def attrsValue : Op → Option (List (UInt8 × String))
  | .attrs _ as => some as
  | _ => none

def removedStep (x : Bool) : Op → Bool
  | .upsert _ => false
  | .remove _ => true
  | _ => x

def severedStep (x : Bool) : Op → Bool
  | .remove _ => true
  | _ => x

/-- An upsert folds a touch into the counters. -/
def FreshCell.absorb : FreshCell → FreshCell
  | .touched t => .carried (some (t.checks, t.changes, t.lastChangeMs))
  | .carried c => .carried c

def freshStep (x : FreshCell) : Op → FreshCell
  | .upsert _ => x.absorb
  | .touch _ t => .touched t
  | .remove _ => .carried none
  | _ => x

/-- An upsert that does not pin makes the pin of the core before it explicit. -/
def PinCell.settle : PinCell → PinCell
  | .unset true => .known true
  | x => x

def pinStep (x : PinCell) : Op → PinCell
  | .upsert u => if hasFlag u.flags nflags.pinned then .known true else x.settle
  | .pin _ b => .known b
  | .remove _ => .unset false
  | _ => x

/-! ### Each cell settles -/

theorem setCell_settles {γ : Type} (value : Op → Option γ) (op : Op) :
    Settles id fun x => setCell value x op := by
  cases hv : value op with
  | none =>
    cases op with
    | remove key => exact .sets fun _ => rfl
    | _ => exact .keeps fun x => by simp [setCell, hv]
  | some v =>
    cases op with
    | remove key => exact .sets fun _ => rfl
    | _ => exact @Settles.sets _ _ _ (some v) fun x => by simp [setCell, hv]

theorem removedStep_settles (op : Op) : Settles id fun x => removedStep x op := by
  cases op with
  | upsert u => exact .sets fun _ => rfl
  | remove key => exact .sets fun _ => rfl
  | _ => exact .keeps fun _ => rfl

theorem severedStep_settles (op : Op) : Settles id fun x => severedStep x op := by
  cases op with
  | remove key => exact .sets fun _ => rfl
  | _ => exact .keeps fun _ => rfl

theorem FreshCell.absorb_idem (x : FreshCell) : x.absorb.absorb = x.absorb := by
  cases x <;> rfl

theorem freshStep_settles (op : Op) : Settles FreshCell.absorb fun x => freshStep x op := by
  cases op with
  | upsert u => exact .same fun _ => rfl
  | touch key t => exact .sets fun _ => rfl
  | remove key => exact .sets fun _ => rfl
  | _ => exact .keeps fun _ => rfl

theorem PinCell.settle_idem (x : PinCell) : x.settle.settle = x.settle := by
  rcases x with b | ⟨_ | _⟩ <;> rfl

theorem pinStep_settles (op : Op) : Settles PinCell.settle fun x => pinStep x op := by
  cases op with
  | upsert u =>
    by_cases hpin : hasFlag u.flags nflags.pinned = true
    · exact .sets fun x => if_pos hpin
    · exact .same fun x => if_neg hpin
  | pin key b => exact .sets fun _ => rfl
  | remove key => exact .sets fun _ => rfl
  | _ => exact .keeps fun _ => rfl

/-! ### A step of the node is one of each cell -/

namespace OverlayNode

variable (p : OverlayNode) (op : Op)

theorem core_step : (p.step op).core = setCell coreValue p.core op := by cases op <;> rfl

theorem segs_step : (p.step op).segs = setCell segsValue p.segs op := by cases op <;> rfl

theorem edges_step : (p.step op).edges = setCell edgesValue p.edges op := by cases op <;> rfl

theorem attrs_step : (p.step op).attrs = setCell attrsValue p.attrs op := by cases op <;> rfl

theorem removed_step : (p.step op).removed = removedStep p.removed op := by cases op <;> rfl

theorem severed_step : (p.step op).severed = severedStep p.severed op := by cases op <;> rfl

theorem fresh_step : (p.step op).freshCell = freshStep p.freshCell op := by
  cases op with
  | upsert u =>
    -- the touch moves into the carried counters
    cases htouch : p.touch <;> simp [step, freshCell, freshStep, FreshCell.absorb, htouch]
  | _ => rfl

theorem pin_step : (p.step op).pinCell = pinStep p.pinCell op := by
  cases op with
  | upsert u =>
    cases hpin : p.pinned with
    | some b =>
      by_cases hu : hasFlag u.flags nflags.pinned = true
      · simp [step, foldedPin, pinCell, pinStep, hpin, hu]
      · simp [step, foldedPin, pinCell, pinStep, PinCell.settle, hpin, hu]
    | none =>
      by_cases hu : hasFlag u.flags nflags.pinned = true
      · simp [step, foldedPin, pinCell, pinStep, hpin, hu]
      · cases hcore : p.core.any fun c => hasFlag c.flags nflags.pinned with
        | true => simp [step, foldedPin, pinCell, pinStep, PinCell.settle, hpin, hu, hcore]
        | false => simp [step, foldedPin, pinCell, pinStep, PinCell.settle, hpin, hu, hcore]
  | _ => rfl

/-! ### Folding twice -/

/-- Folding the same ops again leaves a node alike. -/
theorem alike_twice (r : List Op) :
    Alike (r.foldl step (r.foldl step p)) (r.foldl step p) where
  core := foldl_twice (fun _ => rfl) (setCell_settles _) core core_step r p
  segs := foldl_twice (fun _ => rfl) (setCell_settles _) segs segs_step r p
  edges := foldl_twice (fun _ => rfl) (setCell_settles _) edges edges_step r p
  attrs := foldl_twice (fun _ => rfl) (setCell_settles _) attrs attrs_step r p
  removed := foldl_twice (fun _ => rfl) removedStep_settles removed removed_step r p
  severed := foldl_twice (fun _ => rfl) severedStep_settles severed severed_step r p
  fresh := foldl_twice FreshCell.absorb_idem freshStep_settles freshCell fresh_step r p
  pin := foldl_twice PinCell.settle_idem pinStep_settles pinCell pin_step r p

variable {p} {q : OverlayNode}

theorem Alike.step (h : Alike p q) (op : Op) : Alike (p.step op) (q.step op) where
  core := by rw [core_step, core_step, h.core]
  segs := by rw [segs_step, segs_step, h.segs]
  edges := by rw [edges_step, edges_step, h.edges]
  attrs := by rw [attrs_step, attrs_step, h.attrs]
  removed := by rw [removed_step, removed_step, h.removed]
  severed := by rw [severed_step, severed_step, h.severed]
  fresh := by rw [fresh_step, fresh_step, h.fresh]
  pin := by rw [pin_step, pin_step, h.pin]

theorem Alike.refl (p : OverlayNode) : Alike p p := ⟨rfl, rfl, rfl, rfl, rfl, rfl, rfl, rfl⟩

/-- Under a touch the carried counters are not read; without one they are the
    cell. -/
theorem Alike.touch (h : Alike p q) : p.touch = q.touch ∧ (p.touch = none → p.carried = q.carried) := by
  have hfresh := h.fresh
  unfold freshCell at hfresh
  cases hp : p.touch with
  | none =>
    cases hq : q.touch with
    | none =>
      simp only [hp, hq, FreshCell.carried.injEq] at hfresh
      exact ⟨rfl, fun _ => hfresh⟩
    | some t => simp [hp, hq] at hfresh
  | some t =>
    cases hq : q.touch with
    | none => simp [hp, hq] at hfresh
    | some t' =>
      simp only [hp, hq, FreshCell.touched.injEq] at hfresh
      exact ⟨by rw [hfresh], fun h => by cases h⟩

theorem Alike.pinned (h : Alike p q) : p.pinned = q.pinned := by
  have hpin := h.pin
  unfold pinCell at hpin
  cases hp : p.pinned with
  | none =>
    cases hq : q.pinned with
    | none => rfl
    | some b => simp [hp, hq] at hpin
  | some b =>
    cases hq : q.pinned with
    | none => simp [hp, hq] at hpin
    | some b' =>
      simp only [hp, hq, PinCell.known.injEq] at hpin
      rw [hpin]

end OverlayNode

/-! ## What a reader sees of alike nodes -/

section reads
variable {p q : OverlayNode} {x y : Option OverlayNode}

theorem coreFreshness_alike (h : p.Alike q) (ttl : TtlConfig) (core : Upsert)
    (base : Option BaseRec) : coreFreshness ttl p core base = coreFreshness ttl q core base := by
  obtain ⟨htouch, hcarried⟩ := h.touch
  unfold coreFreshness coreFlags coreCounters
  rw [← h.severed, ← h.pinned, ← htouch]
  cases hp : p.touch with
  | some t => rfl
  | none => rw [hcarried hp]

/-- The overlay nodes of one key in two views: missing from both, or alike. -/
def AlikeAt (x y : Option OverlayNode) : Prop := Option.Rel OverlayNode.Alike x y

theorem AlikeAt.refl (x : Option OverlayNode) : AlikeAt x x := by
  cases x with
  | none => exact .none
  | some p => exact .some (.refl p)

/-- What depends on the cells of a node alone is the same of both. -/
theorem AlikeAt.any_eq {f : OverlayNode → Bool} (h : AlikeAt x y)
    (hf : ∀ p q, OverlayNode.Alike p q → f p = f q) : x.any f = y.any f := by
  cases h with
  | none => rfl
  | some h => rw [Option.any_some, Option.any_some, hf _ _ h]

theorem baseFreshness_alike (h : AlikeAt x y) (r : BaseRec) :
    baseFreshness r x = baseFreshness r y := by
  cases h with
  | none => rfl
  | some h =>
    unfold baseFreshness
    simp only [h.pinned, h.touch.1]

end reads

namespace Snapshot

variable {s t : Snapshot} {k : UrlKey}

/-- Two views of one base whose overlays are alike at every key. -/
structure Alike (s t : Snapshot) : Prop where
  base : s.base = t.base
  ttl : s.ttl = t.ttl
  overlay : ∀ k, AlikeAt (s.overlay.get k) (t.overlay.get k)

theorem Alike.node (h : s.Alike t) (k : UrlKey) : s.node k = t.node k := by
  have hk := h.overlay k
  have hbase : ∀ id, s.baseNodeRef id (s.overlay.get k) = t.baseNodeRef id (t.overlay.get k) := by
    intro id
    simp only [baseNodeRef, h.base, baseFreshness_alike hk]
  have hcore : ∀ id p q core, OverlayNode.Alike p q →
      s.coreNodeRef k id p core = t.coreNodeRef k id q core := by
    intro id p q core hpq
    simp only [coreNodeRef, h.base, h.ttl, coreFreshness_alike hpq]
  unfold Snapshot.node
  generalize s.overlay.get k = x at hk hbase ⊢
  generalize t.overlay.get k = y at hk hbase ⊢
  cases hk with
  | none =>
    simp only [h.base, hbase, Option.bind_none]
    refine ite_congr rfl (fun _ => rfl) fun _ => ?_
    congr 1
    funext id
    cases id <;> rfl
  | @some p q hpq =>
    simp only [Option.any_some, Option.bind_some, hpq.removed, hpq.core, h.base, hbase]
    refine ite_congr rfl (fun _ => rfl) fun _ => ?_
    congr 1
    funext id
    -- only the branch of an overlay core reads more of the node
    cases q.core with
    | none => cases id <;> rfl
    | some c => simp only [Option.map_some, hcore _ p q c hpq]

theorem Alike.identity (h : s.Alike t) (id : Nat) : s.nodeIdentity id = t.nodeIdentity id := by
  simp only [nodeIdentity, h.base]

theorem Alike.segments (h : s.Alike t) (xxh3 : Bytes → UInt64) (k : UrlKey) :
    s.segments xxh3 k = t.segments xxh3 k := by
  have hk := h.overlay k
  have hbase : s.baseSegments k = t.baseSegments k := by simp only [baseSegments, h.base]
  unfold Snapshot.segments
  generalize s.overlay.get k = x at hk ⊢
  generalize t.overlay.get k = y at hk ⊢
  cases hk with
  | none => exact hbase
  | some hpq => simp only [hpq.removed, hpq.segs, hpq.severed, hbase]

theorem Alike.attrs (h : s.Alike t) (k : UrlKey) : s.attrs k = t.attrs k := by
  have hk := h.overlay k
  have hbase : s.baseAttrs k = t.baseAttrs k := by simp only [baseAttrs, h.base]
  unfold Snapshot.attrs
  generalize s.overlay.get k = x at hk ⊢
  generalize t.overlay.get k = y at hk ⊢
  cases hk with
  | none => exact hbase
  | some hpq => simp only [hpq.removed, hpq.attrs, hpq.severed, hbase]

theorem Alike.neighbors (h : s.Alike t) (k : UrlKey) : s.neighbors k = t.neighbors k := by
  have hk := h.overlay k
  have hident : s.nodeIdentity = t.nodeIdentity := funext h.identity
  have hbase : s.baseNeighbors k = t.baseNeighbors k := by
    have hrec : s.baseEdgeRef = t.baseEdgeRef := by
      funext e
      simp only [baseEdgeRef, hident]
    simp only [baseNeighbors, h.base, hrec]
  have hover : s.overlayEdgeRef = t.overlayEdgeRef := by
    funext e
    simp only [overlayEdgeRef, h.base, hident]
  unfold Snapshot.neighbors
  generalize s.overlay.get k = x at hk ⊢
  generalize t.overlay.get k = y at hk ⊢
  cases hk with
  | none => exact hbase
  | some hpq => simp only [hpq.removed, hpq.edges, hpq.severed, hbase, hover]

/-- The overlay keys, each with what it has of edges. -/
def edgeSets (s : Snapshot) : List (UrlKey × Bool × Option (List Edge)) :=
  s.overlay.entries.map fun e => (e.1, e.2.removed, e.2.edges)

theorem Alike.symm (h : s.Alike t) : t.Alike s := by
  refine ⟨h.base.symm, h.ttl.symm, fun k => ?_⟩
  have hk := h.overlay k
  generalize s.overlay.get k = x at hk
  generalize t.overlay.get k = y at hk
  cases hk with
  | none => exact .none
  | some hpq =>
    exact .some ⟨hpq.core.symm, hpq.segs.symm, hpq.edges.symm, hpq.attrs.symm, hpq.removed.symm,
      hpq.severed.symm, hpq.fresh.symm, hpq.pin.symm⟩

theorem Alike.mem_edgeSets (h : s.Alike t) {e : UrlKey × Bool × Option (List Edge)}
    (he : e ∈ s.edgeSets) : e ∈ t.edgeSets := by
  obtain ⟨⟨k, p⟩, hp, rfl⟩ := List.mem_map.mp he
  have hk := h.overlay k
  rw [SortedMap.mem_entries.mp hp] at hk
  generalize hy : t.overlay.get k = y at hk
  cases hk with
  | @some _ q hpq =>
    refine List.mem_map.mpr ⟨(k, q), SortedMap.mem_entries.mpr hy, ?_⟩
    simp only [hpq.removed, hpq.edges]

theorem Alike.edgeSets (h : s.Alike t) : s.edgeSets = t.edgeSets := by
  have hsorted : ∀ s : Snapshot, s.edgeSets.Pairwise fun a b => a.1 < b.1 := by
    intro s
    rw [Snapshot.edgeSets, List.pairwise_map]
    exact s.overlay.sorted
  exact SortedMap.eq_of_mem_iff (hsorted s) (hsorted t)
    fun e => ⟨h.mem_edgeSets, h.symm.mem_edgeSets⟩

/-- The inbound edges of the overlay read nothing but the edge sets. -/
theorem overlayInEdges_eq (s : Snapshot) (k : UrlKey) :
    s.overlayInEdges k = s.edgeSets.flatMap fun e =>
      if e.2.1 then []
      else ((e.2.2.getD []).filter fun d => d.dst = k).map fun d =>
        ⟨e.1, EdgeType.fromTag d.etype, d.eflags, d.weight⟩ := by
  rw [Snapshot.edgeSets, List.flatMap_map]
  rfl

theorem Alike.inEdges (h : s.Alike t) (k : UrlKey) : s.inEdges k = t.inEdges k := by
  have hident : s.nodeIdentity = t.nodeIdentity := funext h.identity
  have hrec : s.baseInEdge = t.baseInEdge := by
    funext e
    unfold baseInEdge
    rw [hident]
    congr 1
    funext ⟨src, url⟩
    have hany : (s.overlay.get src).any (fun p => p.edges.isSome || p.removed || p.severed)
        = (t.overlay.get src).any fun p => p.edges.isSome || p.removed || p.severed :=
      (h.overlay src).any_eq fun p q hpq => by rw [hpq.edges, hpq.removed, hpq.severed]
    simp only [hany]
  unfold Snapshot.inEdges
  rw [h.base, hrec, overlayInEdges_eq, overlayInEdges_eq, h.edgeSets]

end Snapshot

/-! ## The record twice -/

/-- A key's node is the fold of the ops on it, if there are any. -/
theorem foldKey_eq_foldl (k : UrlKey) (x : Option OverlayNode) (ops : List Op) :
    foldKey k x ops = if (ops.filter fun op => k = op.key) = [] then x
      else some ((ops.filter fun op => k = op.key).foldl OverlayNode.step (x.getD {})) := by
  induction ops generalizing x with
  | nil => rfl
  | cons op ops ih =>
    have hcons : foldKey k x (op :: ops)
        = foldKey k (if k = op.key then some ((x.getD {}).step op) else x) ops := rfl
    rw [hcons, ih]
    by_cases hk : k = op.key
    · rw [if_pos hk, List.filter_cons_of_pos (by simpa using hk), if_neg (List.cons_ne_nil _ _),
        List.foldl_cons]
      split_ifs with hnil
      · rw [hnil]
        rfl
      · rfl
    · rw [if_neg hk, List.filter_cons_of_neg (by simpa using hk)]

theorem AlikeAt.foldKey {x y : Option OverlayNode} (h : AlikeAt x y) (k : UrlKey) (ops : List Op) :
    AlikeAt (foldKey k x ops) (foldKey k y ops) := by
  induction ops using List.reverseRecOn with
  | nil => exact h
  | append_singleton ops op ih =>
    rw [foldKey_append, foldKey_append]
    generalize GraphR.foldKey k x ops = x' at ih
    generalize GraphR.foldKey k y ops = y' at ih
    show AlikeAt (if k = op.key then _ else _) (if k = op.key then _ else _)
    split_ifs
    · cases ih with
      | none => exact .refl _
      | some hpq => exact .some (hpq.step op)
    · exact ih

/-- The ops of a record folded again leave every key alike, and so does all that
    is folded after. -/
theorem alike_retried (k : UrlKey) (x : Option OverlayNode) (r c : List Op) :
    AlikeAt (foldKey k x (r ++ r ++ c)) (foldKey k x (r ++ c)) := by
  rw [foldKey_append, foldKey_append, foldKey_append k x r c]
  refine AlikeAt.foldKey ?_ k c
  rw [foldKey_eq_foldl k (GraphR.foldKey k x r), foldKey_eq_foldl k x]
  split_ifs with hnil
  · exact .refl x
  · exact .some (OverlayNode.alike_twice _ _)

/-- Over any base, after any ops `h`, a record `r` that is in the log twice reads
    like one that is there once, whatever `c` comes after. -/
theorem retry_harmless (s : Snapshot) (h r c : List Op) (k : UrlKey) :
    let twice : Snapshot := { s with ops := h ++ r ++ r ++ c }
    let once : Snapshot := { s with ops := h ++ r ++ c }
    twice.node k = once.node k ∧
      (∀ xxh3 : Bytes → UInt64, twice.segments xxh3 k = once.segments xxh3 k) ∧
      twice.neighbors k = once.neighbors k ∧ twice.inEdges k = once.inEdges k ∧
      twice.attrs k = once.attrs k ∧ twice.namedAttrs k = once.namedAttrs k := by
  intro twice once
  have halike : twice.Alike once := by
    refine ⟨rfl, rfl, fun k => ?_⟩
    have hretried := alike_retried k (GraphR.foldKey k none h) r c
    rw [← foldKey_append, ← foldKey_append] at hretried
    show AlikeAt ((OverlayView.build (h ++ r ++ r ++ c)).get k)
      ((OverlayView.build (h ++ r ++ c)).get k)
    rw [get_build, get_build]
    simpa only [List.append_assoc] using hretried
  refine ⟨halike.node k, fun xxh3 => halike.segments xxh3 k, halike.neighbors k, halike.inEdges k,
    halike.attrs k, ?_⟩
  simp only [Snapshot.namedAttrs, halike.attrs k]

/-- The nodes do differ: the second copy of an upsert and a touch carries the
    counters of the first. -/
example :
    let r : List Op := [.upsert ⟨1, 5, 7, 0, "a", none, none, none⟩,
      .touch 1 ⟨9, 1, none, none, 60, 3, 2, 9, false⟩]
    foldKey 1 none (r ++ r) ≠ foldKey 1 none r := by decide +kernel

end GraphR
