import GraphR.Library.SortedMap
import GraphR.Format.Wal.Views

/-! # The committed-op overlay

    What a snapshot folds of the ops above its base: one `OverlayNode` per key,
    in op order. The source keeps references into the record bytes and resolves
    them on each read; here a node holds the decoded op, which is what the
    reference resolves to. -/

namespace GraphR

open Wal

/-- The bit of a flag word. -/
def hasFlag (flags bit : UInt16) : Bool := flags &&& bit != 0

section flags
variable (f : UInt16) {a bit : UInt16}

theorem or_and_distrib (a b c : UInt16) : (a ||| b) &&& c = (a &&& c) ||| (b &&& c) := by
  apply UInt16.toBitVec_inj.1
  simp only [UInt16.toBitVec_and, UInt16.toBitVec_or]
  ext i
  simp [Bool.and_or_distrib_right]

theorem hasFlag_or_self (h : bit ≠ 0) : hasFlag (f ||| bit) bit = true := by
  unfold hasFlag
  rw [or_and_distrib, UInt16.and_self, bne_iff_ne, Ne, UInt16.or_eq_zero_iff]
  exact fun h0 => h h0.2

theorem hasFlag_or_other (h : a &&& bit = 0) : hasFlag (f ||| a) bit = hasFlag f bit := by
  unfold hasFlag
  rw [or_and_distrib, h, UInt16.or_zero]

theorem hasFlag_and_not_self : hasFlag (f &&& ~~~bit) bit = false := by
  have h0 : ~~~bit &&& bit = 0 := by
    apply UInt16.toBitVec_inj.1
    simp only [UInt16.toBitVec_and, UInt16.toBitVec_not]
    ext i
    simp
  unfold hasFlag
  rw [UInt16.and_assoc, h0, UInt16.and_zero]
  rfl

theorem hasFlag_and_not_other (h : ~~~a &&& bit = bit) :
    hasFlag (f &&& ~~~a) bit = hasFlag f bit := by
  unfold hasFlag
  rw [UInt16.and_assoc, h]

end flags

/-- The folded per-key effect of the overlay ops visible to one snapshot. -/
structure OverlayNode where
  /-- Last upsert. -/
  core : Option Upsert := none
  /-- Last segment set. -/
  segs : Option (List SegView) := none
  /-- Last edge set. -/
  edges : Option (List Edge) := none
  /-- Last attribute set. -/
  attrs : Option (List (UInt8 × String)) := none
  /-- Last touch since the last upsert. -/
  touch : Option TouchRecord := none
  /-- Freshness counters carried across an upsert: checks, changes, last
      change. -/
  carried : Option (UInt16 × UInt16 × UInt64) := none
  pinned : Option Bool := none
  removed : Bool := false
  /-- A remove happened in this overlay: a later upsert must not inherit the
      base record's history or pin. -/
  severed : Bool := false
  deriving DecidableEq

namespace OverlayNode

/-- The pin state after an upsert: explicit state ORs with it; otherwise a pin
    can only be proven here, never disproven. -/
def foldedPin (e : OverlayNode) (u : Upsert) : Option Bool :=
  let upsertPin := hasFlag u.flags nflags.pinned
  let priorCorePin := e.core.any fun c => hasFlag c.flags nflags.pinned
  match e.pinned with
  | some prev => some (upsertPin || prev)
  | none => if upsertPin || priorCorePin then some true else none

/-- One op folded into its key's node. -/
def step (e : OverlayNode) : Op → OverlayNode
  | .upsert u =>
    { e with
      removed := false
      carried :=
        match e.touch with
        | some t => some (t.checks, t.changes, t.lastChangeMs)
        | none => e.carried
      touch := none
      core := some u
      pinned := e.foldedPin u }
  | .segs _ s => { e with segs := some s }
  | .edges _ es => { e with edges := some es }
  | .attrs _ as => { e with attrs := some as }
  | .touch _ t => { e with touch := some t }
  | .remove _ => { removed := true, severed := true }
  | .pin _ pinned => { e with pinned := some pinned }

end OverlayNode

/-- Merged overlay view: key to folded state, in op order. -/
abbrev OverlayView : Type := SortedMap UrlKey OverlayNode

namespace OverlayView

/-- Fold one op in. -/
def apply (m : OverlayView) (op : Op) : OverlayView :=
  m.update op.key fun e => (e.getD {}).step op

def build (ops : List Op) : OverlayView := ops.foldl apply SortedMap.empty

end OverlayView

/-- The node of one key, folded from the ops on it alone. -/
def foldKey (k : UrlKey) (e : Option OverlayNode) (ops : List Op) : Option OverlayNode :=
  ops.foldl (fun e op => if k = op.key then some ((e.getD {}).step op) else e) e

theorem foldKey_append (k : UrlKey) (e : Option OverlayNode) (ops ops' : List Op) :
    foldKey k e (ops ++ ops') = foldKey k (foldKey k e ops) ops' :=
  List.foldl_append

theorem get_foldl_apply (m : OverlayView) (ops : List Op) (k : UrlKey) :
    (ops.foldl OverlayView.apply m).get k = foldKey k (m.get k) ops := by
  induction ops generalizing m with
  | nil => rfl
  | cons op ops ih =>
    rw [List.foldl_cons, ih, OverlayView.apply, SortedMap.get_update, foldKey, foldKey,
      List.foldl_cons]
    by_cases hk : k = op.key
    · rw [if_pos hk, if_pos hk, hk]
    · rw [if_neg hk, if_neg hk]

/-- A key's node in the view depends on the ops on that key only. -/
theorem get_build (ops : List Op) (k : UrlKey) :
    (OverlayView.build ops).get k = foldKey k none ops := by
  rw [OverlayView.build, get_foldl_apply]
  rfl

end GraphR
