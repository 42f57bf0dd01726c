import GraphR.Format.Basic

/-! # Adaptive freshness

    The revalidation policy: integer arithmetic with explicit clamps. The
    source computes in `u64` and panics on overflow, on underflow and on a clamp
    whose bounds are crossed; those are the faults here (`none`). -/

namespace GraphR

/-! ## Arithmetic that may fault -/

/-- `a * b` in `u64`. -/
def ckMul (a b : Nat) : Option Nat := if a * b < 2 ^ 64 then some (a * b) else none

/-- `a - b`. -/
def ckSub (a b : Nat) : Option Nat := if b ≤ a then some (a - b) else none

theorem ckMul_of_lt {a b : Nat} (h : a * b < 2 ^ 64) : ckMul a b = some (a * b) := if_pos h

theorem ckSub_of_le {a b : Nat} (h : b ≤ a) : ckSub a b = some (a - b) := if_pos h

/-! ## The policy -/

structure TtlConfig where
  baseS : UInt32
  minS : UInt32
  maxS : UInt32
  growNum : UInt32
  growDen : UInt32
  cutNum : UInt32
  cutDen : UInt32
  importanceBiasPermille : UInt32
  deriving DecidableEq

namespace TtlConfig

/-- The default policy. -/
def default : TtlConfig :=
  { baseS := 21600, minS := 900, maxS := 2592000, growNum := 3, growDen := 2, cutNum := 1,
    cutDen := 4, importanceBiasPermille := 500 }

variable (cfg : TtlConfig)

/-- `v.clamp(min_s, max_s)`, which panics when the bounds are crossed. -/
def clamp (v : Nat) : Option UInt32 :=
  if cfg.maxS < cfg.minS then none
  else some (UInt32.ofNat (max cfg.minS.toNat (min v cfg.maxS.toNat)))

/-- The next stored interval after observing `outcome`. -/
def nextInterval (intervalS : UInt32) (outcome : Outcome) : Option UInt32 :=
  match outcome with
  | .unchanged => cfg.clamp (intervalS.toNat * cfg.growNum.toNat / (max cfg.growDen 1).toNat)
  | .changed => cfg.clamp (intervalS.toNat * cfg.cutNum.toNat / (max cfg.cutDen 1).toNat)
  | .error => some cfg.minS
  | .gone => some intervalS

/-- When a node is next due, given its rank percentile in permille. -/
def nextCheckAtMs (fetchedAtMs : UInt64) (intervalS : UInt32) (rankPermille : UInt16) :
    Option UInt64 := do
  let bias := min cfg.importanceBiasPermille.toNat 1000
  let mult ← ckSub 1000 (bias * min rankPermille.toNat 1000 / 1000)
  let ms ← ckMul intervalS.toNat 1000
  let scaled ← ckMul ms mult
  some (UInt64.ofNat (min (fetchedAtMs.toNat + scaled / 1000) (2 ^ 64 - 1)))

/-- Scheduling never overflows. -/
theorem nextCheckAtMs_isSome (fetchedAtMs : UInt64) (intervalS : UInt32) (rankPermille : UInt16) :
    (cfg.nextCheckAtMs fetchedAtMs intervalS rankPermille).isSome := by
  have hivl : intervalS.toNat < 2 ^ 32 := intervalS.toNat_lt
  have hbias : min cfg.importanceBiasPermille.toNat 1000 ≤ 1000 := Nat.min_le_right _ _
  have hrank : min rankPermille.toNat 1000 ≤ 1000 := Nat.min_le_right _ _
  have hmult : min cfg.importanceBiasPermille.toNat 1000 * min rankPermille.toNat 1000 / 1000 ≤ 1000 := by
    calc min cfg.importanceBiasPermille.toNat 1000 * min rankPermille.toNat 1000 / 1000
        ≤ 1000 * 1000 / 1000 := Nat.div_le_div_right (Nat.mul_le_mul hbias hrank)
      _ = 1000 := rfl
  have hscaled : intervalS.toNat * 1000 *
      (1000 - min cfg.importanceBiasPermille.toNat 1000 * min rankPermille.toNat 1000 / 1000)
        < 2 ^ 64 := by
    calc intervalS.toNat * 1000 *
          (1000 - min cfg.importanceBiasPermille.toNat 1000 * min rankPermille.toNat 1000 / 1000)
        ≤ intervalS.toNat * 1000 * 1000 := Nat.mul_le_mul_left _ (Nat.sub_le _ _)
      _ < 2 ^ 64 := by omega
  simp only [nextCheckAtMs]
  rw [ckSub_of_le hmult]
  simp only [Option.bind_eq_bind, Option.bind_some]
  rw [ckMul_of_lt (by omega)]
  simp only [Option.bind_some]
  rw [ckMul_of_lt hscaled]
  rfl

end TtlConfig

end GraphR
