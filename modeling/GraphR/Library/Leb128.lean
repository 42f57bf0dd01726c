import GraphR.Library.Bytes

/-! # LEB128 numbers

    A number as bytes of seven bits each, lowest first, with the high bit set on all
    but the last. `value` is what such bytes stand for, whatever their length;
    `IsNumber` says that they are one number. Two numbers at the start of the same
    bytes are the same. -/

namespace LebLib

open ByteLib

/-- The value of the bytes as one number. -/
def value : Bytes → Nat
  | [] => 0
  | b :: bs => b.toNat % 128 + 128 * value bs

/-- A continuation bit on every byte but the last. -/
def IsNumber : Bytes → Prop
  | [] => False
  | [b] => b.toNat < 128
  | b :: b' :: bs => 128 ≤ b.toNat ∧ IsNumber (b' :: bs)

theorem isNumber_ne_nil {num : Bytes} (h : IsNumber num) : num ≠ [] := by
  rintro rfl
  exact h

/-- A number is its last byte, or a byte with the bit and a number. -/
theorem isNumber_cons {b : UInt8} {bs : Bytes} :
    IsNumber (b :: bs) ↔ b.toNat < 128 ∧ bs = [] ∨ 128 ≤ b.toNat ∧ IsNumber bs := by
  cases bs with
  | nil => simp [IsNumber]
  | cons b' bs => simp [IsNumber]

theorem isNumber_append_inj {num num' rest rest' : Bytes} (h : IsNumber num) (h' : IsNumber num')
    (heq : num ++ rest = num' ++ rest') : num = num' ∧ rest = rest' := by
  induction num generalizing num' with
  | nil => exact absurd rfl (isNumber_ne_nil h)
  | cons b bs ih =>
    cases num' with
    | nil => exact absurd rfl (isNumber_ne_nil h')
    | cons b' bs' =>
      obtain ⟨rfl, htail⟩ := List.cons_eq_cons.mp heq
      rcases isNumber_cons.mp h with ⟨hlast, rfl⟩ | ⟨hmore, hbs⟩
      · -- the byte ends both numbers
        rcases isNumber_cons.mp h' with ⟨-, rfl⟩ | ⟨hmore', -⟩
        · exact ⟨rfl, htail⟩
        · omega
      · rcases isNumber_cons.mp h' with ⟨hlast', -⟩ | ⟨-, hbs'⟩
        · omega
        · obtain ⟨rfl, hrest⟩ := ih hbs hbs' htail
          exact ⟨rfl, hrest⟩

/-- `n` bytes hold `7 n` bits. -/
theorem value_lt (bs : Bytes) : value bs < 128 ^ bs.length := by
  induction bs with
  | nil => exact Nat.one_pos
  | cons b bs ih =>
    have hlow : b.toNat % 128 < 128 := Nat.mod_lt _ (by decide)
    rw [value, List.length_cons, Nat.pow_succ]
    omega

/-- The bytes of a number, each with the bytes after it. -/
theorem value_append (as bs : Bytes) :
    value (as ++ bs) = value as + 128 ^ as.length * value bs := by
  induction as with
  | nil => simp [value]
  | cons a as ih =>
    rw [List.cons_append, value, value, ih, List.length_cons, Nat.pow_succ]
    ring

/-! ## Bits -/

theorem cont_bit (b : UInt8) : b &&& 0x80 = 0 ↔ b.toNat < 128 := by
  have hbits : ∀ i : Fin 256, i.val &&& 128 = 0 ↔ i.val < 128 := by decide +kernel
  rw [← UInt8.toNat_inj, UInt8.toNat_and]
  exact hbits ⟨b.toNat, b.toNat_lt⟩

theorem payload_bits (b : UInt8) : (b &&& 0x7f).toNat = b.toNat % 128 := by
  rw [UInt8.toNat_and]
  exact Nat.and_two_pow_sub_one_eq_mod b.toNat 7

/-- Seven more bits above `s` lower ones; what does not fit in 64 bits is lost. -/
theorem or_shift {v : UInt64} {b : UInt8} {s : Nat} (hs : s < 64) (hv : v.toNat < 2 ^ s) :
    (v ||| (b &&& 0x7f).toUInt64 <<< UInt64.ofNat s).toNat
      = v.toNat + (b.toNat % 128 * 2 ^ s) % 2 ^ 64 := by
  have hshift : (UInt64.ofNat s).toNat % 64 = s := by
    rw [UInt64.toNat_ofNat', Nat.mod_eq_of_lt (by omega : s < 2 ^ 64)]
    exact Nat.mod_eq_of_lt hs
  -- the bits kept are a multiple of `2 ^ s`
  have hkept : (b.toNat % 128 * 2 ^ s) % 2 ^ 64 = 2 ^ s * (b.toNat % 128 % 2 ^ (64 - s)) := by
    have hsplit : 2 ^ 64 = 2 ^ s * 2 ^ (64 - s) := by
      rw [← Nat.pow_add]
      congr 1
      omega
    rw [hsplit, Nat.mul_comm (b.toNat % 128), Nat.mul_mod_mul_left]
  rw [UInt64.toNat_or, UInt64.toNat_shiftLeft, UInt8.toNat_toUInt64, payload_bits, hshift,
    Nat.shiftLeft_eq, hkept, Nat.or_comm, ← Nat.two_pow_add_eq_or_of_lt hv, Nat.add_comm]

end LebLib
