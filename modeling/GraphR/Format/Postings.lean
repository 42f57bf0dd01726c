import GraphR.Format.BaseFile
import GraphR.Library.Leb128

/-! # Varints and postings

    A token's node ids are kept as the gaps between them, each a LEB128 varint. The
    reader takes ten bytes at most and shifts them into 64 bits: the tenth has room
    for one bit, and what more it holds is lost (`varint_exact_iff`). The ids a run
    decodes to ascend whatever the gaps are (`postings_codec`). -/

namespace GraphR.BaseFile

open ByteLib LebLib

/-! ## Varints -/

/-- An unsigned LEB128 varint of `left` bytes at most, and what follows it; `none`
    where it is cut short or overlong. -/
def varintGo : Nat → Nat → UInt64 → Bytes → Option (UInt64 × Bytes)
  | 0, _, _, _ => none
  | _ + 1, _, _, [] => none
  | left + 1, shift, v, byte :: rest =>
    let v' := v ||| ((byte &&& 0x7f).toUInt64 <<< UInt64.ofNat shift)
    if byte &&& 0x80 = 0 then some (v', rest) else varintGo left (shift + 7) v' rest

def varint (bs : Bytes) : Option (UInt64 × Bytes) := varintGo 10 0 0 bs

/-- Append an unsigned LEB128 varint. -/
def putVarint (v : UInt64) : Bytes :=
  let byte := (v &&& 0x7f).toUInt8
  if h : v >>> 7 = 0 then [byte] else (byte ||| 0x80) :: putVarint (v >>> 7)
termination_by v.toNat
decreasing_by
  have hne : (v >>> 7).toNat ≠ 0 := fun hz => h (UInt64.toNat_inj.mp hz)
  rw [UInt64.toNat_shiftRight] at hne ⊢
  simp only [UInt64.reduceToNat, Nat.reduceMod, Nat.shiftRight_eq_div_pow] at hne ⊢
  omega

section varint
variable {left shift : Nat} {v : UInt64} {num rest bs : Bytes}

/-- What is read is one number, of the bytes there are room for. -/
theorem number_of_varintGo {w : UInt64} (h : varintGo left shift v bs = some (w, rest)) :
    ∃ num, bs = num ++ rest ∧ IsNumber num ∧ num.length ≤ left := by
  induction left generalizing shift v bs with
  | zero => cases h
  | succ left ih =>
    cases bs with
    | nil => cases h
    | cons b bs =>
      rw [varintGo] at h
      by_cases hlast : b &&& 0x80 = 0
      · rw [if_pos hlast] at h
        cases h
        exact ⟨[b], rfl, (cont_bit b).mp hlast, Nat.succ_le_succ (Nat.zero_le _)⟩
      · rw [if_neg hlast] at h
        obtain ⟨num, rfl, hnum, hlen⟩ := ih h
        refine ⟨b :: num, rfl, isNumber_cons.mpr (.inr ⟨?_, hnum⟩), Nat.succ_le_succ hlen⟩
        exact not_lt.mp fun hlt => hlast ((cont_bit b).mpr hlt)

/-- A number there is room for is read, its value shifted onto the bits so far and cut
    to 64 bits. -/
theorem varintGo_number (hnum : IsNumber num) (hlen : num.length ≤ left)
    (hshift : shift + 7 * left ≤ 70) (hv : v.toNat < 2 ^ shift) :
    ∃ w, varintGo left shift v (num ++ rest) = some (w, rest) ∧
      w.toNat = (v.toNat + 2 ^ shift * value num) % 2 ^ 64 := by
  induction left generalizing shift v num with
  | zero =>
    rw [Nat.le_zero, List.length_eq_zero_iff] at hlen
    exact absurd hlen (isNumber_ne_nil hnum)
  | succ left ih =>
    cases num with
    | nil => exact absurd rfl (isNumber_ne_nil hnum)
    | cons b bs =>
      have hs : shift < 64 := by omega
      have hor := @or_shift v b shift hs hv
      have hcut : (v ||| (b &&& 0x7f).toUInt64 <<< UInt64.ofNat shift).toNat
          = (v.toNat + b.toNat % 128 * 2 ^ shift) % 2 ^ 64 := by
        rw [← Nat.mod_eq_of_lt (UInt64.toNat_lt _), hor, Nat.add_mod_mod]
      rw [List.cons_append, varintGo]
      rcases isNumber_cons.mp hnum with ⟨hlast, rfl⟩ | ⟨hmore, hbs⟩
      · rw [if_pos ((cont_bit b).mpr hlast)]
        refine ⟨_, rfl, ?_⟩
        rw [hcut, value, value, Nat.mul_zero, Nat.add_zero, Nat.mul_comm (2 ^ shift)]
      · rw [if_neg fun hz => absurd ((cont_bit b).mp hz) (by omega)]
        have hroom : shift + 7 < 64 := by
          have hpos := List.length_pos_iff.mpr (isNumber_ne_nil hbs)
          rw [List.length_cons] at hlen
          omega
        -- a byte with more to come fits below the next shift
        have hfits : (v ||| (b &&& 0x7f).toUInt64 <<< UInt64.ofNat shift).toNat
            < 2 ^ (shift + 7) := by
          have hlow : b.toNat % 128 + 1 ≤ 128 := Nat.mod_lt _ (by decide)
          have hmul := Nat.mul_le_mul_right (2 ^ shift) hlow
          have hpow : 2 ^ (shift + 7) = 128 * 2 ^ shift := by
            rw [Nat.pow_add, Nat.mul_comm]
          have hle := Nat.mod_le (b.toNat % 128 * 2 ^ shift) (2 ^ 64)
          rw [hor, hpow]
          rw [Nat.add_mul] at hmul
          omega
        obtain ⟨w, hw, hval⟩ := ih hbs (Nat.le_of_succ_le_succ hlen) (by omega) hfits
        refine ⟨w, hw, ?_⟩
        rw [hval, hcut, Nat.mod_add_mod, value, Nat.pow_add]
        congr 1
        ring

end varint

/-- A number of ten bytes whose last holds more than the one bit there is room for. -/
structure Overfull (bs : Bytes) : Prop where
  length : 10 ≤ bs.length
  more : ∀ i < 9, 128 ≤ (byteAt bs i).toNat
  last : 2 ≤ (byteAt bs 9).toNat ∧ (byteAt bs 9).toNat < 128

theorem isNumber_take {bs : Bytes} {n : Nat} (hlen : n < bs.length)
    (hmore : ∀ i < n, 128 ≤ (byteAt bs i).toNat) (hlast : (byteAt bs n).toNat < 128) :
    IsNumber (bs.take (n + 1)) := by
  induction n generalizing bs with
  | zero =>
    cases bs with
    | nil => simp at hlen
    | cons b bs => exact hlast
  | succ n ih =>
    cases bs with
    | nil => simp at hlen
    | cons b bs =>
      refine isNumber_cons.mpr (.inr ⟨hmore 0 (Nat.succ_pos n), ih (Nat.lt_of_succ_lt_succ hlen) ?_ ?_⟩)
      · exact fun i hi => hmore (i + 1) (Nat.succ_lt_succ hi)
      · exact hlast

/-- Every byte of a number but the last has the continuation bit. -/
theorem bytes_of_number {num : Bytes} (h : IsNumber num) :
    (∀ i, i + 1 < num.length → 128 ≤ (byteAt num i).toNat) ∧
      (byteAt num (num.length - 1)).toNat < 128 := by
  induction num with
  | nil => exact absurd rfl (isNumber_ne_nil h)
  | cons b bs ih =>
    rcases isNumber_cons.mp h with ⟨hlast, rfl⟩ | ⟨hmore, hbs⟩
    · refine ⟨?_, hlast⟩
      intro i hi
      simp at hi
    · obtain ⟨hrest, hend⟩ := ih hbs
      have hpos := List.length_pos_iff.mpr (isNumber_ne_nil hbs)
      refine ⟨?_, ?_⟩
      · intro i hi
        cases i with
        | zero => exact hmore
        | succ i => exact hrest i (by simpa using hi)
      · have hidx : (b :: bs).length - 1 = bs.length - 1 + 1 := by
          rw [List.length_cons]
          omega
        rw [hidx, byteAt_cons_succ]
        exact hend

/-- Ten bytes hold a number past 64 bits exactly when the tenth is past one bit. -/
theorem value_ten {num : Bytes} (hlen : num.length = 10) :
    value num < 2 ^ 64 ↔ (byteAt num 9).toNat % 128 < 2 := by
  have hsplit : num = num.take 9 ++ [byteAt num 9] := by
    have hdrop : num.drop 9 = [byteAt num 9] := by
      rw [List.drop_eq_getElem_cons (by omega), List.drop_eq_nil_of_le (by omega), byteAt,
        List.getD_eq_getElem?_getD, List.getElem?_eq_getElem (by omega), Option.getD_some]
    rw [← hdrop, List.take_append_drop]
  have hlow := value_lt (num.take 9)
  have htake : (num.take 9).length = 9 := by
    rw [List.length_take]
    omega
  have hval : value num = value (num.take 9) + 2 ^ 63 * ((byteAt num 9).toNat % 128) := by
    conv_lhs => rw [hsplit]
    rw [value_append, htake, value, value]
    norm_num
  rw [htake] at hlow
  rw [hval]
  norm_num at hlow ⊢
  omega

theorem putVarint_eq (v : UInt64) : putVarint v = if v.toNat < 128 then [UInt8.ofNat v.toNat]
    else UInt8.ofNat (v.toNat % 128 + 128) :: putVarint (v >>> 7) := by
  have hshift : (v >>> 7).toNat = v.toNat / 128 := by
    rw [UInt64.toNat_shiftRight]
    simp [Nat.shiftRight_eq_div_pow]
  have hlow : (v &&& 0x7f).toUInt8.toNat = v.toNat % 128 := by
    have hand : (v &&& 0x7f).toNat = v.toNat % 128 := by
      rw [UInt64.toNat_and]
      exact Nat.and_two_pow_sub_one_eq_mod v.toNat 7
    rw [UInt64.toNat_toUInt8, hand]
    omega
  have hor : ((v &&& 0x7f).toUInt8 ||| 0x80).toNat = v.toNat % 128 + 128 := by
    have hlt : v.toNat % 128 < 2 ^ 7 := Nat.mod_lt _ (by decide)
    have hhigh : (0x80 : UInt8).toNat = 2 ^ 7 * 1 := rfl
    rw [UInt8.toNat_or, hlow, hhigh, Nat.or_comm, ← Nat.two_pow_add_eq_or_of_lt hlt]
    omega
  rw [putVarint]
  by_cases hsmall : v.toNat < 128
  · have hzero : v >>> 7 = 0 := by
      rw [← UInt64.toNat_inj, hshift]
      exact Nat.div_eq_of_lt hsmall
    rw [dif_pos hzero, if_pos hsmall]
    congr 1
    rw [← UInt8.toNat_inj, hlow, UInt8.toNat_ofNat']
    omega
  · have hmore : v >>> 7 ≠ 0 := by
      intro hz
      rw [← UInt64.toNat_inj, hshift] at hz
      have hz' : v.toNat / 128 = 0 := hz
      omega
    rw [dif_neg hmore, if_neg hsmall]
    congr 1
    rw [← UInt8.toNat_inj, hor, UInt8.toNat_ofNat']
    omega

/-- What is written is one number, of ten bytes at most, with the value. -/
theorem putVarint_spec (n : Nat) : ∀ v : UInt64, v.toNat < 128 ^ (n + 1) →
    IsNumber (putVarint v) ∧ (putVarint v).length ≤ n + 1 ∧ value (putVarint v) = v.toNat := by
  induction n with
  | zero =>
    intro v hv
    have hbyte : (UInt8.ofNat v.toNat).toNat = v.toNat := by
      rw [UInt8.toNat_ofNat']
      omega
    rw [putVarint_eq, if_pos (by simpa using hv)]
    refine ⟨?_, le_rfl, ?_⟩
    · show (UInt8.ofNat v.toNat).toNat < 128
      omega
    · rw [value, value, hbyte]
      omega
  | succ n ih =>
    intro v hv
    rw [putVarint_eq]
    by_cases hsmall : v.toNat < 128
    · have hbyte : (UInt8.ofNat v.toNat).toNat = v.toNat := by
        rw [UInt8.toNat_ofNat']
        omega
      rw [if_pos hsmall]
      refine ⟨?_, by simp, ?_⟩
      · show (UInt8.ofNat v.toNat).toNat < 128
        omega
      · rw [value, value, hbyte]
        omega
    · have hshift : (v >>> 7).toNat = v.toNat / 128 := by
        rw [UInt64.toNat_shiftRight]
        simp [Nat.shiftRight_eq_div_pow]
      have hbyte : (UInt8.ofNat (v.toNat % 128 + 128)).toNat = v.toNat % 128 + 128 := by
        rw [UInt8.toNat_ofNat']
        omega
      obtain ⟨hnum, hlen, hval⟩ := ih (v >>> 7) (by
        rw [hshift]
        rw [Nat.pow_succ] at hv
        exact Nat.div_lt_of_lt_mul (by rwa [Nat.mul_comm]))
      rw [if_neg hsmall]
      refine ⟨isNumber_cons.mpr (.inr ⟨by omega, hnum⟩), ?_, ?_⟩
      · rw [List.length_cons]
        omega
      · rw [value, hval, hshift, hbyte]
        omega

theorem varint_putVarint (v : UInt64) (rest : Bytes) :
    varint (putVarint v ++ rest) = some (v, rest) := by
  have hfit : v.toNat < 128 ^ (9 + 1) := by
    have hlt := v.toNat_lt
    norm_num
    omega
  obtain ⟨hnum, hlen, hval⟩ := putVarint_spec 9 v hfit
  obtain ⟨w, hw, hwval⟩ := @varintGo_number 10 0 0 _ rest hnum hlen (by decide) (by decide)
  rw [varint, hw]
  congr 2
  rw [← UInt64.toNat_inj, hwval, hval]
  simp [Nat.mod_eq_of_lt v.toNat_lt]

/-- Varint decoding is exact on everything but an overfull number: what is read is one
    number at the start of the bytes, with its value, if and only if the bytes do not
    start with a ten-byte number whose last byte is past 1. And every value written
    reads back, with what follows it left. -/
theorem varint_exact_iff (bs : Bytes) :
    ((∀ v rest, varint bs = some (v, rest) →
      ∃ num, bs = num ++ rest ∧ IsNumber num ∧ value num = v.toNat) ↔ ¬Overfull bs) ∧
    ∀ (v : UInt64) (rest : Bytes), varint (putVarint v ++ rest) = some (v, rest) := by
  refine ⟨?_, varint_putVarint⟩
  constructor
  · intro hexact hover
    have hlen := hover.length
    have hnum := isNumber_take (by omega : 9 < bs.length) hover.more hover.last.2
    have htake : (bs.take 10).length = 10 := by
      rw [List.length_take]
      omega
    obtain ⟨w, hw, hwval⟩ := @varintGo_number 10 0 0 _ (bs.drop 10) hnum (Nat.le_of_eq htake)
      (by decide) (by decide)
    rw [List.take_append_drop] at hw
    obtain ⟨num, hsplit, hnum', hval⟩ := hexact w _ hw
    have hsame := (isNumber_append_inj hnum hnum' ((List.take_append_drop 10 bs).trans hsplit)).1
    have hlt : value (bs.take 10) < 2 ^ 64 := by
      rw [hsame, hval]
      exact w.toNat_lt
    rw [value_ten htake, byteAt_take (by decide)] at hlt
    have hlast := hover.last
    omega
  · intro hfits v rest hread
    obtain ⟨num, rfl, hnum, hlen⟩ := number_of_varintGo hread
    obtain ⟨w, hw, hwval⟩ := @varintGo_number 10 0 0 _ rest hnum hlen (by decide) (by decide)
    rw [varint, hw] at hread
    cases hread
    refine ⟨num, rfl, hnum, ?_⟩
    have hlt : value num < 2 ^ 64 := by
      rcases Nat.lt_or_eq_of_le hlen with hshort | hten
      · -- nine bytes hold 63 bits
        have hpow : 128 ^ num.length ≤ 128 ^ 9 := Nat.pow_le_pow_right (by decide) (by omega)
        have hval := value_lt num
        norm_num at hpow ⊢
        omega
      · rw [value_ten hten]
        by_contra hbig
        obtain ⟨hmore, hlast⟩ := bytes_of_number hnum
        rw [hten] at hmore hlast
        have hget : ∀ i < 10, byteAt (num ++ rest) i = byteAt num i :=
          fun i hi => byteAt_append_left (by omega)
        refine hfits ⟨?_, ?_, ?_⟩
        · rw [List.length_append]
          omega
        · intro i hi
          rw [hget i (by omega)]
          exact hmore i (by omega)
        · rw [hget 9 (by decide)]
          have hlast' : (byteAt num 9).toNat < 128 := hlast
          omega
    rw [hwval, Nat.pow_zero, Nat.one_mul, UInt64.toNat_zero, Nat.zero_add, Nat.mod_eq_of_lt hlt]

/-- Nine bytes of continuation and a 2 stand for `2 ^ 64`, and read as 0. -/
theorem varint_truncates :
    varint (List.replicate 9 0x80 ++ [2]) = some (0, []) ∧
      IsNumber (List.replicate 9 0x80 ++ [2]) ∧ value (List.replicate 9 0x80 ++ [2]) = 2 ^ 64 := by
  refine ⟨by decide +kernel, ?_, by decide +kernel⟩
  exact @isNumber_take (List.replicate 9 0x80 ++ [2]) 9 (by decide) (by decide) (by decide)

/-! ## Postings -/

/-- The node ids of a postings run from what follows `prev` on: gaps, so that ids
    ascend; `fuel` varints at most. A sum past `u64::MAX` is past `u32::MAX` too. -/
def decodeGo : Nat → Option Nat → Bytes → Option (List Nat)
  | _, _, [] => some []
  | 0, _, _ :: _ => none
  | fuel + 1, prev, b :: bs => do
    let read ← varint (b :: bs)
    let id := prev.elim read.1.toNat fun p => p + 1 + read.1.toNat
    if 0xFFFFFFFF < id then none
    else do
      let ids ← decodeGo fuel (some id) read.2
      some (id :: ids)

/-- Decode a postings run; each varint takes a byte at least. -/
def decodePostings (bs : Bytes) : Option (List Nat) := decodeGo bs.length none bs

/-- `u64::checked_add`. -/
def checkedAdd (a b : UInt64) : Option UInt64 :=
  if a.toNat + b.toNat < 2 ^ 64 then some (a + b) else none

/-- The id a gap leads to. -/
def nextId (prev : Option UInt64) (delta : UInt64) : Option UInt64 :=
  match prev with
  | none => some delta
  | some p => do
    let v ← checkedAdd p 1
    checkedAdd v delta

/-- `decodeGo` in machine words: the sums checked, the ids cast to `u32`. -/
def decodeWordsGo : Nat → Option UInt64 → Bytes → Option (List UInt32)
  | _, _, [] => some []
  | 0, _, _ :: _ => none
  | fuel + 1, prev, b :: bs => do
    let read ← varint (b :: bs)
    let id ← nextId prev read.1
    if 0xFFFFFFFF < id then none
    else do
      let ids ← decodeWordsGo fuel (some id) read.2
      some (id.toUInt32 :: ids)

/-- `decodePostings` in machine words. -/
def decodeWords (bs : Bytes) : Option (List UInt32) := decodeWordsGo bs.length none bs

/-- `u32` subtraction, checked. -/
def checkedSub (a b : UInt32) : Option UInt32 := if b ≤ a then some (a - b) else none

/-- The gap before an id. -/
def gap (prev : Option UInt32) (id : UInt32) : Option UInt64 :=
  match prev with
  | none => some id.toUInt64
  | some p => do
    let d ← checkedSub id p
    let d ← checkedSub d 1
    some d.toUInt64

/-- Encode the ids after `prev`; `none` where a subtraction underflows. -/
def encodeFrom : Option UInt32 → List UInt32 → Option Bytes
  | _, [] => some []
  | prev, id :: ids => do
    let delta ← gap prev id
    let rest ← encodeFrom (some id) ids
    some (putVarint delta ++ rest)

/-- Encode a postings run. -/
def encodePostings (ids : List UInt32) : Option Bytes := encodeFrom none ids

section postings

theorem checkedAdd_eq_some {a b c : UInt64} :
    checkedAdd a b = some c ↔ c.toNat = a.toNat + b.toNat := by
  unfold checkedAdd
  have hadd : (a + b).toNat = (a.toNat + b.toNat) % 2 ^ 64 := UInt64.toNat_add a b
  by_cases hfit : a.toNat + b.toNat < 2 ^ 64
  · rw [if_pos hfit, Option.some.injEq, ← UInt64.toNat_inj, hadd, Nat.mod_eq_of_lt hfit, eq_comm]
  · rw [if_neg hfit]
    have hlt := c.toNat_lt
    simp only [reduceCtorEq, false_iff]
    omega

/-- The next id of the machine words is the exact sum, where that fits. -/
theorem nextId_eq_some {prev : Option UInt64} {delta id : UInt64} : nextId prev delta = some id ↔
    id.toNat = (prev.map UInt64.toNat).elim delta.toNat fun p => p + 1 + delta.toNat := by
  cases prev with
  | none =>
    rw [nextId, Option.some.injEq, ← UInt64.toNat_inj, eq_comm]
    rfl
  | some p =>
    rw [nextId, Option.bind_eq_bind, Option.bind_eq_some_iff]
    simp only [checkedAdd_eq_some, Option.map_some, Option.elim_some]
    constructor
    · rintro ⟨v, hv, hid⟩
      rw [hid, hv]
      rfl
    · intro hid
      have hlt := id.toNat_lt
      have hone : (1 : UInt64).toNat = 1 := rfl
      refine ⟨UInt64.ofNat (p.toNat + 1), ?_, ?_⟩
      · rw [UInt64.toNat_ofNat', hone]
        omega
      · rw [hid, UInt64.toNat_ofNat']
        omega

/-- Machine words decode what exact numbers do. -/
theorem decodeWordsGo_eq (fuel : Nat) (prev : Option UInt64) (bs : Bytes) :
    (decodeWordsGo fuel prev bs).map (List.map UInt32.toNat)
      = decodeGo fuel (prev.map UInt64.toNat) bs := by
  induction fuel generalizing prev bs with
  | zero => cases bs <;> rfl
  | succ fuel ih =>
    cases bs with
    | nil => rfl
    | cons b bs =>
      rw [decodeWordsGo, decodeGo]
      cases hread : varint (b :: bs) with
      | none => rfl
      | some read =>
        simp only [Option.bind_eq_bind, Option.bind_some]
        set exact := (prev.map UInt64.toNat).elim read.1.toNat fun p => p + 1 + read.1.toNat
          with hexact
        cases hid : nextId prev read.1 with
        | none =>
          -- the sum is past 64 bits, hence past 32
          have hbig : 0xFFFFFFFF < exact := by
            by_contra hsmall
            have hsome : nextId prev read.1 = some (UInt64.ofNat exact) := by
              rw [nextId_eq_some, ← hexact, UInt64.toNat_ofNat']
              omega
            rw [hid] at hsome
            cases hsome
          rw [if_pos hbig]
          rfl
        | some id =>
          have hval : id.toNat = exact := nextId_eq_some.mp hid
          simp only [Option.bind_some]
          by_cases hbig : 0xFFFFFFFF < id
          · rw [if_pos hbig, if_pos (by rw [← hval]; exact UInt64.lt_iff_toNat_lt.mp hbig)]
            rfl
          · have hsmall : ¬0xFFFFFFFF < exact := by
              rw [← hval]
              exact fun h => hbig (UInt64.lt_iff_toNat_lt.mpr h)
            have hrest := ih (some id) read.2
            rw [Option.map_some, hval] at hrest
            rw [if_neg hbig, if_neg hsmall, ← hrest]
            have hcast : id.toUInt32.toNat = exact := by
              rw [UInt64.toNat_toUInt32, hval]
              omega
            cases decodeWordsGo fuel (some id) read.2 with
            | none => rfl
            | some ids =>
              simp only [Option.bind_some, Option.map_some, List.map_cons, hcast]

theorem decodeWords_eq (bs : Bytes) :
    (decodeWords bs).map (List.map UInt32.toNat) = decodePostings bs :=
  decodeWordsGo_eq bs.length none bs

/-- What is decoded ascends, from above the id before. -/
theorem decodeGo_ascending {fuel : Nat} {prev : Option Nat} {bs : Bytes} {ids : List Nat}
    (h : decodeGo fuel prev bs = some ids) :
    ids.Pairwise (· < ·) ∧ ∀ p, prev = some p → ∀ id ∈ ids, p < id := by
  induction fuel generalizing prev bs ids with
  | zero =>
    cases bs with
    | nil =>
      cases h
      exact ⟨List.Pairwise.nil, by simp⟩
    | cons b bs => cases h
  | succ fuel ih =>
    cases bs with
    | nil =>
      cases h
      exact ⟨List.Pairwise.nil, by simp⟩
    | cons b bs =>
      rw [decodeGo] at h
      obtain ⟨read, -, h⟩ := Option.bind_eq_some_iff.mp h
      simp only at h
      split_ifs at h
      obtain ⟨rest, hrest, h⟩ := Option.bind_eq_some_iff.mp h
      cases h
      obtain ⟨hasc, habove⟩ := ih hrest
      refine ⟨List.pairwise_cons.mpr ⟨habove _ rfl, hasc⟩, ?_⟩
      rintro p rfl id hid
      rw [Option.elim_some] at habove hid
      rcases List.mem_cons.mp hid with rfl | hid
      · omega
      · have := habove _ rfl id hid
        omega

/-- Ids above `prev` encode, and decode back. -/
theorem decode_encodeFrom {ids : List UInt32} (hasc : ids.Pairwise (· < ·)) {prev : Option UInt32}
    (hprev : ∀ p, prev = some p → ∀ id ∈ ids, p < id) :
    ∃ bytes, encodeFrom prev ids = some bytes ∧ ∀ fuel, bytes.length ≤ fuel →
      decodeWordsGo fuel (prev.map UInt32.toUInt64) bytes = some ids := by
  induction ids generalizing prev with
  | nil => exact ⟨[], rfl, fun fuel _ => by cases fuel <;> rfl⟩
  | cons id ids ih =>
    obtain ⟨hhead, htail⟩ := List.pairwise_cons.mp hasc
    obtain ⟨rest, hrest, hdecode⟩ := @ih htail (some id) (by
      rintro p hp
      cases hp
      exact hhead)
    obtain ⟨delta, hdelta, hnext⟩ : ∃ delta, gap prev id = some delta ∧
        nextId (prev.map UInt32.toUInt64) delta = some id.toUInt64 := by
      cases prev with
      | none => exact ⟨_, rfl, rfl⟩
      | some p =>
        have hlt := UInt32.lt_iff_toNat_lt.mp (hprev p rfl id List.mem_cons_self)
        have hsub : (id - p).toNat = id.toNat - p.toNat :=
          UInt32.toNat_sub_of_le id p (UInt32.le_iff_toNat_le.mpr hlt.le)
        have hone : (1 : UInt32) ≤ id - p := by
          rw [UInt32.le_iff_toNat_le, hsub]
          exact Nat.sub_pos_of_lt hlt
        have hsub' := UInt32.toNat_sub_of_le (id - p) 1 hone
        refine ⟨(id - p - 1).toUInt64, ?_, ?_⟩
        · rw [gap, checkedSub, if_pos (UInt32.le_iff_toNat_le.mpr hlt.le), Option.bind_eq_bind,
            Option.bind_some, checkedSub, if_pos hone]
          rfl
        · rw [nextId_eq_some]
          simp only [Option.map_some, Option.elim_some, UInt32.toNat_toUInt64, hsub', hsub]
          have hnat : (1 : UInt32).toNat = 1 := rfl
          omega
    refine ⟨putVarint delta ++ rest, ?_, ?_⟩
    · simp only [encodeFrom, hdelta, hrest, Option.bind_eq_bind, Option.bind_some]
    · intro fuel hfuel
      have hread := varint_putVarint delta rest
      cases hbytes : putVarint delta ++ rest with
      | nil =>
        rw [hbytes] at hread
        cases hread
      | cons b bs =>
        rw [hbytes] at hread hfuel
        have hshort : rest.length ≤ bs.length := by
          obtain ⟨num, hsplit, hnum, -⟩ := number_of_varintGo hread
          have hpos := List.length_pos_iff.mpr (isNumber_ne_nil hnum)
          have hlen := congrArg List.length hsplit
          rw [List.length_cons, List.length_append] at hlen
          omega
        cases fuel with
        | zero => cases hfuel
        | succ fuel =>
          have hrun := hdecode fuel (by
            rw [List.length_cons] at hfuel
            omega)
          have hsmall : ¬0xFFFFFFFF < id.toUInt64 := by
            rw [UInt64.lt_iff_toNat_lt, UInt32.toNat_toUInt64]
            have hlt := id.toNat_lt
            have hmax : (0xFFFFFFFF : UInt64).toNat = 2 ^ 32 - 1 := rfl
            omega
          rw [Option.map_some] at hrun
          simp only [decodeWordsGo, hread, hnext, hrun, Option.bind_eq_bind, Option.bind_some,
            if_neg hsmall, UInt32.toUInt32_toUInt64]

end postings

/-- Postings are a codec of ascending ids: a strictly ascending list encodes without an
    underflow and decodes back; and whatever bytes decode, they decode to strictly
    ascending ids, to those that exact sums give: no accumulator wraps. -/
theorem postings_codec :
    (∀ ids : List UInt32, ids.Pairwise (· < ·) →
      ∃ bytes, encodePostings ids = some bytes ∧ decodeWords bytes = some ids) ∧
    ∀ bytes, (decodeWords bytes).map (List.map UInt32.toNat) = decodePostings bytes ∧
      ∀ ids, decodeWords bytes = some ids → ids.Pairwise (· < ·) := by
  constructor
  · intro ids hasc
    obtain ⟨bytes, hbytes, hdecode⟩ := @decode_encodeFrom ids hasc none (by simp)
    exact ⟨bytes, hbytes, hdecode _ le_rfl⟩
  · intro bytes
    refine ⟨decodeWords_eq bytes, ?_⟩
    intro ids hids
    have hexact := decodeWords_eq bytes
    rw [hids, Option.map_some] at hexact
    have hasc := (decodeGo_ascending hexact.symm).1
    rw [List.pairwise_map] at hasc
    exact hasc.imp fun {a b} hab => UInt32.lt_iff_toNat_lt.mpr hab

theorem postings_codec_three :
    ∃ bytes, encodePostings [0, 200, 70000] = some bytes ∧ decodeWords bytes = some [0, 200, 70000] :=
  postings_codec.1 [0, 200, 70000] (by decide)

end GraphR.BaseFile
