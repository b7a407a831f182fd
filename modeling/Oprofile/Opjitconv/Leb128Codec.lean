import Oprofile.Library.DwarfLine

/-! The LEB128 numbers that the converter writes (`emit_unsigned_LEB128`, `emit_signed_LEB128`): which are read back. -/
namespace Oprofile.Opjitconv

open Leb128

variable {n : Nat} {rest : List UInt8}

theorem shift_lt {data : UInt64} (h : data >>> 7 ≠ 0) : (data >>> 7).toNat < data.toNat := by
  have hshift : (data >>> 7).toNat = data.toNat / 128 := by
    rw [UInt64.toNat_shiftRight]
    exact Nat.shiftRight_eq_div_pow ..
  have hne : (data >>> 7).toNat ≠ 0 := fun h0 => h (UInt64.toNat_inj.mp h0)
  omega

def emitUnsignedLEB128 (data : UInt64) : List UInt8 :=
  let cur := (data &&& 0x7F).toUInt8
  if data >>> 7 ≠ 0 then (cur ||| 0x80) :: emitUnsignedLEB128 (data >>> 7) else [cur]
termination_by data.toNat
decreasing_by exact shift_lt ‹_›

theorem or_cont : ∀ n < 128, n ||| 128 = n + 128 := by decide

theorem cur_or_toNat {cur : UInt8} (h : cur.toNat = n) (hn : n < 128) : (cur ||| 0x80).toNat = n + 128 := by
  rw [UInt8.toNat_or, h]
  exact or_cont n hn

theorem cur_toNat {data : UInt64} (h : data.toNat = n) : (data &&& 0x7F).toUInt8.toNat = n % 128 := by
  have hand : (data &&& 0x7F).toNat = n % 128 := by
    rw [UInt64.toNat_and, h]
    exact Nat.and_two_pow_sub_one_eq_mod n 7
  have hlt := Nat.mod_lt n (by decide : 128 > 0)
  rw [UInt64.toNat_toUInt8, hand, Nat.mod_eq_of_lt (by omega)]

theorem emitUnsigned_decode (data : UInt64) (rest : List UInt8) :
    decodeU (emitUnsignedLEB128 data ++ rest) = some (data.toNat, rest) := by
  have hshift : (data >>> 7).toNat = data.toNat / 128 := by
    rw [UInt64.toNat_shiftRight]
    exact Nat.shiftRight_eq_div_pow ..
  have hcur := cur_toNat (rfl : data.toNat = data.toNat)
  have hlt := Nat.mod_lt data.toNat (by decide : 128 > 0)
  rw [emitUnsignedLEB128]
  by_cases h : data >>> 7 ≠ 0
  · rw [if_pos h]
    have ih := emitUnsigned_decode (data >>> 7) rest
    have hmore := decodeU_more (cur_or_toNat hcur hlt) ih
    rw [hshift, Nat.mod_add_div] at hmore
    exact hmore
  · rw [if_neg h]
    have hzero : (data >>> 7).toNat = 0 := by
      rw [not_not.mp h]
      rfl
    exact decodeU_last (by omega) (by omega)
termination_by data.toNat
decreasing_by exact shift_lt h

/-! ### Signed numbers -/

/-- `1 << count` on an `int`: nothing where the shift is undefined. -/
def shiftOne (count : Nat) : Option Int32 :=
  if count < 31 then some (1 <<< Int32.ofNat count) else none

/-- What the loop makes of the shifted number; `size` is the number of bits of a `long`. -/
def signExtend (negative : Bool) (size : Nat) (data : Int64) : Option Int64 :=
  if negative then (shiftOne (size - 7)).map fun bit => data ||| (-bit).toInt64 else some data

/-- The loop of `emit_signed_LEB128`, which takes no more than ten rounds; nothing where a round is undefined. -/
def emitSignedLEB128Loop (negative : Bool) : Nat → Int64 → Option (List UInt8)
  | 0, _ => none
  | fuel + 1, data =>
    let cur := (data.toUInt64 &&& 0x7F).toUInt8
    (signExtend negative 64 (data >>> 7)).bind fun data =>
      if (data = 0 ∧ cur &&& 0x40 = 0) ∨ (data = -1 ∧ cur &&& 0x40 ≠ 0) then some [cur]
      else (emitSignedLEB128Loop negative fuel data).map ((cur ||| 0x80) :: ·)

def emitSignedLEB128 (data : Int64) : Option (List UInt8) := emitSignedLEB128Loop (data < 0) 10 data

theorem int64_shift {data : Int64} (h : data.toInt = n) : (data >>> 7).toInt = (n / 128 : Nat) := by
  have hshift : (data >>> 7).toInt = data.toInt >>> (7 : Nat) := BitVec.toInt_sshiftRight
  rw [hshift, h, Int.shiftRight_eq_div_pow]
  norm_cast

theorem toUInt64_toNat {data : Int64} (h : data.toInt = n) : data.toUInt64.toNat = n := by
  have hpos : (0 : Int64) ≤ data := by
    rw [Int64.le_iff_toInt_le, h]
    exact Int.natCast_nonneg n
  rw [Int64.toNat_toUInt64_of_le hpos, ← Int64.toNat_toInt, h]
  rfl

theorem and_sign : ∀ n < 128, n &&& 64 = 0 ↔ n < 64 := by decide

theorem cur_sign {cur : UInt8} (h : cur.toNat = n) (hn : n < 128) : cur &&& 0x40 = 0 ↔ n < 64 := by
  rw [← and_sign n hn, ← UInt8.toNat_inj, UInt8.toNat_and, h]
  rfl

/-- When the loop of a number that is not negative stops. -/
theorem signed_stops {data : Int64} (h : data.toInt = n) :
    ((data >>> 7 = 0 ∧ (data.toUInt64 &&& 0x7F).toUInt8 &&& 0x40 = 0) ∨
      (data >>> 7 = -1 ∧ (data.toUInt64 &&& 0x7F).toUInt8 &&& 0x40 ≠ 0)) ↔ n < 64 := by
  have hlt := Nat.mod_lt n (by decide : 128 > 0)
  have hcur := cur_sign (cur_toNat (toUInt64_toNat h)) hlt
  have hshift := int64_shift h
  have hzero : data >>> 7 = 0 ↔ n / 128 = 0 := by
    rw [← Int64.toInt_inj, hshift]
    exact Int.natCast_eq_zero
  have hneg : data >>> 7 ≠ -1 := by
    intro heq
    rw [heq] at hshift
    have hval : (-1 : Int64).toInt = -1 := rfl
    omega
  rw [hcur, hzero]
  constructor
  · rintro (⟨hdiv, hmod⟩ | ⟨hone, -⟩)
    · omega
    · exact absurd hone hneg
  · exact fun hn => .inl ⟨by omega, by omega⟩

/-- A round of a number that is not negative. -/
theorem emitSignedLoop_round (fuel : Nat) (data : Int64) :
    emitSignedLEB128Loop false (fuel + 1) data =
      if (data >>> 7 = 0 ∧ (data.toUInt64 &&& 0x7F).toUInt8 &&& 0x40 = 0) ∨
        (data >>> 7 = -1 ∧ (data.toUInt64 &&& 0x7F).toUInt8 &&& 0x40 ≠ 0) then some [(data.toUInt64 &&& 0x7F).toUInt8]
      else (emitSignedLEB128Loop false fuel (data >>> 7)).map (((data.toUInt64 &&& 0x7F).toUInt8 ||| 0x80) :: ·) :=
  rfl

theorem emitSignedLoop_decode {fuel : Nat} {data : Int64} (h : data.toInt = n) (hn : n < 64 * 128 ^ fuel) :
    ∃ bytes, emitSignedLEB128Loop false (fuel + 1) data = some bytes ∧
      ∀ rest, decodeS (bytes ++ rest) = some ((n : Int), rest) := by
  have hlt := Nat.mod_lt n (by decide : 128 > 0)
  have hcur := cur_toNat (toUInt64_toNat h)
  induction fuel generalizing n data with
  | zero =>
    have hstop : n < 64 := by omega
    rw [emitSignedLoop_round, if_pos ((signed_stops h).mpr hstop)]
    exact ⟨_, rfl, fun rest => decodeS_last (by omega) hstop⟩
  | succ fuel ih =>
    rw [emitSignedLoop_round]
    by_cases hstop : n < 64
    · rw [if_pos ((signed_stops h).mpr hstop)]
      exact ⟨_, rfl, fun rest => decodeS_last (by omega) hstop⟩
    · rw [if_neg (mt (signed_stops h).mp hstop)]
      have hshift := int64_shift h
      obtain ⟨bytes, hbytes, hnext⟩ := ih hshift (by rw [Nat.pow_succ] at hn; omega) (Nat.mod_lt _ (by decide))
        (cur_toNat (toUInt64_toNat hshift))
      refine ⟨_, congrArg (Option.map _) hbytes, ?_⟩
      intro rest
      have hmore := decodeS_more (cur_or_toNat hcur hlt) (hnext rest)
      have hval : ((n % 128 : Nat) : Int) + 128 * ((n / 128 : Nat) : Int) = n := by omega
      rw [hval] at hmore
      exact hmore

theorem emitSigned_decode {data : Int64} (h : data.toInt = n) :
    ∃ bytes, emitSignedLEB128 data = some bytes ∧ ∀ rest, decodeS (bytes ++ rest) = some ((n : Int), rest) := by
  have hmax := Int64.toInt_lt data
  have hneg : ¬ data < 0 := by
    rw [Int64.lt_iff_toInt_lt, h]
    exact Int.not_lt.mpr (Int.natCast_nonneg n)
  rw [emitSignedLEB128, decide_eq_false hneg]
  exact emitSignedLoop_decode h (by omega)

/-- The first round of a negative number shifts an `int` by 57 bits. -/
theorem emitSigned_negative {data : Int64} (hneg : data.toInt < 0) : emitSignedLEB128 data = none := by
  have hdata : data < 0 := Int64.lt_iff_toInt_lt.mpr hneg
  rw [emitSignedLEB128, decide_eq_true hdata]
  rfl

/-- Every unsigned number is read back; a signed one just when it is not negative. -/
theorem leb128_iff (u : UInt64) (data : Int64) :
    ((∀ rest, decodeU (emitUnsignedLEB128 u ++ rest) = some (u.toNat, rest)) ∧
      ∃ bytes, emitSignedLEB128 data = some bytes ∧
        ∀ rest, decodeS (bytes ++ rest) = some (data.toInt, rest)) ↔ 0 ≤ data.toInt := by
  constructor
  · rintro ⟨-, bytes, hbytes, -⟩
    by_contra hneg
    rw [emitSigned_negative (Int.not_le.mp hneg)] at hbytes
    cases hbytes
  · intro hpos
    obtain ⟨n, hn⟩ := Int.eq_ofNat_of_zero_le hpos
    rw [hn]
    exact ⟨emitUnsigned_decode u, emitSigned_decode hn⟩

/-- A number whose bytes the code does not define. -/
theorem leb128_below : ¬∃ bytes, emitSignedLEB128 (-4294967297) = some bytes ∧
    ∀ rest, decodeS (bytes ++ rest) = some (-4294967297, rest) := by
  rintro ⟨bytes, hbytes, -⟩
  cases hbytes

/-- A step of line numbers goes out as a number that is not negative. -/
theorem lineno_toInt (x : UInt32) : x.toUInt64.toInt64.toInt = x.toNat := by
  have hlt := x.toNat_lt
  change x.toUInt64.toBitVec.toInt = _
  rw [BitVec.toInt_eq_toNat_of_lt]
  · exact congrArg Int.ofNat (UInt32.toNat_toUInt64 x)
  · change 2 * x.toUInt64.toNat < _
    rw [UInt32.toNat_toUInt64]
    omega

/-- So its bytes are defined. -/
theorem lineno_defined (x : UInt32) : (emitSignedLEB128 x.toUInt64.toInt64).isSome := by
  obtain ⟨bytes, hbytes, -⟩ := emitSigned_decode (lineno_toInt x)
  rw [hbytes]
  rfl

end Oprofile.Opjitconv
