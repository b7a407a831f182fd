import Oprofile.Library.Crc
import Oprofile.Libutil.OpFileio

/-! The table method of `calc_crc32` is the division of the message bit by bit. -/
namespace Oprofile.Libutil

/-- The reflected polynomial of CRC-32. -/
def polynomial : BitVec 32 := 0xEDB88320

def messageBits (a : List UInt8) : List Bool := a.flatMap fun b => Crc.bitsOf 8 b.toNat

/-- CRC-32 bit by bit: the register starts with ones and is complemented at the end. -/
def crc32 (a : List UInt8) : BitVec 32 := ~~~((messageBits a).foldl (Crc.feed polynomial) (BitVec.allOnes 32))

example : crc32 [0x31, 0x32, 0x33, 0x34, 0x35, 0x36, 0x37, 0x38, 0x39] = 0xCBF43926 := by decide +kernel

/-- A register of 32 bits in an `unsigned long`. -/
def widen (x : BitVec 32) : UInt64 := UInt64.ofBitVec (x.setWidth 64)

variable {x : BitVec 32} {b : UInt8} {c : UInt64}

theorem toBitVec_widen (x : BitVec 32) : (widen x).toBitVec = x.setWidth 64 := rfl

theorem widen_xor (x y : BitVec 32) : widen (x ^^^ y) = widen x ^^^ widen y := by
  apply UInt64.toBitVec_inj.mp
  rw [UInt64.toBitVec_xor, toBitVec_widen, toBitVec_widen, toBitVec_widen, BitVec.setWidth_xor]

theorem widen_shift (x : BitVec 32) : widen x >>> 8 = widen (x >>> 8) := by
  apply UInt64.toBitVec_inj.mp
  exact (BitVec.setWidth_ushiftRight (by omega)).symm

theorem getLsbD_mask (i : Nat) : (0xffffffff#64).getLsbD i = decide (i < 32) := by
  rw [show 0xffffffff#64 = BitVec.ofNat 64 (2 ^ 32 - 1) by rfl, BitVec.getLsbD_ofNat, Nat.testBit_two_pow_sub_one]
  by_cases hi : i < 32
  · simp [hi, show i < 64 by omega]
  · simp [hi]

/-- `~crc & 0xffffffff` complements the low half of the word. -/
theorem widen_complement (c : UInt64) : ~~~c &&& 0xffffffff = widen (~~~(c.toBitVec.setWidth 32)) := by
  apply UInt64.toBitVec_inj.mp
  apply BitVec.eq_of_getLsbD_eq
  intro i hi
  rw [UInt64.toBitVec_and, UInt64.toBitVec_not, toBitVec_widen, BitVec.getLsbD_and, BitVec.getLsbD_not,
    BitVec.getLsbD_setWidth, BitVec.getLsbD_not, BitVec.getLsbD_setWidth]
  have hmask : (0xffffffff : UInt64).toBitVec.getLsbD i = decide (i < 32) := getLsbD_mask i
  rw [hmask]
  by_cases hlow : i < 32
  · simp [hi, hlow]
  · simp [hlow]

theorem widen_narrow (x : BitVec 32) : (widen x).toBitVec.setWidth 32 = x := by
  rw [toBitVec_widen]
  simp

theorem crc32Table_eq : ∀ i : Fin 256, crc32Table.getD i.val 0 = widen (Crc.steps polynomial 8 (BitVec.ofNat 32 i.val)) := by
  decide +kernel

theorem toUInt64_widen (b : UInt8) : b.toUInt64 = widen (BitVec.ofNat 32 b.toNat) := by
  apply UInt64.toBitVec_inj.mp
  apply BitVec.eq_of_toNat_eq
  have hbyte : b.toNat < 2 ^ 8 := b.toNat_lt
  rw [toBitVec_widen, BitVec.toNat_setWidth, BitVec.toNat_ofNat]
  simp

/-- The index of the table is the low byte of the register. -/
theorem crc32_index (x : BitVec 32) (b : UInt8) :
    ((widen x ^^^ b.toUInt64) &&& 0xff).toNat = (Crc.low 8 (x ^^^ BitVec.ofNat 32 b.toNat)).toNat := by
  rw [toUInt64_widen, ← widen_xor]
  generalize x ^^^ BitVec.ofNat 32 b.toNat = y
  have hmask : (0xff : UInt64) = widen (BitVec.ofNat 32 (2 ^ 8 - 1)) := by rfl
  have hand : widen y &&& 0xff = widen (Crc.low 8 y) := by
    apply UInt64.toBitVec_inj.mp
    rw [hmask, UInt64.toBitVec_and, toBitVec_widen, toBitVec_widen, toBitVec_widen, Crc.low, BitVec.setWidth_and]
  rw [hand]
  have hlt : (Crc.low 8 y).toNat < 2 ^ 32 := (Crc.low 8 y).isLt
  show ((Crc.low 8 y).setWidth 64).toNat = _
  rw [BitVec.toNat_setWidth]
  exact Nat.mod_eq_of_lt (by omega)

theorem low_lt (y : BitVec 32) : (Crc.low 8 y).toNat < 256 := by
  rw [Crc.low, BitVec.toNat_and]
  exact Nat.lt_of_le_of_lt Nat.and_le_right (by decide)

/-- The table's word for the low byte, and the rest moved down: eight bits are fed at once. -/
theorem crc32Byte_widen (x : BitVec 32) (b : UInt8) :
    crc32Byte (widen x) b = widen ((Crc.bitsOf 8 b.toNat).foldl (Crc.feed polynomial) x) := by
  have hbyte : b.toNat < 2 ^ 8 := b.toNat_lt
  have htable := crc32Table_eq ⟨_, low_lt (x ^^^ BitVec.ofNat 32 b.toNat)⟩
  rw [BitVec.ofNat_toNat, BitVec.setWidth_eq] at htable
  have hclear : (BitVec.ofNat 32 b.toNat) >>> 8 = 0 := by
    apply BitVec.eq_of_toNat_eq
    rw [BitVec.toNat_ushiftRight, BitVec.toNat_ofNat, Nat.mod_eq_of_lt (by omega), Nat.shiftRight_eq_div_pow]
    exact Nat.div_eq_of_lt hbyte
  have hdown : (x ^^^ BitVec.ofNat 32 b.toNat) >>> 8 = x >>> 8 := by
    rw [BitVec.ushiftRight_xor_distrib, hclear]
    exact BitVec.xor_zero
  rw [Crc.foldl_feed polynomial 8 b.toNat (by omega) (by omega) x hbyte, Crc.steps_eq, widen_xor, hdown,
    crc32Byte, crc32_index, htable, widen_shift]

theorem messageBits_cons (b : UInt8) (buf : List UInt8) :
    messageBits (b :: buf) = Crc.bitsOf 8 b.toNat ++ messageBits buf := rfl

theorem foldl_crc32Byte (x : BitVec 32) (buf : List UInt8) :
    buf.foldl crc32Byte (widen x) = widen ((messageBits buf).foldl (Crc.feed polynomial) x) := by
  induction buf generalizing x with
  | nil => rfl
  | cons b buf ih => rw [List.foldl_cons, crc32Byte_widen, ih, messageBits_cons, List.foldl_append]

/-- `calc_crc32` in terms of the register: complemented before and after. -/
theorem calcCrc32_eq (c : UInt64) (buf : List UInt8) :
    calcCrc32 c buf = widen (~~~((messageBits buf).foldl (Crc.feed polynomial) (~~~(c.toBitVec.setWidth 32)))) := by
  rw [calcCrc32, widen_complement c, foldl_crc32Byte, widen_complement, widen_narrow]

theorem calcCrc32_zero (a : List UInt8) : calcCrc32 0 a = widen (crc32 a) := calcCrc32_eq 0 a

/-- A checksum is continued where it stood. -/
theorem calcCrc32_append (c : UInt64) (a b : List UInt8) : calcCrc32 (calcCrc32 c a) b = calcCrc32 c (a ++ b) := by
  have hbits : messageBits (a ++ b) = messageBits a ++ messageBits b := List.flatMap_append
  rw [calcCrc32_eq c a, calcCrc32_eq, calcCrc32_eq, widen_narrow, BitVec.not_not, hbits, List.foldl_append]

end Oprofile.Libutil
