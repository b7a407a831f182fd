import Mathlib.Tactic.Common
import Mathlib.Tactic.Linarith

/-! Reflected cyclic redundancy checks: bit by bit, and by a table of several bits at once. -/
namespace Crc

variable {w : Nat}

/-- One shift of the register: the bit that leaves brings the polynomial in. -/
def step (poly x : BitVec w) : BitVec w := if x.getLsbD 0 then x >>> 1 ^^^ poly else x >>> 1

def steps (poly : BitVec w) : Nat → BitVec w → BitVec w
  | 0, x => x
  | n + 1, x => steps poly n (step poly x)

/-- A bit of the message, fed to the register. -/
def feed (poly x : BitVec w) (bit : Bool) : BitVec w := if x.getLsbD 0 ^^ bit then x >>> 1 ^^^ poly else x >>> 1

/-- The bits of a number, the lowest first. -/
def bitsOf : Nat → Nat → List Bool
  | 0, _ => []
  | n + 1, v => v.testBit 0 :: bitsOf n (v / 2)

/-- The low bits of a register. -/
def low (n : Nat) (x : BitVec w) : BitVec w := x &&& BitVec.ofNat w (2 ^ n - 1)

section

variable {poly x y : BitVec w} {n k v : Nat}

theorem step_eq (poly x : BitVec w) : step poly x = x >>> 1 ^^^ if x.getLsbD 0 then poly else 0 := by
  rw [step]
  split_ifs
  · rfl
  · exact BitVec.xor_zero.symm

theorem ite_xor (poly : BitVec w) (a b : Bool) :
    (if a ^^ b then poly else 0) = (if a then poly else 0) ^^^ if b then poly else 0 := by
  cases a <;> cases b <;> simp

/-- Shifting is linear over exclusive or. -/
theorem step_xor (poly x y : BitVec w) : step poly (x ^^^ y) = step poly x ^^^ step poly y := by
  rw [step_eq, step_eq, step_eq, BitVec.getLsbD_xor, BitVec.ushiftRight_xor_distrib, ite_xor]
  ac_rfl

theorem steps_xor (poly : BitVec w) (n : Nat) (x y : BitVec w) :
    steps poly n (x ^^^ y) = steps poly n x ^^^ steps poly n y := by
  induction n generalizing x y with
  | zero => rfl
  | succ n ih => rw [steps, step_xor, ih, steps, steps]

/-- A register whose low bits are clear only moves down. -/
theorem steps_clear (h : ∀ i, i < n → x.getLsbD i = false) : steps poly n x = x >>> n := by
  induction n generalizing x with
  | zero => exact (BitVec.ushiftRight_zero x).symm
  | succ n ih =>
    have hstep : step poly x = x >>> 1 := by
      rw [step, h 0 (Nat.succ_pos n)]
      rfl
    rw [steps, hstep, ih, ← BitVec.shiftRight_add, Nat.add_comm]
    intro i hi
    rw [BitVec.getLsbD_ushiftRight]
    exact h (1 + i) (by omega)

theorem getLsbD_low (n : Nat) (x : BitVec w) (i : Nat) : (low n x).getLsbD i = (x.getLsbD i && decide (i < n)) := by
  rw [low, BitVec.getLsbD_and, BitVec.getLsbD_ofNat, Nat.testBit_two_pow_sub_one]
  by_cases hi : i < w
  · simp [hi]
  · simp [BitVec.getLsbD_of_ge x i (by omega)]

/-- Several shifts are those of the low bits, and a move down of the others. -/
theorem steps_eq (poly : BitVec w) (n : Nat) (x : BitVec w) : steps poly n x = steps poly n (low n x) ^^^ x >>> n := by
  have hsplit : x = low n x ^^^ (x ^^^ low n x) := by
    apply BitVec.eq_of_getLsbD_eq
    intro i _
    simp only [BitVec.getLsbD_xor]
    cases x.getLsbD i <;> cases (low n x).getLsbD i <;> rfl
  have hclear : ∀ i, i < n → (x ^^^ low n x).getLsbD i = false := by
    intro i hi
    rw [BitVec.getLsbD_xor, getLsbD_low, decide_eq_true hi, Bool.and_true, Bool.xor_self]
  have hhigh : (x ^^^ low n x) >>> n = x >>> n := by
    apply BitVec.eq_of_getLsbD_eq
    intro i _
    rw [BitVec.getLsbD_ushiftRight, BitVec.getLsbD_ushiftRight, BitVec.getLsbD_xor, getLsbD_low,
      decide_eq_false (by omega), Bool.and_false, Bool.xor_false]
  conv_lhs => rw [hsplit]
  rw [steps_xor, steps_clear hclear, hhigh]

theorem feed_eq (poly x : BitVec w) (bit : Bool) :
    feed poly x bit = x >>> 1 ^^^ if x.getLsbD 0 ^^ bit then poly else 0 := by
  rw [feed]
  split_ifs
  · rfl
  · exact BitVec.xor_zero.symm

/-- Feeding the bits of a number one by one is shifting after the number is put in. -/
theorem foldl_feed (poly : BitVec w) (n v : Nat) (hw : 0 < w) (hn : n ≤ w) (x : BitVec w) (hv : v < 2 ^ n) :
    (bitsOf n v).foldl (feed poly) x = steps poly n (x ^^^ BitVec.ofNat w v) := by
  induction n generalizing v x with
  | zero =>
    obtain rfl : v = 0 := by omega
    rw [bitsOf, List.foldl_nil, steps]
    exact BitVec.xor_zero.symm
  | succ n ih =>
    have hfits : v < 2 ^ w := Nat.lt_of_lt_of_le hv (Nat.pow_le_pow_right (by omega) hn)
    have hdown : (BitVec.ofNat w v) >>> 1 = BitVec.ofNat w (v / 2) := by
      apply BitVec.eq_of_toNat_eq
      rw [BitVec.toNat_ushiftRight, BitVec.toNat_ofNat, BitVec.toNat_ofNat, Nat.mod_eq_of_lt hfits,
        Nat.mod_eq_of_lt (by omega), Nat.shiftRight_eq_div_pow]
    have hone : step poly (x ^^^ BitVec.ofNat w v) = feed poly x (v.testBit 0) ^^^ BitVec.ofNat w (v / 2) := by
      rw [step_eq, feed_eq, BitVec.ushiftRight_xor_distrib, BitVec.getLsbD_xor, BitVec.getLsbD_ofNat, hdown]
      simp only [hw, decide_true, Bool.true_and]
      rw [BitVec.xor_assoc, BitVec.xor_assoc]
      congr 1
      exact BitVec.xor_comm _ _
    rw [bitsOf, List.foldl_cons, ih _ (by omega) _ (by omega), steps, hone]

end

end Crc
