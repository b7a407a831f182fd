import Mathlib.Data.Nat.Bitwise
import Mathlib.Tactic.Common

/-! Bit fields of a word. -/
namespace BitFields

variable {n : Nat}

/-- The mask of a field. -/
def fieldMask (n off width : Nat) : BitVec n := BitVec.ofNat n (2 ^ width - 1) <<< off

/-- A field assigned: its own bits are replaced, the others stay. -/
def setField (w : BitVec n) (off width : Nat) (x : Nat) : BitVec n :=
  (w &&& ~~~fieldMask n off width) ||| (BitVec.ofNat n (x % 2 ^ width) <<< off)

/-- A field read. -/
def field (w : BitVec n) (off width : Nat) : Nat := (w.toNat >>> off) % 2 ^ width

theorem getLsbD_fieldMask {off width i : Nat} (hi : i < n) :
    (fieldMask n off width).getLsbD i = (decide (off ≤ i) && decide (i < off + width)) := by
  rw [fieldMask, BitVec.getLsbD_shiftLeft, BitVec.getLsbD_ofNat, Nat.testBit_two_pow_sub_one]
  by_cases hlow : i < off
  · simp [hi, hlow, Nat.not_le.mpr hlow]
  · have hin : i - off < n := by omega
    have hwidth : i - off < width ↔ i < off + width := by omega
    simp [hi, hlow, hin, hwidth, Nat.not_lt.mp hlow]

/-- Which bits an assignment changes. -/
theorem getLsbD_setField (w : BitVec n) (off width x : Nat) {i : Nat} (hi : i < n) :
    (setField w off width x).getLsbD i =
      if off ≤ i ∧ i < off + width then x.testBit (i - off) else w.getLsbD i := by
  rw [setField, BitVec.getLsbD_or, BitVec.getLsbD_and, BitVec.getLsbD_not, getLsbD_fieldMask hi,
    BitVec.getLsbD_shiftLeft, BitVec.getLsbD_ofNat, Nat.testBit_mod_two_pow]
  by_cases hlow : i < off
  · simp [hi, hlow, Nat.not_le.mpr hlow]
  · have hin : i - off < n := by omega
    have hwidth : i - off < width ↔ i < off + width := by omega
    by_cases hhigh : i < off + width
    · simp [hi, hlow, hin, hwidth, hhigh, Nat.not_lt.mp hlow]
    · simp [hi, hlow, hin, hwidth, hhigh]

theorem testBit_field (w : BitVec n) (off width j : Nat) :
    (field w off width).testBit j = (decide (j < width) && w.getLsbD (off + j)) := by
  rw [field, Nat.testBit_mod_two_pow, Nat.testBit_shiftRight, BitVec.testBit_toNat]

/-- Words with the same bits in a field. -/
theorem field_congr {m : Nat} {a : BitVec n} {b : BitVec m} {off off' width : Nat}
    (h : ∀ j < width, a.getLsbD (off + j) = b.getLsbD (off' + j)) : field a off width = field b off' width := by
  apply Nat.eq_of_testBit_eq
  intro j
  rw [testBit_field, testBit_field]
  by_cases hj : j < width
  · rw [h j hj]
  · simp [hj]

theorem field_or (a b : BitVec n) (off width : Nat) :
    field (a ||| b) off width = field a off width ||| field b off width := by
  apply Nat.eq_of_testBit_eq
  intro j
  rw [Nat.testBit_or, testBit_field, testBit_field, testBit_field, BitVec.getLsbD_or, Bool.and_or_distrib_left]

/-- A field of a shifted word is a field of the word. -/
theorem field_shiftLeft (a : BitVec n) {k off width : Nat} (h : k + off + width ≤ n) :
    field (a <<< k) (k + off) width = field a off width := by
  apply field_congr
  intro j hj
  rw [BitVec.getLsbD_shiftLeft, Nat.add_assoc, Nat.add_sub_cancel_left]
  have hin : k + (off + j) < n := by omega
  have hnot : ¬(k + (off + j) < k) := by omega
  simp [hin, hnot]

theorem field_shiftLeft_low (a : BitVec n) {k off width : Nat} (h : off + width ≤ k) :
    field (a <<< k) off width = 0 := by
  apply Nat.eq_of_testBit_eq
  intro j
  rw [testBit_field, BitVec.getLsbD_shiftLeft, Nat.zero_testBit]
  by_cases hj : j < width
  · have hlow : off + j < k := by omega
    simp [hlow]
  · simp [hj]

/-- An assigned field reads as what was assigned. -/
theorem field_setField_self (w : BitVec n) {off width x : Nat} (h : off + width ≤ n) (hx : x < 2 ^ width) :
    field (setField w off width x) off width = x := by
  apply Nat.eq_of_testBit_eq
  intro j
  rw [testBit_field]
  by_cases hj : j < width
  · have hin : off ≤ off + j ∧ off + j < off + width := by omega
    rw [getLsbD_setField w off width x (by omega), if_pos hin, Nat.add_sub_cancel_left]
    simp [hj]
  · have hhigh : x.testBit j = false :=
      Nat.testBit_lt_two_pow (Nat.lt_of_lt_of_le hx (Nat.pow_le_pow_right (by decide) (Nat.not_lt.mp hj)))
    simp [hj, hhigh]

/-- The other fields stay. -/
theorem field_setField_other (w : BitVec n) {off width x off' width' : Nat} (h : off' + width' ≤ n)
    (hdisjoint : off' + width' ≤ off ∨ off + width ≤ off') :
    field (setField w off width x) off' width' = field w off' width' := by
  apply field_congr
  intro j hj
  rw [getLsbD_setField w off width x (by omega), if_neg (by omega)]

end BitFields
