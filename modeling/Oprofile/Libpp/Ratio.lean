import Mathlib.Algebra.Order.Field.Basic
import Mathlib.Algebra.Order.Field.Rat
import Mathlib.Tactic.Linarith

/-! Ratios of counts (`utility.h`), without the rounding of a `double`. -/
namespace Oprofile.Libpp

/-- `op_ratio` -/
def opRatio (count total : ℚ) : ℚ := if total = 0 then 0 else count / total

variable {m n total threshold : ℚ}

@[simp] theorem opRatio_zero (count : ℚ) : opRatio count 0 = 0 := if_pos rfl

theorem opRatio_mono (htotal : 0 ≤ total) (h : m ≤ n) : opRatio m total ≤ opRatio n total := by
  rw [opRatio, opRatio]
  split
  · exact le_refl 0
  · exact div_le_div_of_nonneg_right h htotal

/-- For a positive total the ratio says whether the count reaches its fraction. -/
theorem opRatio_lt_iff (htotal : 0 < total) : opRatio n total < threshold ↔ n < threshold * total := by
  rw [opRatio, if_neg htotal.ne', div_lt_iff₀ htotal]

/-- The value of a 64-bit count. -/
def countValue (count : UInt64) : ℚ := (count.toNat : ℚ)

theorem countValue_nonneg (count : UInt64) : 0 ≤ countValue count := Nat.cast_nonneg _

theorem countValue_pos {count : UInt64} (h : count ≠ 0) : 0 < countValue count := by
  have hne : count.toNat ≠ 0 := fun h0 => h (UInt64.toNat_inj.mp h0)
  exact Nat.cast_pos.mpr (Nat.pos_of_ne_zero hne)

theorem countValue_mono {a b : UInt64} (h : a ≤ b) : countValue a ≤ countValue b :=
  Nat.cast_le.mpr (UInt64.le_iff_toNat_le.mp h)

@[simp] theorem countValue_zero : countValue 0 = 0 := rfl

end Oprofile.Libpp
