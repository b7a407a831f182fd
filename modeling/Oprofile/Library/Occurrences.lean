import Mathlib.Data.List.Infix

/-! The last place where a list stands within another. -/
namespace Occurrences

variable {α : Type} [DecidableEq α]

/-- What stands before the last occurrence of `pat`. -/
def beforeLast (pat : List α) : List α → Option (List α)
  | [] => none
  | x :: s =>
    match beforeLast pat s with
    | some before => some (x :: before)
    | none => if pat <+: x :: s then some [] else none

variable {pat s before : List α}

theorem prefix_of_beforeLast (h : beforeLast pat s = some before) : before <+: s := by
  induction s generalizing before with
  | nil => cases h
  | cons x s ih =>
    rw [beforeLast] at h
    cases hs : beforeLast pat s with
    | some before' =>
      rw [hs] at h
      cases h
      exact List.cons_prefix_cons.mpr ⟨rfl, ih hs⟩
    | none =>
      rw [hs] at h
      dsimp only at h
      split at h
      · cases h
        exact List.nil_prefix
      · cases h

/-- There is a last occurrence where there is any. -/
theorem beforeLast_isSome (hpat : pat ≠ []) : (beforeLast pat s).isSome ↔ pat <:+: s := by
  induction s with
  | nil =>
    simp only [beforeLast, Option.isSome_none, Bool.false_eq_true, List.infix_nil, false_iff]
    exact hpat
  | cons x s ih =>
    rw [beforeLast, List.infix_cons_iff, ← ih]
    cases hs : beforeLast pat s with
    | some before => simp
    | none =>
      dsimp only
      split
      · rename_i hp
        simp [hp]
      · rename_i hp
        simp [hp]

end Occurrences
