import Mathlib.Tactic.Common
import Mathlib.Logic.Function.Basic

/-! Loops that count up and may fail, and loops that change one place of a vector after the other. -/
namespace Loops

variable {σ : Type} {f : σ → Nat → Option σ} {I : Nat → σ → Prop} {a : Nat} {s s' : σ}

/-- What every round keeps holds at the end of the loop. -/
theorem invariant (n : Nat) (hstart : I a s)
    (hstep : ∀ j t t', a ≤ j → j < a + n → I j t → f t j = some t' → I (j + 1) t')
    (h : (List.range' a n).foldlM f s = some s') : I (a + n) s' := by
  induction n generalizing a s with
  | zero =>
    cases h
    exact hstart
  | succ n ih =>
    rw [List.range'_succ, List.foldlM_cons] at h
    obtain ⟨t, hone, hrest⟩ := Option.bind_eq_some_iff.mp h
    have hnext := hstep a s t (Nat.le_refl a) (by omega) hstart hone
    have hend := ih hnext (fun j t t' hle hlt => hstep j t t' (by omega) (by omega)) hrest
    rwa [show a + (n + 1) = a + 1 + n by omega]

/-- A loop comes to its end when no round fails. -/
theorem total (n : Nat) (hstart : I a s)
    (hstep : ∀ j t t', a ≤ j → j < a + n → I j t → f t j = some t' → I (j + 1) t')
    (hsome : ∀ j t, a ≤ j → j < a + n → I j t → ∃ t', f t j = some t') :
    ∃ s', (List.range' a n).foldlM f s = some s' := by
  induction n generalizing a s with
  | zero => exact ⟨s, rfl⟩
  | succ n ih =>
    obtain ⟨t, hone⟩ := hsome a s (Nat.le_refl a) (by omega) hstart
    have hnext := hstep a s t (Nat.le_refl a) (by omega) hstart hone
    obtain ⟨s', hrest⟩ := ih hnext (fun j t t' hle hlt => hstep j t t' (by omega) (by omega))
      (fun j t hle hlt => hsome j t (by omega) (by omega))
    refine ⟨s', ?_⟩
    rw [List.range'_succ, List.foldlM_cons, hone]
    exact hrest

section Errors

variable {ε : Type} {g : σ → Nat → Except ε σ} {e : ε}

/-- A loop whose rounds all succeed. -/
theorem rounds_ok (n : Nat) (hstart : I a s)
    (hround : ∀ j t, a ≤ j → j < a + n → I j t → ∃ t', g t j = .ok t' ∧ I (j + 1) t') :
    ∃ s', (List.range' a n).foldlM g s = .ok s' ∧ I (a + n) s' := by
  induction n generalizing a s with
  | zero => exact ⟨s, rfl, hstart⟩
  | succ n ih =>
    obtain ⟨t, hone, hnext⟩ := hround a s (Nat.le_refl a) (by omega) hstart
    obtain ⟨s', hrest, hend⟩ := ih hnext (fun j t hle hlt => hround j t (by omega) (by omega))
    refine ⟨s', ?_, ?_⟩
    · rw [List.range'_succ, List.foldlM_cons, hone]
      exact hrest
    · rwa [show a + (n + 1) = a + 1 + n by omega]

/-- The first round that fails ends the loop. -/
theorem round_fails {n k : Nat} (hbefore : (List.range' a n).foldlM g s = .ok s') (hround : g s' (a + n) = .error e)
    (hk : n < k) : (List.range' a k).foldlM g s = .error e := by
  obtain ⟨m, rfl⟩ := Nat.exists_eq_add_of_lt hk
  have hsplit : List.range' a (n + m + 1) = List.range' a n ++ (a + n) :: List.range' (a + n + 1) m := by
    rw [show n + m + 1 = n + (m + 1) by omega, ← List.range'_succ]
    simp
  rw [hsplit, List.foldlM_append, hbefore]
  change List.foldlM g s' ((a + n) :: List.range' (a + n + 1) m) = .error e
  rw [List.foldlM_cons, hround]
  rfl

end Errors

end Loops

/-! ### Vectors as functions of the index -/

namespace Vectors

variable {α : Type}

/-- One round more of a loop that has changed the first places. -/
theorem update_first (v w : Nat → α) (k : Nat) :
    Function.update (fun i => if i < k then w i else v i) k (w k) = fun i => if i < k + 1 then w i else v i := by
  funext i
  by_cases hi : i = k
  · subst hi
    simp
  · rw [Function.update_of_ne hi]
    by_cases hlt : i < k
    · rw [if_pos hlt, if_pos (by omega)]
    · rw [if_neg hlt, if_neg (by omega)]

end Vectors
