import Mathlib.Tactic.Common

/-! Programs that share a state and run one at a time. -/
namespace Turns

variable {P σ : Type} {step : P → σ → Option (P × σ)} {p q r : P} {s t u : σ} {ended : List P}

/-- A program that starts as `p` in `s` has come to `q` in `t`. -/
inductive Comes (step : P → σ → Option (P × σ)) (p : P) (s : σ) : P → σ → Prop
  | start : Comes step p s p s
  | access {q r : P} {t u : σ} : Comes step p s q t → step q t = some (r, u) → Comes step p s r u

/-- Programs run to their ends one after another, from `s` to the last state. -/
inductive InTurn (step : P → σ → Option (P × σ)) (s : σ) : List P → σ → Prop
  | nil : InTurn step s [] s
  | snoc {ended : List P} {p q : P} {t u : σ} : InTurn step s ended t → Comes step p t q u → step q u = none →
      InTurn step s (ended ++ [p]) u

/-- The programs that have ended took turns, and so does the one under way, given with what is left of it. -/
inductive Serial (step : P → σ → Option (P × σ)) (s : σ) (ended : List P) : Option (P × P) → σ → Prop
  | free {t : σ} : InTurn step s ended t → Serial step s ended none t
  | busy {p q : P} {t u : σ} : InTurn step s ended t → Comes step p t q u → Serial step s ended (some (p, q)) u

/-! What keeps the programs in turn. -/

theorem Serial.enter (h : Serial step s ended none t) (p : P) : Serial step s ended (some (p, p)) t := by
  cases h with
  | free hturn => exact .busy hturn .start

theorem Serial.access (h : Serial step s ended (some (p, q)) t) (hstep : step q t = some (r, u)) :
    Serial step s ended (some (p, r)) u := by
  cases h with
  | busy hturn hcomes => exact .busy hturn (.access hcomes hstep)

theorem Serial.leave (h : Serial step s ended (some (p, q)) t) (hend : step q t = none) :
    Serial step s (ended ++ [p]) none t := by
  cases h with
  | busy hturn hcomes => exact .free (.snoc hturn hcomes hend)

/-! The programs as functions of the state. -/

/-- Nothing that a program does takes it away from its result. -/
theorem Comes.run_eq (run : P → σ → σ) (hrun : ∀ p s q t, step p s = some (q, t) → run p s = run q t) (h : Comes step p s q t) :
    run p s = run q t := by
  induction h with
  | start => rfl
  | access _ hstep ih => exact ih.trans (hrun _ _ _ _ hstep)

theorem InTurn.eq_foldl (run : P → σ → σ) (hrun : ∀ p s q t, step p s = some (q, t) → run p s = run q t)
    (hend : ∀ p s, step p s = none → run p s = s) (h : InTurn step s ended t) :
    t = ended.foldl (fun s p => run p s) s := by
  induction h with
  | nil => rfl
  | snoc _ hcomes hstop ih =>
    rw [List.foldl_append, ← ih, List.foldl_cons, List.foldl_nil, hcomes.run_eq run hrun, hend _ _ hstop]

end Turns
