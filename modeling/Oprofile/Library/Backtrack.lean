import Mathlib.Data.List.Lex
import Mathlib.Tactic.Common

/-! Depth-first search through levels of candidates, and what it finds. -/
namespace Backtrack

variable {α σ : Type} {step : σ → α → Option σ} {s : σ} {level : List α} {levels : List (List α)}
  {x y : α} {xs ys : List α}

/-- The first choice of one candidate a level that every step accepts. -/
def search (step : σ → α → Option σ) : List (List α) → σ → Option (List α)
  | [], _ => some []
  | level :: levels, s =>
    level.findSome? fun x => (step s x).bind fun s => (search step levels s).map (x :: ·)

/-- One accepted candidate a level. -/
inductive Path (step : σ → α → Option σ) : List (List α) → σ → List α → Prop
  | nil {s : σ} : Path step [] s []
  | cons {level : List α} {levels : List (List α)} {s s' : σ} {x : α} {xs : List α} (hx : x ∈ level)
      (hs : step s x = some s') (hxs : Path step levels s' xs) : Path step (level :: levels) s (x :: xs)

/-- What is tried below one candidate. -/
theorem below_eq_some : ((step s x).bind fun s => (search step levels s).map (x :: ·)) = some xs ↔
    ∃ s' ys, step s x = some s' ∧ search step levels s' = some ys ∧ xs = x :: ys := by
  rw [Option.bind_eq_some_iff]
  constructor
  · rintro ⟨s', hs, hmap⟩
    obtain ⟨ys, hys, rfl⟩ := Option.map_eq_some_iff.mp hmap
    exact ⟨s', ys, hs, hys, rfl⟩
  · rintro ⟨s', ys, hs, hys, rfl⟩
    exact ⟨s', hs, by rw [hys]; rfl⟩

theorem search_sound (h : search step levels s = some xs) : Path step levels s xs := by
  induction levels generalizing s xs with
  | nil =>
    cases h
    exact .nil
  | cons level levels ih =>
    obtain ⟨x, hx, hbelow⟩ := List.exists_of_findSome?_eq_some h
    obtain ⟨s', ys, hs, hys, rfl⟩ := below_eq_some.mp hbelow
    exact .cons hx hs (ih hys)

theorem search_complete (h : Path step levels s xs) : (search step levels s).isSome := by
  induction h with
  | nil => rfl
  | @cons level levels s s' x xs hx hs _ ih =>
    obtain ⟨ys, hys⟩ := Option.isSome_iff_exists.mp ih
    rw [search, List.findSome?_isSome_iff]
    refine ⟨x, hx, ?_⟩
    rw [below_eq_some.mpr ⟨s', ys, hs, hys, rfl⟩]
    rfl

/-- If the candidates of a level come in order, what is found first is the least. -/
theorem search_least {lt : α → α → Prop} (hsorted : ∀ level ∈ levels, level.Pairwise lt)
    (h : search step levels s = some xs) (hys : Path step levels s ys) :
    xs = ys ∨ List.Lex lt xs ys := by
  induction hys generalizing xs with
  | nil =>
    cases h
    exact .inl rfl
  | @cons level levels s s' y ys hy hs hpath ih =>
    rw [List.forall_mem_cons] at hsorted
    obtain ⟨pre, x, post, rfl, hbelow, hbefore⟩ := List.findSome?_eq_some_iff.mp h
    obtain ⟨s₁, xs, hs₁, hxs, rfl⟩ := below_eq_some.mp hbelow
    rcases List.mem_append.mp hy with hpre | hrest
    · -- the path would have been found below an earlier candidate
      obtain ⟨zs, hzs⟩ := Option.isSome_iff_exists.mp (search_complete hpath)
      have hnone := hbefore y hpre
      rw [below_eq_some.mpr ⟨s', zs, hs, hzs, rfl⟩] at hnone
      cases hnone
    · rcases List.mem_cons.mp hrest with rfl | hpost
      · rw [hs₁] at hs
        cases hs
        rcases ih hsorted.2 hxs with rfl | hlt
        · exact .inl rfl
        · exact .inr (.cons hlt)
      · have hord := (List.pairwise_append.mp hsorted.1).2.1
        exact .inr (.rel (List.rel_of_pairwise_cons hord hpost))

end Backtrack
