import Mathlib.Tactic.Common

/-! The lines of a text: those that a separator ends, and a last one that none does. -/
namespace TextLines

variable {α : Type} [DecidableEq α]

/-- The lines of a text whose first line has begun. -/
def linesFrom (sep : α) (begun : List α) : List α → List (List α)
  | [] => if begun = [] then [] else [begun]
  | c :: s => if c = sep then begun :: linesFrom sep [] s else linesFrom sep (begun ++ [c]) s

/-- A last line counts only when it has a character. -/
def lines (sep : α) (s : List α) : List (List α) := linesFrom sep [] s

/-- The lines that a separator ends. -/
def endedFrom (sep : α) (begun : List α) : List α → List (List α)
  | [] => []
  | c :: s => if c = sep then begun :: endedFrom sep [] s else endedFrom sep (begun ++ [c]) s

def ended (sep : α) (s : List α) : List (List α) := endedFrom sep [] s

/-- What stands behind the last separator. -/
def leftFrom (sep : α) (begun : List α) : List α → List α
  | [] => begun
  | c :: s => if c = sep then leftFrom sep [] s else leftFrom sep (begun ++ [c]) s

section

variable {sep : α} {begun l s : List α}

theorem linesFrom_eq (sep : α) (begun s : List α) :
    linesFrom sep begun s =
      endedFrom sep begun s ++ if leftFrom sep begun s = [] then [] else [leftFrom sep begun s] := by
  induction s generalizing begun with
  | nil => rw [linesFrom, endedFrom, leftFrom, List.nil_append]
  | cons c s ih =>
    rw [linesFrom, endedFrom, leftFrom]
    by_cases hc : c = sep
    · rw [if_pos hc, if_pos hc, if_pos hc, ih, List.cons_append]
    · rw [if_neg hc, if_neg hc, if_neg hc, ih]

theorem leftFrom_nil_iff (sep : α) (begun s : List α) :
    leftFrom sep begun s = [] ↔ begun ++ s = [] ∨ s.getLast? = some sep := by
  induction s generalizing begun with
  | nil => simp [leftFrom]
  | cons c s ih =>
    rw [leftFrom]
    by_cases hc : c = sep
    · rw [if_pos hc, ih]
      cases s with
      | nil => simp [hc]
      | cons d s => simp [List.getLast?_cons_cons]
    · rw [if_neg hc, ih]
      cases s with
      | nil => simp [hc]
      | cons d s => simp [List.getLast?_cons_cons]

/-- Leaving out the last line loses nothing just when a separator ends it. -/
theorem ended_eq_lines_iff (sep : α) (s : List α) :
    ended sep s = lines sep s ↔ s = [] ∨ s.getLast? = some sep := by
  have hleft := leftFrom_nil_iff sep [] s
  rw [List.nil_append] at hleft
  rw [← hleft, lines, linesFrom_eq, ended]
  by_cases h : leftFrom sep [] s = []
  · simp [h]
  · simp [h]

theorem endedFrom_cut (h : sep ∉ l) (begun s : List α) :
    endedFrom sep begun (l ++ sep :: s) = (begun ++ l) :: endedFrom sep [] s := by
  induction l generalizing begun with
  | nil => rw [List.nil_append, endedFrom, if_pos rfl, List.append_nil]
  | cons c l ih =>
    have hc : sep ≠ c := List.ne_of_not_mem_cons h
    have hl : sep ∉ l := List.not_mem_of_not_mem_cons h
    rw [List.cons_append, endedFrom, if_neg (Ne.symm hc), ih hl, List.append_assoc, List.singleton_append]

theorem endedFrom_open (h : sep ∉ s) (begun : List α) : endedFrom sep begun s = [] := by
  induction s generalizing begun with
  | nil => rfl
  | cons c s ih =>
    have hc : sep ≠ c := List.ne_of_not_mem_cons h
    have hs : sep ∉ s := List.not_mem_of_not_mem_cons h
    rw [endedFrom, if_neg (Ne.symm hc), ih hs]

theorem linesFrom_cut (h : sep ∉ l) (begun s : List α) :
    linesFrom sep begun (l ++ sep :: s) = (begun ++ l) :: linesFrom sep [] s := by
  induction l generalizing begun with
  | nil => rw [List.nil_append, linesFrom, if_pos rfl, List.append_nil]
  | cons c l ih =>
    have hc : sep ≠ c := List.ne_of_not_mem_cons h
    have hl : sep ∉ l := List.not_mem_of_not_mem_cons h
    rw [List.cons_append, linesFrom, if_neg (Ne.symm hc), ih hl, List.append_assoc, List.singleton_append]

theorem linesFrom_open (h : sep ∉ s) (begun : List α) :
    linesFrom sep begun s = if begun ++ s = [] then [] else [begun ++ s] := by
  induction s generalizing begun with
  | nil => rw [linesFrom, List.append_nil]
  | cons c s ih =>
    have hc : sep ≠ c := List.ne_of_not_mem_cons h
    rw [linesFrom, if_neg (Ne.symm hc), ih (List.not_mem_of_not_mem_cons h), List.append_assoc, List.singleton_append]

/-- A text without the separator is one line, if it has a character. -/
theorem lines_open (h : sep ∉ s) (hne : s ≠ []) : lines sep s = [s] := by
  rw [lines, linesFrom_open h, List.nil_append, if_neg hne]

theorem linesFrom_ne_nil (h : begun ++ s ≠ []) : linesFrom sep begun s ≠ [] := by
  induction s generalizing begun with
  | nil =>
    rw [List.append_nil] at h
    rw [linesFrom, if_neg h]
    exact List.cons_ne_nil _ _
  | cons c s ih =>
    rw [linesFrom]
    split_ifs
    · exact List.cons_ne_nil _ _
    · exact ih (by simp)

theorem lines_eq_nil_iff (sep : α) (s : List α) : lines sep s = [] ↔ s = [] := by
  constructor
  · intro h
    by_contra hne
    exact linesFrom_ne_nil (show [] ++ s ≠ [] from hne) h
  · rintro rfl
    rfl

/-- The ended lines with their separators, and what is left behind them, are the text. -/
theorem flatMap_endedFrom (sep : α) (begun s : List α) :
    (endedFrom sep begun s).flatMap (· ++ [sep]) ++ leftFrom sep begun s = begun ++ s := by
  induction s generalizing begun with
  | nil => rw [endedFrom, leftFrom, List.flatMap_nil, List.nil_append, List.append_nil]
  | cons c s ih =>
    rw [endedFrom, leftFrom]
    by_cases hc : c = sep
    · rw [if_pos hc, if_pos hc, List.flatMap_cons, List.append_assoc, ih, List.append_assoc, List.nil_append, hc,
        List.singleton_append]
    · rw [if_neg hc, if_neg hc, ih, List.append_assoc, List.singleton_append]

/-- The lines and the last character make the text. -/
theorem eq_of_lines {s' : List α} (h : lines sep s = lines sep s') (hlast : s.getLast? = s'.getLast?) : s = s' := by
  have hs := flatMap_endedFrom sep [] s
  have hs' := flatMap_endedFrom sep [] s'
  rw [lines, linesFrom_eq, lines, linesFrom_eq] at h
  have hnil : s = [] ↔ s' = [] := by rw [← List.getLast?_eq_none_iff, ← List.getLast?_eq_none_iff, hlast]
  have hleft : leftFrom sep [] s = [] ↔ leftFrom sep [] s' = [] := by
    rw [leftFrom_nil_iff, leftFrom_nil_iff, hlast, List.nil_append, List.nil_append, hnil]
  by_cases hended : leftFrom sep [] s = []
  · rw [if_pos hended, if_pos (hleft.mp hended), List.append_nil, List.append_nil] at h
    rw [hended, h] at hs
    rw [hleft.mp hended, hs] at hs'
    exact hs'
  · rw [if_neg hended, if_neg (hleft.not.mp hended)] at h
    obtain ⟨hlines, hopen⟩ := List.append_inj' h rfl
    rw [hlines, (List.cons.inj hopen).1, hs'] at hs
    exact hs.symm

/-- A text is a line and the rest behind its separator, or one open line. -/
theorem cut (sep : α) (s : List α) : (∃ l rest, s = l ++ sep :: rest ∧ sep ∉ l) ∨ sep ∉ s := by
  by_cases h : sep ∈ s
  · obtain ⟨l, rest, hs, hl⟩ := List.eq_append_cons_of_mem h
    exact Or.inl ⟨l, rest, hs, hl⟩
  · exact Or.inr h

end

end TextLines
