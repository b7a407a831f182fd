import Mathlib.Data.List.TakeWhile
import Mathlib.Tactic.Common

/-! Strings that end with a zero byte, in buffers of a fixed size. -/
namespace CStrings

def nul : Char := Char.ofNat 0

/-- The string that a buffer holds. -/
def cstr (b : List Char) : List Char := b.takeWhile (· ≠ nul)

def strlen (b : List Char) : Nat := (cstr b).length

/-- Bytes written at an offset; nothing when they do not lie inside the buffer. -/
def store (b : List Char) (i : Int) (s : List Char) : Option (List Char) :=
  if s = [] then some b
  else if 0 ≤ i ∧ i + s.length ≤ b.length then some (b.take i.toNat ++ s ++ b.drop (i.toNat + s.length))
  else none

/-- The bytes that `snprintf` writes where there is room for `n` of them. -/
def printed (n : Nat) (text : List Char) : List Char := if n = 0 then [] else text.take (n - 1) ++ [nul]

variable {b s rest front : List Char} {i : Int} {n : Nat}

theorem cstr_append (h : nul ∉ s) : cstr (s ++ nul :: rest) = s := by
  have hall : ∀ c ∈ s, decide (c ≠ nul) = true := fun c hc => decide_eq_true fun heq => h (heq ▸ hc)
  rw [cstr, List.takeWhile_append_of_pos hall, List.takeWhile_cons_of_neg (by simp), List.append_nil]

theorem not_mem_cstr (b : List Char) : nul ∉ cstr b := by
  intro h
  have hne := List.mem_takeWhile_imp h
  exact absurd rfl (of_decide_eq_true hne)

/-- A buffer that holds a string is the string, a zero byte and what comes after it. -/
theorem split_cstr (h : nul ∈ b) : ∃ rest, b = cstr b ++ nul :: rest := by
  induction b with
  | nil => cases h
  | cons c b ih =>
    by_cases hc : c = nul
    · subst hc
      exact ⟨b, by rw [cstr, List.takeWhile_cons_of_neg (by simp), List.nil_append]⟩
    · obtain ⟨rest, hrest⟩ := ih ((List.mem_cons.mp h).resolve_left (Ne.symm hc))
      refine ⟨rest, ?_⟩
      rw [cstr, List.takeWhile_cons_of_pos (by simp [hc]), List.cons_append]
      exact congrArg (c :: ·) hrest

/-- A write inside. -/
theorem store_inside (h : front.length = n) (hs : s.length ≤ rest.length) :
    store (front ++ rest) n s = some (front ++ s ++ rest.drop s.length) := by
  subst h
  rw [store]
  split_ifs with hnil hin
  · subst hnil
    rw [List.append_nil, List.length_nil, List.drop_zero]
  · rw [Int.toNat_natCast, List.take_left, List.drop_append, List.drop_of_length_le (by omega), List.nil_append,
      Nat.add_sub_cancel_left]
  · rw [List.length_append] at hin
    omega

theorem store_outside (hs : s ≠ []) (hi : i < 0) : store b i s = none := by
  rw [store, if_neg hs, if_neg (by omega)]

theorem length_printed (n : Nat) (text : List Char) : (printed n text).length ≤ n := by
  rw [printed]
  split_ifs with h
  · exact Nat.zero_le n
  · rw [List.length_append, List.length_take, List.length_singleton]
    omega

/-- Everything is written where there is room for it. -/
theorem printed_all {text : List Char} (h : text.length < n) : printed n text = text ++ [nul] := by
  rw [printed, if_neg (by omega), List.take_of_length_le (by omega)]

theorem printed_ne_nil (text : List Char) (h : n ≠ 0) : printed n text ≠ [] := by
  rw [printed, if_neg h]
  exact List.concat_ne_nil _ _

end CStrings
