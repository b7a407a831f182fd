import Mathlib.Tactic.Common

/-! Texts as XML attribute values. -/
namespace XmlText

/-- The entity that stands for a character. -/
def entity (c : Char) : Option (List Char) :=
  if c = '&' then some ['&', 'a', 'm', 'p', ';']
  else if c = '<' then some ['&', 'l', 't', ';']
  else if c = '>' then some ['&', 'g', 't', ';']
  else if c = '"' then some ['&', 'q', 'u', 'o', 't', ';']
  else none

def escapeChar (c : Char) : List Char := (entity c).getD [c]

def escape (s : List Char) : List Char := s.flatMap escapeChar

/-- What a reader makes of a value. -/
def unescape : List Char → List Char
  | '&' :: 'a' :: 'm' :: 'p' :: ';' :: s => '&' :: unescape s
  | '&' :: 'l' :: 't' :: ';' :: s => '<' :: unescape s
  | '&' :: 'g' :: 't' :: ';' :: s => '>' :: unescape s
  | '&' :: 'q' :: 'u' :: 'o' :: 't' :: ';' :: s => '"' :: unescape s
  | c :: s => c :: unescape s
  | [] => []

/-- A value with no delimiter, and no `&` but the first character of an entity. -/
inductive Escaped : List Char → Prop
  | nil : Escaped []
  | plain {c : Char} {s : List Char} (hlt : c ≠ '<') (hgt : c ≠ '>') (hquot : c ≠ '"') (hamp : c ≠ '&') :
      Escaped s → Escaped (c :: s)
  | entity {c : Char} {e s : List Char} (h : entity c = some e) : Escaped s → Escaped (e ++ s)

variable {c : Char} {e s t : List Char}

theorem entity_none (h : entity c = none) : c ≠ '&' ∧ c ≠ '<' ∧ c ≠ '>' ∧ c ≠ '"' := by
  rw [entity] at h
  split_ifs at h with hamp hlt hgt hquot
  exact ⟨hamp, hlt, hgt, hquot⟩

theorem entity_some (h : entity c = some e) : (c, e) ∈ [('&', ['&', 'a', 'm', 'p', ';']), ('<', ['&', 'l', 't', ';']),
    ('>', ['&', 'g', 't', ';']), ('"', ['&', 'q', 'u', 'o', 't', ';'])] := by
  rw [entity] at h
  split_ifs at h with hamp hlt hgt hquot <;> cases h <;> subst c <;> simp

@[simp] theorem escape_nil : escape [] = [] := rfl

theorem escape_cons : escape (c :: s) = escapeChar c ++ escape s := List.flatMap_cons

theorem escape_plain (h : entity c = none) : escape (c :: s) = c :: escape s := by
  rw [escape_cons, escapeChar, h]
  rfl

theorem escape_entity (h : entity c = some e) : escape (c :: s) = e ++ escape s := by
  rw [escape_cons, escapeChar, h]
  rfl

theorem unescape_plain (h : c ≠ '&') : unescape (c :: s) = c :: unescape s := by
  conv_lhs => unfold unescape
  split <;> simp_all

theorem unescape_escape (s : List Char) : unescape (escape s) = s := by
  induction s with
  | nil => rfl
  | cons c s ih =>
    cases hc : entity c with
    | none => rw [escape_plain hc, unescape_plain (entity_none hc).1, ih]
    | some e =>
      rw [escape_entity hc]
      have hmem := entity_some hc
      simp only [List.mem_cons, Prod.mk.injEq, List.not_mem_nil, or_false] at hmem
      rcases hmem with ⟨rfl, rfl⟩ | ⟨rfl, rfl⟩ | ⟨rfl, rfl⟩ | ⟨rfl, rfl⟩ <;> simp [unescape, ih]

theorem escaped_escape (s : List Char) : Escaped (escape s) := by
  induction s with
  | nil => exact .nil
  | cons c s ih =>
    cases hc : entity c with
    | none =>
      obtain ⟨hamp, hlt, hgt, hquot⟩ := entity_none hc
      rw [escape_plain hc]
      exact .plain hlt hgt hquot hamp ih
    | some e =>
      rw [escape_entity hc]
      exact .entity hc ih

/-- The delimiters do not stand in a value. -/
theorem Escaped.not_mem (h : Escaped s) : '<' ∉ s ∧ '>' ∉ s ∧ '"' ∉ s := by
  induction h with
  | nil => exact ⟨List.not_mem_nil, List.not_mem_nil, List.not_mem_nil⟩
  | plain hlt hgt hquot hamp _ ih => simp [ih, hlt.symm, hgt.symm, hquot.symm]
  | entity h _ ih =>
    have hmem := entity_some h
    simp only [List.mem_cons, Prod.mk.injEq, List.not_mem_nil, or_false] at hmem
    rcases hmem with ⟨rfl, rfl⟩ | ⟨rfl, rfl⟩ | ⟨rfl, rfl⟩ | ⟨rfl, rfl⟩ <;> simp [ih]

theorem length_escape (s : List Char) : s.length ≤ (escape s).length := by
  induction s with
  | nil => exact Nat.le_refl 0
  | cons c s ih =>
    cases hc : entity c with
    | none =>
      rw [escape_plain hc]
      exact Nat.succ_le_succ ih
    | some e =>
      have hpos : 1 ≤ e.length := by
        have hmem := entity_some hc
        simp only [List.mem_cons, Prod.mk.injEq, List.not_mem_nil, or_false] at hmem
        rcases hmem with ⟨-, rfl⟩ | ⟨-, rfl⟩ | ⟨-, rfl⟩ | ⟨-, rfl⟩ <;> simp
      rw [escape_entity hc, List.length_append, List.length_cons]
      omega

/-- A character that is not in the text is not in its value, unless entities have it. -/
theorem not_mem_escape {x : Char} (hs : x ∉ s) (hx : ∀ c e, entity c = some e → x ∉ e) : x ∉ escape s := by
  intro hmem
  obtain ⟨c, hc, hin⟩ := List.mem_flatMap.mp hmem
  rw [escapeChar] at hin
  cases he : entity c with
  | none =>
    rw [he] at hin
    exact hs (List.mem_singleton.mp hin ▸ hc)
  | some e =>
    rw [he] at hin
    exact hx c e he hin

end XmlText
