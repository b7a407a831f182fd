import Oprofile.SampleNames.Tokens

/-! `separate_token` on strings that were joined by the separator, the separators inside them escaped. -/
namespace Oprofile.SampleNames

variable {sep : Char} {next w rest : Text} {ws : List Text}

/-- A backslash before each separator. -/
def escaped (sep : Char) (w : Text) : Text := w.flatMap fun c => if c = sep then ['\\', c] else [c]

def joined (sep : Char) (ws : List Text) : Text := List.intercalate [sep] (ws.map (escaped sep))

theorem escaped_cons (sep c : Char) (w : Text) :
    escaped sep (c :: w) = (if c = sep then ['\\', c] else [c]) ++ escaped sep w := rfl

/-- One character of an escaped string. -/
theorem separateTokenLoop_escaped_cons {c : Char} (hc : c ≠ '\\') (next str : Text) :
    separateTokenLoop sep ((if c = sep then ['\\', c] else [c]) ++ str) next =
      separateTokenLoop sep str (next ++ [c]) := by
  by_cases h : c = sep
  · subst h
    simp [separateTokenLoop]
  · rw [if_neg h, List.singleton_append, separateTokenLoop_cons hc, if_neg h]

theorem separateTokenLoop_escaped (sep : Char) (hw : '\\' ∉ w) (next str : Text) :
    separateTokenLoop sep (escaped sep w ++ str) next = separateTokenLoop sep str (next ++ w) := by
  induction w generalizing next with
  | nil => rw [List.append_nil]; rfl
  | cons c w ih =>
    have hc : c ≠ '\\' := Ne.symm (List.ne_of_not_mem_cons hw)
    rw [escaped_cons, List.append_assoc, separateTokenLoop_escaped_cons hc,
      ih (List.not_mem_of_not_mem_cons hw), List.append_assoc, List.singleton_append]

/-- Every string but the last is a token; the last one is if it is not empty. -/
theorem separateToken_joined (hsep : sep ≠ '\\') (hw : '\\' ∉ w) (hws : ∀ v ∈ ws, '\\' ∉ v) :
    separateToken (joined sep (ws ++ [w])) sep = ws ++ if w = [] then [] else [w] := by
  induction ws with
  | nil =>
    have hlast := separateTokenLoop_escaped sep hw [] []
    rw [List.append_nil, List.nil_append] at hlast
    rw [List.nil_append, List.nil_append, separateToken, joined, List.map_singleton, List.intercalate_singleton,
      hlast, separateTokenLoop]
  | cons v ws ih =>
    obtain ⟨hv, hws⟩ := List.forall_mem_cons.mp hws
    have hne : (ws ++ [w]).map (escaped sep) ≠ [] := by simp
    have hjoined : joined sep (v :: ws ++ [w]) = escaped sep v ++ sep :: joined sep (ws ++ [w]) := by
      rw [joined, List.cons_append, List.map_cons, List.intercalate_cons_of_ne_nil hne, List.append_assoc,
        List.singleton_append, joined]
    rw [hjoined, separateToken, separateTokenLoop_escaped sep hv, List.nil_append, separateTokenLoop_cons hsep,
      if_pos rfl, ← separateToken, ih hws]
    rfl

/-- The strings come back just when the last one is not empty, or is the only one and may give no token. -/
theorem separateToken_joined_iff (sep : Char) (ws : List Text) (hne : ws ≠ []) (hsep : sep ≠ '\\')
    (hws : ∀ w ∈ ws, '\\' ∉ w) :
    (separateToken (joined sep ws) sep = ws ∨ ws = [[]] ∧ separateToken (joined sep ws) sep = []) ↔
      ws.getLast? ≠ some [] ∨ ws = [[]] := by
  obtain ⟨vs, w, rfl⟩ : ∃ vs w, ws = vs ++ [w] := ⟨_, _, (List.dropLast_concat_getLast hne).symm⟩
  have htokens := separateToken_joined hsep (hws w (by simp)) (fun v hv => hws v (List.mem_append_left _ hv))
  rw [htokens, List.getLast?_concat]
  by_cases hw : w = []
  · subst hw
    rw [if_pos rfl, List.append_nil]
    constructor
    · rintro (hsame | ⟨hone, -⟩)
      · exact absurd hsame (by simp)
      · exact Or.inr hone
    · rintro (hlast | hone)
      · exact absurd rfl hlast
      · refine Or.inr ⟨hone, ?_⟩
        cases vs with
        | nil => rfl
        | cons v vs => simp at hone
  · rw [if_neg hw]
    simp [hw]

theorem separateToken_two_strings :
    separateToken (joined ';' [[], ['a', ';']]) ';' = [[], ['a', ';']] := by
  rcases (separateToken_joined_iff ';' [[], ['a', ';']] (by decide) (by decide) (by decide)).mpr
    (Or.inl (by decide)) with h | ⟨h, -⟩
  · exact h
  · exact absurd h (by decide)

/-- A trailing empty string is lost. -/
theorem separateToken_trailing_empty : separateToken (joined ';' [[], []]) ';' = [[]] ∧
    ¬(separateToken (joined ';' [[], []]) ';' = [[], []] ∨
      [[], []] = [([] : Text)] ∧ separateToken (joined ';' [[], []]) ';' = []) := by
  decide

end Oprofile.SampleNames
