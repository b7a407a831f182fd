import Oprofile.SampleNames.ParseFilename

/-! What the tokenizer makes of joined words and of numbers. -/
namespace Oprofile.SampleNames

variable {sep ch : Char} {str next w rest : Text} {ws : List Text} {n : Nat}

/-- Away from a backslash the loop looks at one character. -/
theorem separateTokenLoop_cons (hch : ch ≠ '\\') : separateTokenLoop sep (ch :: str) next =
    if ch = sep then next :: separateTokenLoop sep str [] else separateTokenLoop sep str (next ++ [ch]) := by
  cases str with
  | nil =>
    simp only [separateTokenLoop, if_neg hch]
    split_ifs with h h'
    · simp
    · simp at h'
    · rfl
  | cons d str => simp only [separateTokenLoop, if_neg hch]

/-- A backslash that does not precede the separator is kept. -/
theorem separateTokenLoop_backslash {d : Char} (hd : d ≠ sep) :
    separateTokenLoop sep ('\\' :: d :: str) next = separateTokenLoop sep (d :: str) (next ++ ['\\']) := by
  simp only [separateTokenLoop, if_neg hd, if_true]

/-- The last word. -/
theorem separateTokenLoop_last (hw : sep ∉ w) (hne : next ++ w ≠ []) :
    separateTokenLoop sep w next = [next ++ w] := by
  induction w generalizing next with
  | nil =>
    rw [List.append_nil] at hne ⊢
    simp only [separateTokenLoop, if_neg hne]
  | cons c w ih =>
    obtain ⟨hc, hw⟩ := not_or.mp (List.mem_cons.not.mp hw)
    have hnext : next ++ [c] ++ w ≠ [] := by simp
    by_cases hb : c = '\\'
    · cases w with
      | nil => simp only [separateTokenLoop, hb, if_true]
      | cons d w =>
        have hd : d ≠ sep := fun h => hw (h ▸ List.mem_cons_self)
        rw [hb, separateTokenLoop_backslash hd, ← hb, ih hw hnext, List.append_assoc]
        rfl
    · rw [separateTokenLoop_cons hb, if_neg (Ne.symm hc), ih hw hnext, List.append_assoc]
      rfl

/-- A word that does not end in a backslash, and what comes after its separator. -/
theorem separateTokenLoop_word (hsep : sep ≠ '\\') (hw : sep ∉ w) (hend : w.getLast? ≠ some '\\') :
    separateTokenLoop sep (w ++ sep :: rest) next = (next ++ w) :: separateTokenLoop sep rest [] := by
  induction w generalizing next with
  | nil => rw [List.nil_append, separateTokenLoop_cons hsep, if_pos rfl, List.append_nil]
  | cons c w ih =>
    obtain ⟨hc, hw⟩ := not_or.mp (List.mem_cons.not.mp hw)
    cases w with
    | nil =>
      have hb : c ≠ '\\' := fun h => hend (by rw [h]; rfl)
      rw [List.cons_append, separateTokenLoop_cons hb, if_neg (Ne.symm hc), ih hw (by simp),
        List.append_nil]
    | cons d w =>
      have hend' : (d :: w).getLast? ≠ some '\\' := by
        rw [List.getLast?_cons_cons] at hend
        exact hend
      by_cases hb : c = '\\'
      · have hd : d ≠ sep := fun h => hw (h ▸ List.mem_cons_self)
        rw [hb, List.cons_append, List.cons_append, separateTokenLoop_backslash hd,
          ← List.cons_append, ih hw hend', List.append_assoc]
        rfl
      · rw [List.cons_append, separateTokenLoop_cons hb, if_neg (Ne.symm hc), ih hw hend',
          List.append_assoc]
        rfl

/-- A word that ends in a backslash swallows its separator. -/
theorem separateTokenLoop_escape (hsep : sep ≠ '\\') (hw : sep ∉ w) :
    separateTokenLoop sep (w ++ '\\' :: sep :: rest) next =
      separateTokenLoop sep rest (next ++ w ++ [sep]) := by
  induction w generalizing next with
  | nil => simp [separateTokenLoop]
  | cons c w ih =>
    obtain ⟨hc, hw⟩ := not_or.mp (List.mem_cons.not.mp hw)
    have hstep : separateTokenLoop sep ((c :: w) ++ '\\' :: sep :: rest) next =
        separateTokenLoop sep (w ++ '\\' :: sep :: rest) (next ++ [c]) := by
      by_cases hb : c = '\\'
      · cases w with
        | nil => rw [hb, List.cons_append, List.nil_append, separateTokenLoop_backslash (Ne.symm hsep)]
        | cons d w =>
          have hd : d ≠ sep := fun h => hw (h ▸ List.mem_cons_self)
          rw [hb, List.cons_append, List.cons_append, separateTokenLoop_backslash hd]
      · rw [List.cons_append, separateTokenLoop_cons hb, if_neg (Ne.symm hc)]
    rw [hstep, ih hw]
    simp

/-- A word that the tokenizer gives back as it is. -/
structure Token (sep : Char) (w : Text) : Prop where
  noSep : sep ∉ w
  noEscape : w.getLast? ≠ some '\\'

/-- Words joined by the separator. -/
theorem separateTokenLoop_append_lead (hsep : sep ≠ '\\') (hw : Token sep w) (hne : next ++ w ≠ [])
    (hws : ∀ v ∈ ws, v ≠ [] ∧ Token sep v) :
    separateTokenLoop sep (w ++ Words.lead sep ws) next = (next ++ w) :: ws := by
  induction ws generalizing next w with
  | nil =>
    have hnil : w ++ Words.lead sep [] = w := List.append_nil w
    rw [hnil, separateTokenLoop_last hw.noSep hne]
  | cons v ws ih =>
    obtain ⟨hv, hws⟩ := List.forall_mem_cons.mp hws
    have hlead : w ++ Words.lead sep (v :: ws) = w ++ sep :: (v ++ Words.lead sep ws) := rfl
    have hne : [] ++ v ≠ [] := hv.1
    rw [hlead, separateTokenLoop_word hsep hw.noSep hw.noEscape, ih hv.2 hne hws]
    rfl

theorem separateToken_append_lead (hsep : sep ≠ '\\') (hw : Token sep w) (hne : w ≠ [])
    (hws : ∀ v ∈ ws, v ≠ [] ∧ Token sep v) :
    separateToken (w ++ Words.lead sep ws) sep = w :: ws :=
  separateTokenLoop_append_lead hsep hw hne hws

/-- A separator in front makes an empty first token. -/
theorem separateToken_lead (hsep : sep ≠ '\\') (hne : ws ≠ [])
    (hws : ∀ v ∈ ws, v ≠ [] ∧ Token sep v) :
    separateToken (Words.lead sep ws) sep = [] :: ws := by
  cases ws with
  | nil => exact absurd rfl hne
  | cons v ws =>
    obtain ⟨hv, hws⟩ := List.forall_mem_cons.mp hws
    have hlead : Words.lead sep (v :: ws) = sep :: (v ++ Words.lead sep ws) := rfl
    have hne : [] ++ v ≠ [] := hv.1
    rw [separateToken, hlead, separateTokenLoop_cons hsep, if_pos rfl,
      separateTokenLoop_append_lead hsep hv.2 hne hws]
    rfl

/-- Text without any of the characters that mean something in a mangled name. -/
structure Plain (w : Text) : Prop where
  nonempty : w ≠ []
  noDot : '.' ∉ w
  noSlash : '/' ∉ w
  noBackslash : '\\' ∉ w
  noParen : '(' ∉ w

theorem Plain.token (h : Plain w) (hsep : sep ∉ w) : Token sep w :=
  ⟨hsep, fun hlast => h.noBackslash (List.mem_of_getLast? hlast)⟩

theorem mem_toDigits {b : Nat} (hb : 1 < b) {c : Char} (h : c ∈ Nat.toDigits b n) :
    ∃ d, c = Nat.digitChar d := by
  induction n using Nat.strong_induction_on with
  | _ n ih =>
    rw [Nat.toDigits_eq_if hb] at h
    split at h
    · exact ⟨n, List.mem_singleton.mp h⟩
    · rename_i hn
      rcases List.mem_append.mp h with h | h
      · exact ih (n / b) (Nat.div_lt_self (by omega) hb) h
      · exact ⟨n % b, List.mem_singleton.mp h⟩

theorem plain_toDigits {b : Nat} (hb : 1 < b) (n : Nat) : Plain (Nat.toDigits b n) := by
  refine ⟨List.ne_nil_of_length_pos Nat.length_toDigits_pos, ?_, ?_, ?_, ?_⟩
  all_goals
    intro h
    obtain ⟨d, hd⟩ := mem_toDigits hb h
    exact Nat.digitChar_ne _ (by decide) hd.symm

theorem plain_printU (x : UInt32) : Plain (printU x) := plain_toDigits (by decide) _

theorem plain_printX (x : UInt64) : Plain (printX x) := plain_toDigits (by decide) _

theorem plain_cons {c : Char} (hw : Plain w) (hc : c ∉ ['.', '/', '\\', '(']) : Plain (c :: w) := by
  simp only [List.mem_cons, List.not_mem_nil, or_false, not_or] at hc
  obtain ⟨hdot, hslash, hback, hparen⟩ := hc
  refine ⟨List.cons_ne_nil _ _, ?_, ?_, ?_, ?_⟩
  · exact not_or.mpr ⟨Ne.symm hdot, hw.noDot⟩ ∘ List.mem_cons.mp
  · exact not_or.mpr ⟨Ne.symm hslash, hw.noSlash⟩ ∘ List.mem_cons.mp
  · exact not_or.mpr ⟨Ne.symm hback, hw.noBackslash⟩ ∘ List.mem_cons.mp
  · exact not_or.mpr ⟨Ne.symm hparen, hw.noParen⟩ ∘ List.mem_cons.mp

theorem plain_printD (x : Int32) : Plain (printD x) := by
  unfold printD
  split
  · exact plain_cons (plain_toDigits (by decide) _) (by decide)
  · exact plain_toDigits (by decide) _

theorem plain_allName : Plain allName := by
  refine ⟨?_, ?_, ?_, ?_, ?_⟩ <;> decide

theorem splitLastSlash_append (s : Text) (hw : '/' ∉ w) :
    splitLastSlash (s ++ '/' :: w) = some (s, w) := by
  have hrev : (s ++ '/' :: w).reverse = w.reverse ++ '/' :: s.reverse := by simp
  have hall : ∀ c ∈ w.reverse, (decide (c ≠ '/')) = true := by
    intro c hc
    have hcw : c ∈ w := List.mem_reverse.mp hc
    exact decide_eq_true fun h => hw (h ▸ hcw)
  rw [splitLastSlash, hrev, List.dropWhile_append_of_pos hall, List.takeWhile_append_of_pos hall]
  simp

theorem lastDot_append (s : Text) (hw : '.' ∉ w) : lastDot (s ++ '.' :: w) = some s.length := by
  have hrev : (s ++ '.' :: w).reverse = w.reverse ++ '.' :: s.reverse := by simp
  have hall : ∀ c ∈ w.reverse, (decide (c ≠ '.')) = true := by
    intro c hc
    have hcw : c ∈ w := List.mem_reverse.mp hc
    exact decide_eq_true fun h => hw (h ▸ hcw)
  rw [lastDot, hrev, List.dropWhile_append_of_pos hall]
  simp

/-- The text around its last dot. -/
theorem exists_last_dot (h : '.' ∈ str) : ∃ s w, str = s ++ '.' :: w ∧ '.' ∉ w := by
  obtain ⟨s, w, hrev, hs⟩ := List.eq_append_cons_of_mem (List.mem_reverse.mpr h)
  refine ⟨w.reverse, s.reverse, ?_, fun hmem => hs (List.mem_reverse.mp hmem)⟩
  rw [← List.reverse_reverse str, hrev]
  simp

theorem secondLastDot_of_count (h : 2 ≤ str.count '.') : ∃ pos, secondLastDot str = some pos := by
  have hmem : '.' ∈ str := List.count_pos_iff.mp (by omega)
  obtain ⟨s, w, rfl, hw⟩ := exists_last_dot hmem
  have hlast := lastDot_append s hw
  have hs : '.' ∈ s := by
    rw [List.count_append, List.count_cons_self, List.count_eq_zero.mpr hw] at h
    exact List.count_pos_iff.mp (by omega)
  obtain ⟨s', w', hs', hw'⟩ := exists_last_dot hs
  cases hlen : s.length with
  | zero => exact ⟨0, by rw [secondLastDot, hlast, hlen]⟩
  | succ pos =>
    have htake : (s ++ '.' :: w).take (pos + 1) = s := by rw [← hlen, List.take_left]
    refine ⟨s'.length, ?_⟩
    rw [secondLastDot, hlast, hlen]
    simp only [htake]
    rw [hs', lastDot_append s' hw']

end Oprofile.SampleNames
