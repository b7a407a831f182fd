import Mathlib.Tactic.Linarith

/-! Words between separators, and runs of separators squeezed to one. -/
namespace Words

variable {α : Type} [DecidableEq α] {sep c : α} {s t last w : List α} {ws : List (List α)}

/-- An empty piece is no word. -/
def consWord (w : List α) (ws : List (List α)) : List (List α) := if w = [] then ws else w :: ws

/-- The piece before the first separator, and the words after it. -/
def pieceAndWords (sep : α) : List α → List α × List (List α)
  | [] => ([], [])
  | c :: cs =>
    let r := pieceAndWords sep cs
    if c = sep then ([], consWord r.1 r.2) else (c :: r.1, r.2)

def words (sep : α) (s : List α) : List (List α) :=
  consWord (pieceAndWords sep s).1 (pieceAndWords sep s).2

/-- The words, each after a separator. -/
def lead (sep : α) (ws : List (List α)) : List α := ws.flatMap (sep :: ·)

/-- One separator for a run of them. -/
def squeeze (sep : α) : List α → List α
  | [] => []
  | [c] => [c]
  | c :: d :: cs => if c = sep ∧ d = sep then squeeze sep (d :: cs) else c :: squeeze sep (d :: cs)

omit [DecidableEq α] in
@[simp] theorem consWord_nil (ws : List (List α)) : consWord [] ws = ws := rfl

omit [DecidableEq α] in
@[simp] theorem consWord_cons (ws : List (List α)) : consWord (c :: w) ws = (c :: w) :: ws := rfl

omit [DecidableEq α] in
theorem consWord_append (ws ws' : List (List α)) :
    consWord w (ws ++ ws') = consWord w ws ++ ws' := by
  cases w with
  | nil => rfl
  | cons c w => rfl

@[simp] theorem words_nil (sep : α) : words sep [] = [] := rfl

theorem pieceAndWords_sep (s : List α) : pieceAndWords sep (sep :: s) = ([], words sep s) := by
  simp [pieceAndWords, words]

theorem pieceAndWords_cons (h : c ≠ sep) (s : List α) :
    pieceAndWords sep (c :: s) = (c :: (pieceAndWords sep s).1, (pieceAndWords sep s).2) := by
  simp [pieceAndWords, h]

@[simp] theorem words_sep (s : List α) : words sep (sep :: s) = words sep s := by
  simp [words, pieceAndWords_sep]

theorem pieceAndWords_append_sep (s t : List α) : pieceAndWords sep (s ++ sep :: t) =
    ((pieceAndWords sep s).1, (pieceAndWords sep s).2 ++ words sep t) := by
  induction s with
  | nil => simp [pieceAndWords_sep, pieceAndWords]
  | cons c s ih =>
    by_cases h : c = sep
    · subst h
      simp [pieceAndWords_sep, words, ih, consWord_append]
    · simp [pieceAndWords_cons h, ih]

/-- A separator cuts the words. -/
theorem words_append_sep (s t : List α) :
    words sep (s ++ sep :: t) = words sep s ++ words sep t := by
  simp only [words, pieceAndWords_append_sep, consWord_append]

theorem pieceAndWords_of_not_mem (h : sep ∉ s) : pieceAndWords sep s = (s, []) := by
  induction s with
  | nil => rfl
  | cons c s ih =>
    obtain ⟨hc, hs⟩ := not_or.mp (List.mem_cons.not.mp h)
    simp [pieceAndWords_cons (Ne.symm hc), ih hs]

theorem words_of_not_mem (h : sep ∉ s) (hne : s ≠ []) : words sep s = [s] := by
  cases s with
  | nil => exact absurd rfl hne
  | cons c s => simp [words, pieceAndWords_of_not_mem h]

theorem mem_piece (h : c ∈ (pieceAndWords sep s).1) : c ∈ s ∧ c ≠ sep := by
  induction s with
  | nil => cases h
  | cons d s ih =>
    by_cases hd : d = sep
    · subst hd
      simp [pieceAndWords_sep] at h
    · simp only [pieceAndWords_cons hd, List.mem_cons] at h
      rcases h with rfl | h
      · exact ⟨List.mem_cons_self, hd⟩
      · exact ⟨List.mem_cons_of_mem _ (ih h).1, (ih h).2⟩

theorem mem_words_of_mem_pieces (h : w ∈ words sep s) :
    (w = (pieceAndWords sep s).1 ∧ w ≠ []) ∨ w ∈ (pieceAndWords sep s).2 := by
  simp only [words, consWord] at h
  split at h
  · exact Or.inr h
  · rename_i hne
    rcases List.mem_cons.mp h with rfl | h
    · exact Or.inl ⟨rfl, hne⟩
    · exact Or.inr h

/-- A word is not empty, and consists of characters of the text other than the separator. -/
theorem mem_words (h : w ∈ words sep s) : w ≠ [] ∧ ∀ c ∈ w, c ∈ s ∧ c ≠ sep := by
  induction s generalizing w with
  | nil => cases h
  | cons d s ih =>
    by_cases hd : d = sep
    · subst hd
      rw [words_sep] at h
      obtain ⟨hne, hmem⟩ := ih h
      exact ⟨hne, fun c hc => ⟨List.mem_cons_of_mem _ (hmem c hc).1, (hmem c hc).2⟩⟩
    · rcases mem_words_of_mem_pieces h with ⟨rfl, hne⟩ | h
      · exact ⟨hne, fun c hc => mem_piece hc⟩
      · rw [pieceAndWords_cons hd] at h
        have hw : w ∈ words sep s := by
          simp only [words, consWord]
          split
          · exact h
          · exact List.mem_cons_of_mem _ h
        obtain ⟨hne, hmem⟩ := ih hw
        exact ⟨hne, fun c hc => ⟨List.mem_cons_of_mem _ (hmem c hc).1, (hmem c hc).2⟩⟩

theorem squeeze_of_not_mem (h : sep ∉ s) : squeeze sep s = s := by
  induction s with
  | nil => rfl
  | cons c s ih =>
    obtain ⟨hc, hs⟩ := not_or.mp (List.mem_cons.not.mp h)
    cases s with
    | nil => rfl
    | cons d s =>
      have hne : ¬ (c = sep ∧ d = sep) := fun hcd => hc hcd.1.symm
      simp only [squeeze, if_neg hne, ih hs]

theorem squeeze_sep_sep (s : List α) : squeeze sep (sep :: sep :: s) = squeeze sep (sep :: s) := by
  simp [squeeze]

theorem squeeze_cons_cons {d : α} (h : ¬ (c = sep ∧ d = sep)) (s : List α) :
    squeeze sep (c :: d :: s) = c :: squeeze sep (d :: s) := by
  simp only [squeeze, if_neg h]

/-- A text that ends in a separator and a word, after a separator or another character. -/
theorem squeeze_pieces (hlast : sep ∉ last) (hne : last ≠ []) (s : List α) :
    squeeze sep (sep :: (s ++ sep :: last)) = lead sep (words sep s ++ [last]) ∧
    ∀ c, c ≠ sep → squeeze sep (c :: (s ++ sep :: last)) =
      c :: ((pieceAndWords sep s).1 ++ lead sep ((pieceAndWords sep s).2 ++ [last])) := by
  induction s with
  | nil =>
    have hsep : squeeze sep (sep :: last) = sep :: last := by
      cases last with
      | nil => exact absurd rfl hne
      | cons d last =>
        have hd : ¬ (sep = sep ∧ d = sep) := fun h => hlast (h.2 ▸ List.mem_cons_self)
        rw [squeeze_cons_cons hd, squeeze_of_not_mem hlast]
    refine ⟨?_, fun c hc => ?_⟩
    · simp [squeeze_sep_sep, hsep, lead]
    · have hcs : ¬ (c = sep ∧ sep = sep) := fun h => hc h.1
      simp [squeeze_cons_cons hcs, hsep, lead, pieceAndWords]
  | cons d s ih =>
    obtain ⟨ih₁, ih₂⟩ := ih
    by_cases hd : d = sep
    · subst hd
      refine ⟨?_, fun c hc => ?_⟩
      · rw [List.cons_append, squeeze_sep_sep, ih₁, words_sep]
      · have hcs : ¬ (c = d ∧ d = d) := fun h => hc h.1
        rw [List.cons_append, squeeze_cons_cons hcs, ih₁, pieceAndWords_sep]
        rfl
    · refine ⟨?_, fun c hc => ?_⟩
      · have hsd : ¬ (sep = sep ∧ d = sep) := fun h => hd h.2
        rw [List.cons_append, squeeze_cons_cons hsd, ih₂ d hd]
        simp [words, pieceAndWords_cons hd, lead]
      · have hcd : ¬ (c = sep ∧ d = sep) := fun h => hd h.2
        rw [List.cons_append, squeeze_cons_cons hcd, ih₂ d hd, pieceAndWords_cons hd]
        rfl

/-- Squeezing leaves the words, with or without a separator in front. -/
theorem squeeze_append (hlast : sep ∉ last) (hne : last ≠ []) (s : List α) :
    squeeze sep (s ++ sep :: last) = lead sep (words sep s ++ [last]) ∨
    ∃ w ws, words sep s = w :: ws ∧
      squeeze sep (s ++ sep :: last) = w ++ lead sep (ws ++ [last]) := by
  cases s with
  | nil =>
    left
    have h := (squeeze_pieces hlast hne []).1
    rw [List.nil_append, squeeze_sep_sep] at h
    exact h
  | cons c s =>
    obtain ⟨h₁, h₂⟩ := squeeze_pieces hlast hne s
    by_cases hc : c = sep
    · left
      rw [hc, List.cons_append, h₁, words_sep]
    · right
      refine ⟨c :: (pieceAndWords sep s).1, (pieceAndWords sep s).2, ?_, ?_⟩
      · simp [words, pieceAndWords_cons hc]
      · rw [List.cons_append, h₂ c hc]
        rfl

/-- A word in front. -/
theorem words_word (h : sep ∉ w) (hne : w ≠ []) (t : List α) :
    words sep (w ++ sep :: t) = w :: words sep t := by
  rw [words_append_sep, words_of_not_mem h hne]
  rfl

omit [DecidableEq α] in
@[simp] theorem lead_singleton (sep : α) (w : List α) : lead sep [w] = sep :: w := by
  simp [lead]

omit [DecidableEq α] in
theorem lead_append (ws ws' : List (List α)) : lead sep (ws ++ ws') = lead sep ws ++ lead sep ws' :=
  List.flatMap_append

/-! The pieces between the separators, the empty ones among them. -/

omit [DecidableEq α] in
@[simp] theorem lead_nil (sep : α) : lead sep [] = [] := rfl

omit [DecidableEq α] in
@[simp] theorem lead_cons (sep : α) (w : List α) (ws : List (List α)) :
    lead sep (w :: ws) = sep :: (w ++ lead sep ws) := rfl

/-- Every text is its pieces, one behind the other. -/
theorem eq_pieces (sep : α) (s : List α) :
    ∃ w ws, s.splitOn sep = w :: ws ∧ s = w ++ lead sep ws ∧ ∀ v ∈ w :: ws, sep ∉ v := by
  induction s with
  | nil => exact ⟨[], [], rfl, rfl, by simp⟩
  | cons c s ih =>
    obtain ⟨w, ws, hsplit, hs, hno⟩ := ih
    have hcons : (c :: s).splitOn sep = if c = sep then [] :: (w :: ws) else (c :: w) :: ws := by
      have hpieces : s.splitOnP (· == sep) = w :: ws := hsplit
      rw [List.splitOn, List.splitOnP_cons_eq_if_modifyHead, hpieces]
      by_cases hc : c = sep
      · simp [hc]
      · simp [hc]
    by_cases hc : c = sep
    · refine ⟨[], w :: ws, by rw [hcons, if_pos hc], ?_, ?_⟩
      · rw [hc, hs]
        rfl
      · simpa using hno
    · refine ⟨c :: w, ws, by rw [hcons, if_neg hc], ?_, ?_⟩
      · rw [hs]
        rfl
      · intro v hv
        rcases List.mem_cons.mp hv with rfl | hv
        · intro hmem
          rcases List.mem_cons.mp hmem with heq | hmem
          · exact hc heq.symm
          · exact hno w List.mem_cons_self hmem
        · exact hno v (List.mem_cons_of_mem _ hv)

/-- The words are the pieces that are not empty. -/
theorem words_eq_filter (s : List α) : words sep s = (s.splitOn sep).filter (· ≠ []) := by
  obtain ⟨w, ws, hsplit, hs, hno⟩ := eq_pieces sep s
  rw [hsplit, hs]
  clear hsplit hs
  induction ws generalizing w with
  | nil =>
    rw [lead_nil, List.append_nil]
    by_cases hw : w = []
    · subst hw
      rfl
    · rw [words_of_not_mem (hno w List.mem_cons_self) hw]
      simp [hw]
  | cons v ws ih =>
    have hrest := ih v (fun x hx => hno x (List.mem_cons_of_mem _ hx))
    rw [lead_cons, words_append_sep, hrest]
    by_cases hw : w = []
    · subst hw
      simp
    · rw [words_of_not_mem (hno w List.mem_cons_self) hw]
      simp [hw]

end Words
