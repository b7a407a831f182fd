import Oprofile.Libop.XmlOut

/-! What calls of the XML writer leave in one buffer (`op_xml_out.c`). -/
namespace Oprofile.Libop.XmlOut

open SampleNames CStrings XmlText

/-- A call adds its text to the string, or exits where the text does not fit. -/
def Faithful (c : Call) (b : List Char) : Prop :=
  match c.run b with
  | .ok b' => b'.length = b.length ∧ nul ∈ b' ∧ cstr b' = cstr b ++ c.text
  | .error .exited => b.length ≤ strlen b + c.text.length
  | .error .outside => False

/-- The same of `xml_quote`. -/
def QuoteFaithful (str : Text) (b : List Char) : Prop :=
  match xmlQuote str b 0 b.length with
  | .ok b' => b'.length = b.length ∧ nul ∈ b' ∧ cstr b' = cstr b ++ (['"'] ++ escape str ++ ['"'])
  | .error .exited => b.length ≤ strlen b + ((escape str).length + 2)
  | .error .outside => False

/-- Every call that is reached is faithful. -/
def RunFaithful (calls : List Call) (b : List Char) : Prop :=
  ∀ before c after b', calls = before ++ c :: after → runCalls before b = .ok b' → Faithful c b'

/-- The string after a run. -/
def Yields (calls : List Call) (b : List Char) : Prop :=
  match runCalls calls b with
  | .ok b' => b'.length = b.length ∧ nul ∈ b' ∧ cstr b' = cstr b ++ texts calls
  | .error .exited => b.length ≤ strlen b + (texts calls).length
  | .error .outside => False

/-- The lengths at which a call keeps to this: of the buffer, of the string in it, and of the text. Either the
text does not fit, or the free room as an `int` leaves a byte over. -/
def Meets (max held len : Nat) : Prop :=
  (max ≤ held + len ∧ (toInt (max - 1 - held : Nat) = 0 ∨ 0 ≤ toInt held)) ∨
    (held < 0x80000000 ∧ len < toInt (max - 1 - held : Nat))

/-- The strings on which `xml_quote` keeps to it: the value does not fit, or the room left at each of its
entities is larger than that also as an `int`. -/
def QuoteMeets (max held : Nat) (str : Text) : Prop :=
  max ≤ held + ((escape str).length + 2) ∨
    ∀ before c after e, str = before ++ c :: after → entity c = some e →
      e.length < toInt (max - 2 - held - (escape before).length : Nat)

section

variable {b b' s tail : List Char} {c : Call} {calls : List Call} {f : List Char → Except End (List Char)}
  {text str : Text} {max held len : Nat}

/-! One call. -/

theorem length_printD (x : Int32) : (printD x).length ≤ 11 ∧ nul ∉ printD x := by
  have hdigits : ∀ n, n < 0x100000000 → (Nat.toDigits 10 n).length ≤ 10 := by
    intro n hn
    refine (Nat.length_toDigits_le_iff (by decide) (by decide)).mpr (Nat.lt_of_lt_of_le hn ?_)
    decide
  have hnul : ∀ n, nul ∉ Nat.toDigits 10 n := by
    intro n h
    have hdigit := Nat.isDigit_of_mem_toDigits (by decide) (by decide) h
    revert hdigit
    decide
  have hlow := x.le_toInt
  have hhigh := x.toInt_lt
  have habs : x.toInt.natAbs < 0x100000000 := by omega
  have hlength := hdigits _ habs
  rw [printD]
  split_ifs
  · refine ⟨Nat.succ_le_succ hlength, fun h => ?_⟩
    rcases List.mem_cons.mp h with h | h
    · revert h
      decide
    · exact hnul _ h
  · exact ⟨Nat.le_succ_of_le hlength, hnul _⟩

theorem Call.prints (c : Call) : Prints c.run c.text := by
  cases c with
  | openElement tag withAttrs =>
    refine prints_text ?_
    have hname := (xmlTagName_spec tag).1
    cases withAttrs <;> simp only [List.length_append, List.length_cons, List.length_nil, if_true, Bool.false_eq_true,
      if_false] <;> omega
  | closeElement tag hasNested =>
    have hname := (xmlTagName_spec tag).1
    by_cases htag : tag = .none
    · have hrun : (Call.closeElement tag hasNested).run =
          fun b => (printText b ((if hasNested then ['>'] else ['/', '>']) ++ ['\n'])).map Prod.fst := by
        funext b
        rw [Call.run, closeXmlElement, if_pos htag]
      rw [hrun, Call.text, if_pos htag]
      refine prints_text ?_
      cases hasNested <;> decide
    · have hrun : (Call.closeElement tag hasNested).run =
          fun b => (printText b (['<', '/'] ++ xmlTagName tag ++ ['>', '\n'])).map Prod.fst := by
        funext b
        rw [Call.run, closeXmlElement, if_neg htag]
      rw [hrun, Call.text, if_neg htag]
      refine prints_text ?_
      simp only [List.length_append, List.length_cons, List.length_nil]
      omega
  | intAttr attr value =>
    refine prints_text ?_
    have hname := (xmlTagName_spec attr).1
    have hvalue := (length_printD value).1
    simp only [List.length_append, List.length_cons, List.length_nil]
    omega
  | strAttr attr str => exact prints_strAttr attr str.chars

theorem Call.text_spec (c : Call) : 0 < c.text.length ∧ nul ∉ c.text := by
  have hchars : ∀ x ∈ ['<', '>', '/', ' ', '=', '"', '\n'], nul ≠ x := by
    intro x hx
    simp only [List.mem_cons, List.not_mem_nil, or_false] at hx
    rcases hx with rfl | rfl | rfl | rfl | rfl | rfl | rfl <;> decide
  cases c with
  | openElement tag withAttrs =>
    have hname := (xmlTagName_spec tag).2
    cases withAttrs <;> simp_all [Call.text]
  | closeElement tag hasNested =>
    have hname := (xmlTagName_spec tag).2
    by_cases htag : tag = .none
    · cases hasNested <;> simp_all [Call.text]
    · simp_all [Call.text]
  | intAttr attr value =>
    have hname := (xmlTagName_spec attr).2
    have hvalue := (length_printD value).2
    simp_all [Call.text]
  | strAttr attr str =>
    have hname := (xmlTagName_spec attr).2
    have hvalue : nul ∉ escape str.chars := by
      refine not_mem_escape str.noNul fun c e h => ?_
      have hmem := entity_some h
      revert hmem
      simp only [List.mem_cons, Prod.mk.injEq, List.not_mem_nil, or_false]
      rintro (⟨-, rfl⟩ | ⟨-, rfl⟩ | ⟨-, rfl⟩ | ⟨-, rfl⟩) <;> decide
    simp_all [Call.text]

/-- What a success leaves. -/
theorem added (tail : List Char) (hs : nul ∉ s) (htext : nul ∉ text) :
    (s ++ text ++ nul :: tail).length = s.length + text.length + tail.length + 1 ∧
    nul ∈ s ++ text ++ nul :: tail ∧ cstr (s ++ text ++ nul :: tail) = s ++ text := by
  refine ⟨?_, List.mem_append_right _ List.mem_cons_self, cstr_append ?_⟩
  · rw [List.length_append, List.length_append, List.length_cons]
    omega
  · intro h
    rcases List.mem_append.mp h with h | h
    · exact hs h
    · exact htext h

/-- A call keeps to what it is for at exactly these lengths. -/
theorem faithful_iff_meets (c : Call) (hb : nul ∈ b) :
    Faithful c b ↔ Meets b.length (strlen b) c.text.length := by
  obtain ⟨tail, htail⟩ := split_cstr hb
  have hs := not_mem_cstr b
  have hstrlen : strlen b = (cstr b).length := rfl
  generalize cstr b = s at htail hs hstrlen
  subst htail
  obtain ⟨hpos, hnul⟩ := c.text_spec
  have hcstr : cstr (s ++ nul :: tail) = s := cstr_append hs
  have hlength : (s ++ nul :: tail).length = s.length + tail.length + 1 := by
    rw [List.length_append, List.length_cons]
    omega
  have hfree : s.length + tail.length + 1 - 1 - s.length = tail.length := by omega
  rw [Faithful, Meets, hstrlen, hcstr, hlength, hfree]
  have hplace := toInt_le s.length
  have hroom := toInt_le tail.length
  have hspace := toInt_bounds tail.length
  by_cases hzero : toInt tail.length = 0
  · rw [c.prints.zero s tail hs hzero]
    dsimp only
    constructor
    · intro h
      exact Or.inl ⟨h, Or.inl hzero⟩
    · rintro (⟨h, -⟩ | ⟨-, h⟩)
      · exact h
      · omega
  · by_cases hneg : toInt s.length < 0
    · rw [c.prints.outside s tail hs hzero hneg]
      refine iff_of_false id ?_
      rintro (⟨-, h | h⟩ | ⟨h, -⟩)
      · exact hzero h
      · omega
      · have hlarge := toInt_neg hneg
        omega
    · obtain ⟨i, hi⟩ := Int.eq_ofNat_of_zero_le (Int.not_lt.mp hneg)
      by_cases hshort : toInt tail.length ≤ c.text.length
      · rw [c.prints.short s tail i hs hi hshort]
        dsimp only
        constructor
        · intro h
          exact Or.inl ⟨h, Or.inr (by omega)⟩
        · rintro (⟨h, -⟩ | ⟨-, h⟩)
          · exact h
          · omega
      · obtain ⟨tail', heq, hsum⟩ := c.prints.room s tail i hs hi (by omega)
        rw [heq]
        dsimp only
        by_cases hsmall : s.length < 0x80000000
        · have hi' : i = s.length := by
            rw [toInt_small hsmall] at hi
            omega
          rw [hi'] at hsum
          rw [hi', List.take_length]
          obtain ⟨hall, hmem, hadded⟩ := added tail' hs hnul
          exact iff_of_true ⟨by rw [hall]; omega, hmem, hadded⟩ (Or.inr ⟨hsmall, by omega⟩)
        · have hlarge := toInt_large (Nat.not_lt.mp hsmall)
          have htake : (s.take i).length = i := by
            rw [List.length_take]
            omega
          have hfront : nul ∉ s.take i := fun h => hs (List.mem_of_mem_take h)
          obtain ⟨-, -, hadded⟩ := added tail' hfront hnul
          refine iff_of_false ?_ ?_
          · rintro ⟨-, -, h⟩
            rw [hadded] at h
            have hsame := congrArg List.length h
            rw [List.length_append, List.length_append, htake] at hsame
            omega
          · rintro (⟨h, -⟩ | ⟨h, -⟩) <;> omega

theorem quoteFaithful_iff_meets (str : CString) (hb : nul ∈ b) (hlt : b.length < 0x10000000000000000) :
    QuoteFaithful str.chars b ↔ QuoteMeets b.length (strlen b) str.chars := by
  obtain ⟨tail, htail⟩ := split_cstr hb
  have hs := not_mem_cstr b
  have hstrlen : strlen b = (cstr b).length := rfl
  generalize cstr b = s at htail hs hstrlen
  subst htail
  have hcstr : cstr (s ++ nul :: tail) = s := cstr_append hs
  have hlength : (s ++ nul :: tail).length = s.length + tail.length + 1 := by
    rw [List.length_append, List.length_cons]
    omega
  have hvalue : nul ∉ ['"'] ++ escape str.chars ++ ['"'] := by
    intro h
    have htext := (Call.strAttr .none str).text_spec.2
    exact htext (List.mem_append_right _ h)
  have hquoted : (['"'] ++ escape str.chars ++ ['"']).length = (escape str.chars).length + 2 := by
    simp only [List.length_append, List.length_singleton]
    omega
  rw [hlength] at hlt
  obtain ⟨hok, herr⟩ := xmlQuote_spec str.chars [] s tail (s.length + tail.length + 1) hs (by omega) (by omega) hlt
  rw [QuoteFaithful, QuoteMeets, hstrlen, hcstr, hlength]
  simp only [List.nil_append] at hok herr
  have hsize : s.length + tail.length + 1 - 1 - s.length - 1 = s.length + tail.length + 1 - 2 - s.length := by omega
  rw [hsize] at hok herr
  by_cases hroom : s.length + (escape str.chars).length + 3 ≤ s.length + tail.length + 1
  · have hiff := fits_iff str.chars (s.length + tail.length + 1 - 2 - s.length) (by omega)
    by_cases hfits : Fits str.chars (s.length + tail.length + 1 - 2 - s.length)
    · obtain ⟨tail', hsum, heq⟩ := hok ⟨hfits, hroom⟩
      have hrun : xmlQuote str.chars (s ++ nul :: tail) 0 (s.length + tail.length + 1) =
          .ok (s ++ (['"'] ++ escape str.chars ++ ['"']) ++ nul :: tail') := heq
      rw [hrun]
      obtain ⟨hall, hmem, hadded⟩ := added tail' hs hvalue
      exact iff_of_true ⟨by rw [hall]; omega, hmem, hadded⟩ (Or.inr (hiff.mp hfits))
    · have hrun : xmlQuote str.chars (s ++ nul :: tail) 0 (s.length + tail.length + 1) = .error .exited :=
        herr fun h => hfits h.1
      rw [hrun]
      refine iff_of_false (by dsimp only; omega) ?_
      rintro (h | h)
      · omega
      · exact hfits (hiff.mpr h)
  · have hrun : xmlQuote str.chars (s ++ nul :: tail) 0 (s.length + tail.length + 1) = .error .exited :=
      herr fun h => hroom h.2
    rw [hrun]
    exact iff_of_true (by dsimp only; omega) (Or.inl (by omega))

/-! Runs. -/

theorem runCalls_cons (c : Call) (calls : List Call) (b : List Char) :
    runCalls (c :: calls) b = c.run b >>= runCalls calls := List.foldlM_cons

@[simp] theorem texts_cons (c : Call) (calls : List Call) : texts (c :: calls) = c.text ++ texts calls :=
  List.flatMap_cons

theorem runFaithful_cons : RunFaithful (c :: calls) b ↔
    Faithful c b ∧ ∀ b', c.run b = .ok b' → RunFaithful calls b' := by
  constructor
  · intro h
    refine ⟨h [] c calls b rfl rfl, fun b' hrun before d after b'' heq hbefore => ?_⟩
    refine h (c :: before) d after b'' (by rw [heq]; rfl) ?_
    rw [runCalls_cons, hrun]
    exact hbefore
  · rintro ⟨hfirst, hrest⟩ before d after b'' heq hbefore
    cases before with
    | nil =>
      rw [List.nil_append, List.cons.injEq] at heq
      obtain ⟨rfl, -⟩ := heq
      cases hbefore
      exact hfirst
    | cons x before =>
      rw [List.cons_append, List.cons.injEq] at heq
      obtain ⟨rfl, heq⟩ := heq
      rw [runCalls_cons] at hbefore
      obtain ⟨b', hrun, hbefore⟩ := Results.bind_ok hbefore
      exact hrest b' hrun before d after b'' heq hbefore

/-- A run whose calls are all faithful concatenates their texts. -/
theorem RunFaithful.yields (h : RunFaithful calls b) (hb : nul ∈ b) : Yields calls b := by
  induction calls generalizing b with
  | nil => exact ⟨rfl, hb, (List.append_nil _).symm⟩
  | cons c calls ih =>
    obtain ⟨hfirst, hrest⟩ := runFaithful_cons.mp h
    rw [Faithful] at hfirst
    rw [Yields, runCalls_cons, texts_cons]
    cases hrun : c.run b with
    | error e =>
      rw [hrun] at hfirst
      cases e with
      | exited =>
        change b.length ≤ strlen b + (c.text ++ texts calls).length
        have hlong : b.length ≤ strlen b + c.text.length := hfirst
        rw [List.length_append]
        omega
      | outside => exact hfirst
    | ok b' =>
      rw [hrun] at hfirst
      obtain ⟨hlength, hmem, hcstr⟩ := hfirst
      have hnext := ih (hrest b' hrun) hmem
      rw [Yields] at hnext
      rw [Results.ok_then]
      cases hend : runCalls calls b' with
      | error e =>
        rw [hend] at hnext
        cases e with
        | exited =>
          have hlong : b'.length ≤ strlen b' + (texts calls).length := hnext
          change b.length ≤ strlen b + (c.text ++ texts calls).length
          rw [hlength, strlen, hcstr, List.length_append] at hlong
          rw [List.length_append, strlen]
          omega
        | outside => exact hnext
      | ok b'' =>
        rw [hend] at hnext
        obtain ⟨hlength', hmem', hcstr'⟩ := hnext
        exact ⟨hlength'.trans hlength, hmem', by rw [hcstr', hcstr, List.append_assoc]⟩

/-- After a string that fills the buffer nothing is asked of a call. -/
theorem meets_full (h : max ≤ held) : Meets max held len := by
  have hnone : max - 1 - held = 0 := by omega
  refine Or.inl ⟨by omega, Or.inl ?_⟩
  rw [hnone]
  exact toInt_small (by decide)

/-- In a buffer of up to 2 GiB the only length that a call misses is that of an exact fit. -/
theorem meets_iff_not_exact (hheld : held < max) (hmax : max ≤ 0x80000000) :
    Meets max held len ↔ held + len + 1 ≠ max := by
  rw [Meets, toInt_small (by omega), toInt_small (by omega)]
  constructor
  · rintro (⟨h, -⟩ | ⟨-, h⟩) <;> omega
  · intro h
    by_cases hlong : max ≤ held + len
    · exact Or.inl ⟨hlong, Or.inr (by omega)⟩
    · exact Or.inr ⟨by omega, by omega⟩

/-- A run is faithful at exactly the lengths at which all its calls are. -/
theorem runFaithful_iff_meets (calls : List Call) (hb : nul ∈ b) : RunFaithful calls b ↔
    ∀ before c after, calls = before ++ c :: after →
      Meets b.length (strlen b + (texts before).length) c.text.length := by
  induction calls generalizing b with
  | nil =>
    refine iff_of_true (fun before c after b' h => ?_) fun before c after h => ?_
    · cases before <;> cases h
    · cases before <;> cases h
  | cons c calls ih =>
    rw [runFaithful_cons, faithful_iff_meets c hb]
    constructor
    · rintro ⟨hfirst, hrest⟩ before d after heq
      cases before with
      | nil =>
        rw [List.nil_append, List.cons.injEq] at heq
        obtain ⟨rfl, -⟩ := heq
        exact hfirst
      | cons x before =>
        rw [List.cons_append, List.cons.injEq] at heq
        obtain ⟨rfl, heq⟩ := heq
        have hfaithful := (faithful_iff_meets c hb).mpr hfirst
        rw [Faithful] at hfaithful
        rw [texts_cons, List.length_append]
        cases hrun : c.run b with
        | error e =>
          rw [hrun] at hfaithful
          cases e with
          | exited =>
            have hlong : b.length ≤ strlen b + c.text.length := hfaithful
            exact meets_full (by omega)
          | outside => exact hfaithful.elim
        | ok b' =>
          rw [hrun] at hfaithful
          obtain ⟨hlength, hmem, hcstr⟩ := hfaithful
          have hnext := (ih hmem).mp (hrest b' hrun) before d after heq
          rw [hlength, strlen, hcstr, List.length_append] at hnext
          rwa [strlen, ← Nat.add_assoc]
    · intro h
      have hfirst := h [] c calls rfl
      refine ⟨hfirst, fun b' hrun => ?_⟩
      have hfaithful := (faithful_iff_meets c hb).mpr hfirst
      rw [Faithful, hrun] at hfaithful
      obtain ⟨hlength, hmem, hcstr⟩ := hfaithful
      refine (ih hmem).mpr fun before d after heq => ?_
      have hnext := h (c :: before) d after (by rw [heq]; rfl)
      rw [texts_cons, List.length_append] at hnext
      rw [hlength, strlen, hcstr, List.length_append, Nat.add_assoc]
      exact hnext

end

/-- The writer keeps to its buffer and loses nothing at exactly the lengths of `Meets`, and then a run of calls
concatenates their texts, with the values of the attributes escaped. -/
theorem xml_writer_exact_iff (b : List Char) (hb : nul ∈ b) (hmax : 2 ≤ b.length ∧ b.length < 0x10000000000000000) :
    (∀ c, Faithful c b ↔ Meets b.length (strlen b) c.text.length) ∧
    (∀ str : CString, QuoteFaithful str.chars b ↔ QuoteMeets b.length (strlen b) str.chars) ∧
    (∀ attr (str : CString), ∃ value, (Call.strAttr attr str).text =
        [' '] ++ xmlTagName attr ++ ['='] ++ (['"'] ++ value ++ ['"']) ∧
      '<' ∉ value ∧ '>' ∉ value ∧ '"' ∉ value ∧ Escaped value ∧ unescape value = str.chars) ∧
    (∀ calls, RunFaithful calls b ↔ ∀ before c after, calls = before ++ c :: after →
      Meets b.length (strlen b + (texts before).length) c.text.length) ∧
    ∀ calls, RunFaithful calls b → Yields calls b := by
  refine ⟨fun c => faithful_iff_meets c hb, fun str => quoteFaithful_iff_meets str hb hmax.2, fun attr str => ?_,
    fun calls => runFaithful_iff_meets calls hb, fun calls h => h.yields hb⟩
  have hescaped := escaped_escape str.chars
  obtain ⟨hlt, hgt, hquot⟩ := hescaped.not_mem
  exact ⟨escape str.chars, rfl, hlt, hgt, hquot, hescaped, unescape_escape str.chars⟩

/-- A buffer of a start tag and some bytes. -/
def startTag (n : Nat) : List Char := "<symbol".toList ++ nul :: List.replicate n 'x'

theorem noNul_template : nul ∉ "f<T>".toList := by decide

theorem xml_writer_exact_iff_start_tag :
    (∀ c, Faithful c (startTag 30) ↔ Meets (startTag 30).length (strlen (startTag 30)) c.text.length) ∧
    (∀ str : CString, QuoteFaithful str.chars (startTag 30) ↔
      QuoteMeets (startTag 30).length (strlen (startTag 30)) str.chars) ∧
    (∀ attr (str : CString), ∃ value, (Call.strAttr attr str).text =
        [' '] ++ xmlTagName attr ++ ['='] ++ (['"'] ++ value ++ ['"']) ∧
      '<' ∉ value ∧ '>' ∉ value ∧ '"' ∉ value ∧ Escaped value ∧ unescape value = str.chars) ∧
    (∀ calls, RunFaithful calls (startTag 30) ↔ ∀ before c after, calls = before ++ c :: after →
      Meets (startTag 30).length (strlen (startTag 30) + (texts before).length) c.text.length) ∧
    ∀ calls, RunFaithful calls (startTag 30) → Yields calls (startTag 30) :=
  xml_writer_exact_iff (startTag 30) (by decide) (by decide)

/-- Exactly one byte is left for each character of the name and for the zero byte, and the writer exits. -/
theorem exits_at_exact_fit :
    strlen (startTag 18) + (Call.strAttr .name ⟨"f<T>".toList, noNul_template⟩).text.length + 1 =
      (startTag 18).length ∧
    (Call.strAttr .name ⟨"f<T>".toList, noNul_template⟩).run (startTag 18) = .error .exited ∧
    ¬Faithful (.strAttr .name ⟨"f<T>".toList, noNul_template⟩) (startTag 18) := by
  have hrun : (Call.strAttr .name ⟨"f<T>".toList, noNul_template⟩).run (startTag 18) = .error .exited := by
    decide +kernel
  refine ⟨by decide, hrun, fun h => ?_⟩
  rw [Faithful, hrun] at h
  revert h
  decide

end Oprofile.Libop.XmlOut
