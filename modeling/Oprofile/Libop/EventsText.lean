import Oprofile.Libop.EventsFile

/-! The text of an events file is read as what it describes. -/
namespace Oprofile.Libop.EventsFile

open SampleNames (Text printD)
open CNumbers
open UnitMaskFiles UnitMaskFiles.UmState

variable {archCounterMask : UInt32} {included : Text → EventState → Except UmStop EventState}

/-! ### Numbers -/

theorem parseInt_of_strtol {str : Text} {n : Int32}
    (hdigit : (splitSign (str.dropWhile isSpace)).2.takeWhile (isDigitOf 10) ≠ []) (h : strtol10 str = n.toInt) :
    parseInt str = .ok n := by
  rw [parseInt, if_neg hdigit, atoi, h, Int32.ofInt_toInt]

/-- A printed number is read back. -/
theorem parseInt_printD (n : Int32) : parseInt (printD n) = .ok n := by
  have hdigits := isDigitOf_toDigits (by decide : 1 < 10) (by decide : 10 ≤ 16) n.toInt.natAbs
  have hne : Nat.toDigits 10 n.toInt.natAbs ≠ [] := List.ne_nil_of_length_pos Nat.length_toDigits_pos
  have hlo := n.le_toInt
  have hhi := n.toInt_lt
  have htake := takeWhile_digits (t := []) hdigits rfl
  rw [List.append_nil] at htake
  by_cases hneg : n.toInt < 0
  · rw [printD, if_pos hneg]
    apply parseInt_of_strtol
    · rw [List.dropWhile_cons_of_neg (by decide), splitSign, if_pos rfl, htake]
      exact hne
    · have h := strtol10_negative (t := []) (n := n.toInt.natAbs) (by omega) rfl
      rw [List.append_nil] at h
      rw [h]
      omega
  · rw [printD, if_neg hneg]
    apply parseInt_of_strtol
    · have h := digits_front (t := []) (by decide) hne hdigits
      rw [List.append_nil] at h
      rw [h, htake]
      exact hne
    · have h := strtol10_toDigits (t := []) (n := n.toInt.natAbs) (by omega) rfl
      rw [List.append_nil] at h
      rw [h]
      omega

theorem parseInt_number (n : Fin 32) {t : Text} (htail : t.head?.all (fun c => !isDigitOf 10 c) = true) :
    parseInt (Nat.toDigits 10 n ++ t) = .ok (Int32.ofInt n) := by
  have hdigits := isDigitOf_toDigits (by decide : 1 < 10) (by decide : 10 ≤ 16) n
  have hne : Nat.toDigits 10 n ≠ [] := List.ne_nil_of_length_pos Nat.length_toDigits_pos
  have hlt : (n : Nat) < 32 := n.isLt
  apply parseInt_of_strtol
  · rw [digits_front (by decide) hne hdigits, takeWhile_digits hdigits htail]
    exact hne
  · rw [strtol10_toDigits (by omega) htail]
    exact (Int32.toInt_ofInt_of_le (by omega) (by omega)).symm

theorem counterBit_number (n : Fin 32) : counterBit (Int32.ofInt n.val) = numberBit n := by
  revert n
  decide

theorem not_comma_of_digit {base : Nat} (hbase : base ≤ 36) {s : Text} (hs : ∀ c ∈ s, isDigitOf base c = true) :
    ∀ c ∈ s, decide (c ≠ ',') = true := by
  intro c hc
  have h48 := toNat_of_digit hbase (hs c hc)
  exact decide_eq_true (ne_of_toNat (Nat.lt_of_lt_of_le (by decide : 44 < 48) h48))

theorem isBlank_of_digit {base : Nat} (hbase : base ≤ 36) {c : Char} (h : isDigitOf base c = true) :
    isBlank c = false := by
  have h48 := toNat_of_digit hbase h
  have hspace : c ≠ ' ' := ne_of_toNat (Nat.lt_of_lt_of_le (by decide : 32 < 48) h48)
  have htab : c ≠ '\t' := ne_of_toNat (Nat.lt_of_lt_of_le (by decide : 9 < 48) h48)
  have hline : c ≠ '\n' := ne_of_toNat (Nat.lt_of_lt_of_le (by decide : 10 < 48) h48)
  simp [isBlank, hspace, htab, hline]

theorem skipWs_of_head {t : Text} (h : t.head?.all (fun c => !isBlank c) = true) : skipWs t = t := by
  cases t with
  | nil => rfl
  | cons c t => exact List.dropWhile_cons_of_neg (by simpa using h)

theorem numbersText_head (n : Fin 32) (numbers : List (Fin 32)) :
    ∃ c t, numbersText (n :: numbers) = c :: t ∧ isDigitOf 10 c = true := by
  have hdigits := isDigitOf_toDigits (by decide : 1 < 10) (by decide : 10 ≤ 16) n
  obtain ⟨c, t, ht⟩ := List.exists_cons_of_ne_nil (List.ne_nil_of_length_pos (Nat.length_toDigits_pos (b := 10) (n := n)))
  have hc : isDigitOf 10 c = true := hdigits c (ht ▸ List.mem_cons_self)
  cases numbers with
  | nil => exact ⟨c, t, ht, hc⟩
  | cons m numbers => exact ⟨c, t ++ ',' :: numbersText (m :: numbers), by rw [numbersText, ht, List.cons_append], hc⟩

/-- What a round of the loop leaves of the text. -/
theorem numbersText_rest (n : Fin 32) (numbers : List (Fin 32)) :
    skipWs (((numbersText (n :: numbers)).dropWhile (· ≠ ',')).drop 1) = numbersText numbers := by
  have hdigits := isDigitOf_toDigits (by decide : 1 < 10) (by decide : 10 ≤ 16) n
  have hcomma := not_comma_of_digit (by decide) hdigits
  cases numbers with
  | nil =>
    have hnone : (Nat.toDigits 10 n).dropWhile (· ≠ ',') = [] := List.dropWhile_eq_nil_iff.mpr hcomma
    exact congrArg (fun c : Text => skipWs (c.drop 1)) hnone
  | cons m numbers =>
    rw [numbersText, List.dropWhile_append_of_pos hcomma, List.dropWhile_cons_of_neg (by simp), List.drop_one,
      List.tail_cons]
    obtain ⟨c, t, ht, hc⟩ := numbersText_head m numbers
    rw [ht]
    exact skipWs_of_head (by simp [isBlank_of_digit (by decide) hc])

theorem parseInt_numbersText (n : Fin 32) (numbers : List (Fin 32)) :
    parseInt (numbersText (n :: numbers)) = .ok (Int32.ofInt n) := by
  cases numbers with
  | nil =>
    have h := parseInt_number n (t := []) rfl
    rwa [List.append_nil] at h
  | cons m numbers => exact parseInt_number n rfl

theorem parseCounterMaskLoop_numbersText (numbers : List (Fin 32)) :
    ∀ (rounds : Nat) (mask : UInt32), numbers.length ≤ rounds →
      parseCounterMaskLoop rounds mask (numbersText numbers) =
        .ok (numbers.foldl (fun mask n => mask ||| numberBit n) mask) := by
  induction numbers with
  | nil =>
    intro rounds mask _
    cases rounds <;> rfl
  | cons n numbers ih =>
    intro rounds mask hrounds
    obtain ⟨rounds, rfl⟩ : ∃ k, rounds = k + 1 := ⟨rounds - 1, by simp at hrounds; omega⟩
    have hint := parseInt_numbersText n numbers
    have hrest := numbersText_rest n numbers
    obtain ⟨c, t, ht, -⟩ := numbersText_head n numbers
    rw [ht] at hint hrest ⊢
    rw [parseCounterMaskLoop, hint]
    dsimp only
    rw [hrest, ih rounds _ (by simpa using hrounds), counterBit_number, List.foldl_cons]

theorem length_numbersText (numbers : List (Fin 32)) : numbers.length ≤ (numbersText numbers).length := by
  induction numbers with
  | nil => rfl
  | cons n numbers ih =>
    have hpos := Nat.length_toDigits_pos (b := 10) (n := n)
    cases numbers with
    | nil => exact hpos
    | cons m numbers =>
      simp only [numbersText, List.length_append, List.length_cons] at ih ⊢
      omega

theorem parseCounterMask_numbersText (numbers : List (Fin 32)) :
    parseCounterMask (numbersText numbers) = .ok (numbersMask numbers) :=
  parseCounterMaskLoop_numbersText numbers _ 0 ((length_numbersText numbers).trans (Nat.le_succ _))

theorem scanHex_print (val : UInt32) : scanHex (Nat.toDigits 16 val.toNat) = some (val, []) := by
  have hdigits := isDigitOf_toDigits (by decide : 1 < 16) (by decide : 16 ≤ 16) val.toNat
  have hne : Nat.toDigits 16 val.toNat ≠ [] := List.ne_nil_of_length_pos Nat.length_toDigits_pos
  have hfront := digits_front (t := []) (by decide) hne hdigits
  have htake := takeWhile_digits (t := []) hdigits rfl
  rw [List.append_nil] at hfront htake
  have hdrop : (Nat.toDigits 16 val.toNat).dropWhile (isDigitOf 16) = [] := List.dropWhile_eq_nil_iff.mpr hdigits
  have hvalue := numeral_toDigits (by decide : 1 < 16) (by decide : 16 ≤ 16) val.toNat
  have hlt := val.toNat_lt
  unfold scanHex
  rw [hfront]
  dsimp only
  split
  · -- the second character is a digit, and no `x`
    next x d rest heq =>
    have hx : isDigitOf 16 x = true := hdigits x (by simp [heq])
    have hnot : ¬((x = 'x' ∨ x = 'X') ∧ isDigitOf 16 d = true) := by
      rintro ⟨rfl | rfl, -⟩ <;> exact absurd hx (by decide)
    rw [if_neg hnot, ← heq, htake, if_neg hne, hvalue, if_neg (by omega), hdrop]
    simp
  · rw [htake, if_neg hne, hvalue, if_neg (by omega), hdrop]
    simp

theorem parseHex_print (val : UInt32) : parseHex ('0' :: 'x' :: Nat.toDigits 16 val.toNat) = .ok val := by
  rw [parseHex, scanHex_print]

/-! ### Tokens -/

theorem skipWs_blanks (lead : Blanks) (t : Text) : skipWs (lead.1 ++ t) = skipWs t :=
  List.dropWhile_append_of_pos lead.2

theorem skipNonws_word {w t : Text} (hw : ∀ c ∈ w, isBlank c = false) (ht : t.head?.all isBlank = true) :
    skipNonws (w ++ t) = t := by
  rw [skipNonws, List.dropWhile_append_of_pos fun c hc => by simp [hw c hc]]
  cases t with
  | nil => rfl
  | cons c t => exact List.dropWhile_cons_of_neg (by simpa using ht)

/-- Blanks in front are skipped. -/
theorem nextToken_blanks (lead : Blanks) (t : Text) : nextToken (lead.1 ++ t) = nextToken t := by
  rw [nextToken, nextToken, skipWs_blanks]

theorem text_plain (tag : EventTag) : ∀ c ∈ tag.text, isBlank c = false ∧ c ≠ ':' := by
  cases tag <;> simp [EventTag.text, isBlank]

theorem ofText_text (tag : EventTag) : EventTag.ofText tag.text = some tag := by
  cases tag <;> rfl

theorem text_ne_nil (tag : EventTag) : tag.text ≠ [] := by
  cases tag <;> decide

theorem text_head (tag : EventTag) (t : Text) : (tag.text ++ t).head?.all (fun c => !isBlank c) = true := by
  cases tag <;> rfl

/-- A tag with its value is read back. -/
theorem nextToken_tag (tag : EventTag) {value tail : Text} (hvalue : ∀ c ∈ value, isBlank c = false)
    (htail : tail.head?.all isBlank = true) :
    nextToken (tag.text ++ ':' :: (value ++ tail)) = .ok (some (tag.text, value, skipWs tail)) := by
  have hword : ∀ c ∈ tag.text ++ ':' :: value, isBlank c = false := by
    intro c hc
    rcases List.mem_append.mp hc with hc | hc
    · exact (text_plain tag c hc).1
    · rcases List.mem_cons.mp hc with rfl | hc
      · rfl
      · exact hvalue c hc
  have hstop : skipNonws (tag.text ++ ':' :: (value ++ tail)) = tail := by
    have h := skipNonws_word hword htail
    rwa [List.append_assoc, List.cons_append] at h
  have hcolon : (tag.text ++ ':' :: (value ++ tail)).dropWhile (· ≠ ':') = ':' :: (value ++ tail) := by
    rw [List.dropWhile_append_of_pos fun c hc => decide_eq_true (text_plain tag c hc).2]
    exact List.dropWhile_cons_of_neg (by simp)
  have hlen : 0 < tag.text.length := List.length_pos_iff.mpr (text_ne_nil tag)
  have htag : (tag.text ++ ':' :: (value ++ tail)).length - (':' :: (value ++ tail)).length = tag.text.length := by
    simp only [List.length_append, List.length_cons]
    omega
  have hval : (':' :: (value ++ tail)).length - 1 - tail.length = value.length := by
    simp only [List.length_append, List.length_cons]
    omega
  have hbefore : ¬(':' :: (value ++ tail)).length ≤ tail.length := by
    simp only [List.length_append, List.length_cons]
    omega
  unfold nextToken
  dsimp only
  rw [skipWs_of_head (text_head tag _), hstop, hcolon, htag, hval, if_neg (List.cons_ne_nil _ _), if_neg hbefore,
    if_neg (Nat.ne_of_gt hlen), List.take_left, List.drop_one, List.tail_cons, List.take_left]

/-- So is a description. -/
theorem nextToken_desc (lead : Blanks) {desc : Text} (hdesc : desc.head?.all (fun c => !isBlank c) = true) :
    nextToken (':' :: ' ' :: (lead.1 ++ desc)) = .ok (some (EventTag.desc.text, desc, [])) := by
  have hc : skipWs (':' :: ' ' :: (lead.1 ++ desc)) = ':' :: ' ' :: (lead.1 ++ desc) := rfl
  have hstop : skipNonws (':' :: ' ' :: (lead.1 ++ desc)) = ' ' :: (lead.1 ++ desc) := rfl
  have hcolon : (':' :: ' ' :: (lead.1 ++ desc)).dropWhile (· ≠ ':') = ':' :: ' ' :: (lead.1 ++ desc) := rfl
  have hskip : skipWs (' ' :: (lead.1 ++ desc)) = desc := by
    have hblank : skipWs (' ' :: (lead.1 ++ desc)) = skipWs (lead.1 ++ desc) := rfl
    rw [hblank, skipWs_blanks, skipWs_of_head hdesc]
  unfold nextToken
  dsimp only
  rw [hc, hstop, hcolon, hskip, if_neg (List.cons_ne_nil _ _), if_neg (by simp), if_pos (Nat.sub_self _)]

theorem nextToken_nil : nextToken [] = .ok none := rfl

/-! ### Lines -/

/-- The line as far as some tags go. -/
def EventSpec.only (spec : EventSpec) (tags : List EventTag) : EventSpec where
  name := if EventTag.name ∈ tags then spec.name else none
  val := if EventTag.event ∈ tags then spec.val else none
  counters := if EventTag.counters ∈ tags then spec.counters else none
  ext := if EventTag.ext ∈ tags then spec.ext else none
  um := if EventTag.um ∈ tags then spec.um else none
  minimum := if EventTag.minimum ∈ tags then spec.minimum else none
  filter := if EventTag.filter ∈ tags then spec.filter else none
  desc := none

variable {spec : EventSpec} {tag : EventTag} {tags : List EventTag} {value : Text}

theorem toDigits_plain {base : Nat} (hbase : 1 < base) (hle : base ≤ 16) (n : Nat) :
    ∀ c ∈ Nat.toDigits base n, isBlank c = false := fun c hc =>
  isBlank_of_digit (hle.trans (by decide)) (isDigitOf_toDigits hbase hle n c hc)

theorem numbersText_plain (numbers : List (Fin 32)) : ∀ c ∈ numbersText numbers, isBlank c = false := by
  have hdigits := fun n : Fin 32 => toDigits_plain (by decide : 1 < 10) (by decide : 10 ≤ 16) n.val
  induction numbers with
  | nil => simp [numbersText]
  | cons n numbers ih =>
    cases numbers with
    | nil => exact hdigits n
    | cons m numbers =>
      intro c hc
      rcases List.mem_append.mp hc with hc | hc
      · exact hdigits n c hc
      · rcases List.mem_cons.mp hc with rfl | hc
        · rfl
        · exact ih c hc

theorem printD_plain (n : Int32) : ∀ c ∈ printD n, isBlank c = false := by
  have hdigits := toDigits_plain (by decide : 1 < 10) (by decide : 10 ≤ 16) n.toInt.natAbs
  intro c hc
  unfold printD at hc
  split at hc
  · rcases List.mem_cons.mp hc with rfl | hc
    · rfl
    · exact hdigits c hc
  · exact hdigits c hc

theorem value_plain (h : spec.value tag = some value) : ∀ c ∈ value, isBlank c = false := by
  cases tag with
  | name =>
    obtain ⟨name, -, rfl⟩ := Option.map_eq_some_iff.mp h
    exact name.1.2
  | event =>
    obtain ⟨val, -, rfl⟩ := Option.map_eq_some_iff.mp h
    intro c hc
    rcases List.mem_cons.mp hc with rfl | hc
    · rfl
    · rcases List.mem_cons.mp hc with rfl | hc
      · rfl
      · exact toDigits_plain (by decide) (by decide) _ c hc
  | counters =>
    obtain ⟨counters, -, rfl⟩ := Option.map_eq_some_iff.mp h
    cases counters with
    | cpuid => simp [Counters.text, isBlank]
    | numbers numbers => exact numbersText_plain numbers
  | ext =>
    obtain ⟨ext, -, rfl⟩ := Option.map_eq_some_iff.mp h
    exact ext.2
  | um =>
    obtain ⟨um, -, rfl⟩ := Option.map_eq_some_iff.mp h
    exact um.2
  | minimum =>
    obtain ⟨n, -, rfl⟩ := Option.map_eq_some_iff.mp h
    exact printD_plain n
  | desc => cases h
  | filter =>
    obtain ⟨n, -, rfl⟩ := Option.map_eq_some_iff.mp h
    exact printD_plain n
  | includes => cases h

theorem numbersText_ne_cpuid (numbers : List (Fin 32)) : numbersText numbers ≠ ['c', 'p', 'u', 'i', 'd'] := by
  cases numbers with
  | nil => simp [numbersText]
  | cons n numbers =>
    obtain ⟨c, t, ht, hc⟩ := numbersText_head n numbers
    rw [ht]
    intro h
    rw [(List.cons.inj h).1] at hc
    exact absurd hc (by decide)

/-- A tag other than `um:` stores what the line says. -/
theorem storeTag_value (hum : tag ≠ .um) (h : spec.value tag = some value) (unit : Option Nat) (ums : UmState) :
    storeTag archCounterMask tag value ((spec.only tags).event archCounterMask unit) ums =
      .ok ((spec.only (tag :: tags)).event archCounterMask unit, ums) := by
  cases tag with
  | name =>
    obtain ⟨name, hname, rfl⟩ := Option.map_eq_some_iff.mp h
    rw [storeTag, if_neg name.2.1, if_neg name.2.2]
    simp [EventSpec.event, EventSpec.only, hname]
  | event =>
    obtain ⟨val, hval, rfl⟩ := Option.map_eq_some_iff.mp h
    rw [storeTag, parseHex_print]
    simp [EventSpec.event, EventSpec.only, hval, Except.map]
  | counters =>
    obtain ⟨counters, hcounters, rfl⟩ := Option.map_eq_some_iff.mp h
    cases counters with
    | cpuid =>
      rw [storeTag, Counters.text, if_pos rfl]
      simp [EventSpec.event, EventSpec.only, hcounters, Counters.mask]
    | numbers numbers =>
      rw [storeTag, Counters.text, if_neg (numbersText_ne_cpuid numbers), parseCounterMask_numbersText]
      simp [EventSpec.event, EventSpec.only, hcounters, Counters.mask, Except.map]
  | ext =>
    obtain ⟨ext, hext, rfl⟩ := Option.map_eq_some_iff.mp h
    simp [storeTag, EventSpec.event, EventSpec.only, hext]
  | um => exact (hum rfl).elim
  | minimum =>
    obtain ⟨n, hn, rfl⟩ := Option.map_eq_some_iff.mp h
    rw [storeTag, parseInt_printD]
    simp [EventSpec.event, EventSpec.only, hn, Except.map]
  | desc => cases h
  | filter =>
    obtain ⟨n, hn, rfl⟩ := Option.map_eq_some_iff.mp h
    rw [storeTag, parseInt_printD]
    simp [EventSpec.event, EventSpec.only, hn, Except.map]
  | includes => cases h

theorem ite_of_given {α : Type} {p : Prop} [Decidable p] {o : Option α} (h : o.isSome = true → p) :
    (if p then o else none) = o := by
  cases o with
  | none => exact ite_self none
  | some a => exact if_pos (h rfl)

/-- All that is given has been stored, but for the description. -/
theorem only_event (archCounterMask : UInt32) {spec : EventSpec} {tags : List EventTag}
    (h : ∀ tag, (spec.value tag).isSome = true → tag ∈ tags) (unit : Option Nat) :
    { (spec.only tags).event archCounterMask unit with desc := spec.desc.map Subtype.val } =
      spec.event archCounterMask unit := by
  have hname := ite_of_given (o := spec.name) fun hgiven => h .name (by simpa [EventSpec.value] using hgiven)
  have hval := ite_of_given (o := spec.val) fun hgiven => h .event (by simpa [EventSpec.value] using hgiven)
  have hcounters := ite_of_given (o := spec.counters) fun hgiven => h .counters (by simpa [EventSpec.value] using hgiven)
  have hext := ite_of_given (o := spec.ext) fun hgiven => h .ext (by simpa [EventSpec.value] using hgiven)
  have hminimum := ite_of_given (o := spec.minimum) fun hgiven => h .minimum (by simpa [EventSpec.value] using hgiven)
  have hfilter := ite_of_given (o := spec.filter) fun hgiven => h .filter (by simpa [EventSpec.value] using hgiven)
  simp only [EventSpec.event, EventSpec.only, hname, hval, hcounters, hext, hminimum, hfilter]

theorem readTags_blanks (archCounterMask : UInt32) (included : Text → EventState → Except UmStop EventState)
    (rounds : Nat) (tags : List EventTag) (event : OpEvent) (lead : Blanks) (t : Text) (s : EventState) :
    readTags archCounterMask included (rounds + 1) tags event (lead.1 ++ t) s =
      readTags archCounterMask included (rounds + 1) tags event t s := by
  rw [readTags, nextToken_blanks, readTags]

theorem descText_head (line : EventLine) : line.descText.head?.all (fun c => !isBlank c) = true := by
  unfold EventLine.descText
  cases line.spec.desc <;> rfl

/-- The end of a line. -/
theorem readTags_descText (line : EventLine) {rounds : Nat} (hrounds : 2 ≤ rounds) {tags : List EventTag}
    (htags : ∀ tag, (line.spec.value tag).isSome = true → tag ∈ tags) (unit : Option Nat) (s : EventState) :
    readTags archCounterMask included rounds tags ((line.spec.only tags).event archCounterMask unit) line.descText s =
      .ok (s.add (line.spec.event archCounterMask unit)) := by
  obtain ⟨rounds, rfl⟩ : ∃ k, rounds = k + 2 := ⟨rounds - 2, by omega⟩
  have hevent := only_event archCounterMask htags unit
  cases hdesc : line.spec.desc with
  | none =>
    rw [hdesc] at hevent
    rw [EventLine.descText, hdesc, ← hevent]
    rfl
  | some desc =>
    rw [hdesc] at hevent
    rw [EventLine.descText, hdesc, Option.map_some, Option.getD_some, readTags, nextToken_desc line.descLead desc.2]
    dsimp only
    rw [ofText_text]
    dsimp only
    rw [if_neg (by simp [EventTag.once]), if_neg (by decide), storeTag]
    dsimp only
    rw [readTags, nextToken_nil, ← hevent]
    rfl

theorem gap_head {spec : EventSpec} {undescribed : Bool} {tail : Text} (htail : undescribed = true → tail = [])
    {gap : Blanks} {order : List (EventTag × Blanks)} (h : gap.1 ≠ [] ∨ order = [] ∧ undescribed = true) :
    (gap.1 ++ orderText spec tail order).head?.all isBlank = true := by
  obtain ⟨gap, hgap⟩ := gap
  cases gap with
  | nil =>
    rcases h with h | ⟨rfl, hundescribed⟩
    · exact (h rfl).elim
    · rw [orderText, htail hundescribed]
      rfl
  | cons c gap => exact hgap c List.mem_cons_self

theorem orderText_head {spec : EventSpec} {tail : Text} (htail : tail.head?.all (fun c => !isBlank c) = true)
    (order : List (EventTag × Blanks)) : (orderText spec tail order).head?.all (fun c => !isBlank c) = true := by
  cases order with
  | nil => exact htail
  | cons p order => exact text_head p.1 _

/-- The tags of a line that are still to come, when those before have been stored. -/
theorem readTags_orderText (archCounterMask : UInt32) (included : Text → EventState → Except UmStop EventState)
    (line : EventLine) (order : List (EventTag × Blanks)) :
    ∀ (rounds : Nat) (tags : List EventTag) (unit : Option Nat) (s : EventState), order.length + 2 ≤ rounds →
      (order.map Prod.fst).Nodup →
      (∀ tag ∈ order.map Prod.fst, tag ∉ tags ∧ (line.spec.value tag).isSome = true) →
      (∀ tag, (line.spec.value tag).isSome = true → tag ∈ tags ∨ tag ∈ order.map Prod.fst) →
      Separated line.spec.desc.isNone order →
      readTags archCounterMask included rounds tags ((line.spec.only tags).event archCounterMask unit)
          (orderText line.spec line.descText order) s =
        line.spec.resolve archCounterMask unit s (if EventTag.um ∈ order.map Prod.fst then line.spec.um else none) := by
  induction order with
  | nil =>
    intro rounds tags unit s hrounds _ _ hall _
    have htags : ∀ tag, (line.spec.value tag).isSome = true → tag ∈ tags := by
      intro tag hgiven
      simpa using hall tag hgiven
    exact readTags_descText line hrounds htags unit s
  | cons p order ih =>
    obtain ⟨tag, gap⟩ := p
    intro rounds tags unit s hrounds hnodup hnew hall hsep
    obtain ⟨rounds, rfl⟩ : ∃ k, rounds = k + 1 := ⟨rounds - 1, by omega⟩
    have hrounds' : order.length + 2 ≤ rounds := by
      simp only [List.length_cons] at hrounds
      omega
    obtain ⟨hout, hgiven⟩ := hnew tag List.mem_cons_self
    obtain ⟨value, hvalue⟩ := Option.isSome_iff_exists.mp hgiven
    obtain ⟨hnot, hnodup'⟩ := List.nodup_cons.mp hnodup
    have hundescribed : line.spec.desc.isNone = true → line.descText = [] := by
      intro hnone
      rw [EventLine.descText, Option.isNone_iff_eq_none.mp hnone]
      rfl
    have hgap : (gap.1 ++ orderText line.spec line.descText order).head?.all isBlank = true :=
      gap_head hundescribed hsep.1
    have htoken := nextToken_tag tag (value_plain hvalue) hgap
    rw [skipWs_blanks, skipWs_of_head (orderText_head (descText_head line) order)] at htoken
    have hincludes : tag ≠ .includes := by
      rintro rfl
      cases hvalue
    have hnew' : ∀ other ∈ order.map Prod.fst, other ∉ tag :: tags ∧ (line.spec.value other).isSome = true := by
      intro other hother
      refine ⟨fun hin => ?_, (hnew other (List.mem_cons_of_mem _ hother)).2⟩
      rcases List.mem_cons.mp hin with rfl | hin
      · exact hnot hother
      · exact (hnew other (List.mem_cons_of_mem _ hother)).1 hin
    have hall' : ∀ other, (line.spec.value other).isSome = true → other ∈ tag :: tags ∨ other ∈ order.map Prod.fst := by
      intro other hother
      rcases hall other hother with hin | hin
      · exact .inl (List.mem_cons_of_mem _ hin)
      · rcases List.mem_cons.mp hin with rfl | hin
        · exact .inl List.mem_cons_self
        · exact .inr hin
    rw [orderText, hvalue, Option.getD_some, readTags, htoken]
    dsimp only
    rw [ofText_text]
    dsimp only
    rw [if_neg fun hboth => hout hboth.2, if_neg hincludes]
    by_cases hum : tag = .um
    · subst hum
      obtain ⟨um, hspec, rfl⟩ := Option.map_eq_some_iff.mp hvalue
      rw [if_pos (by simp), hspec, EventSpec.resolve, storeTag]
      cases hfound : unitFor s.ums um.1 with
      | error stop => rfl
      | ok found =>
        have hih := ih rounds (.um :: tags) (some found.1) { s with ums := found.2 } hrounds' hnodup' hnew' hall' hsep.2
        rw [if_neg hnot, EventSpec.resolve] at hih
        have hsame : { (line.spec.only tags).event archCounterMask unit with unit := some found.1 } =
            (line.spec.only (.um :: tags)).event archCounterMask (some found.1) := by
          simp [EventSpec.event, EventSpec.only]
        simp only [Except.map]
        rw [hsame, hih]
    · rw [storeTag_value hum hvalue]
      have hcons : (EventTag.um ∈ ((tag, gap) :: order).map Prod.fst) = (EventTag.um ∈ order.map Prod.fst) := by
        simp [Ne.symm hum]
      simp only [hcons]
      exact ih rounds (tag :: tags) unit s hrounds' hnodup' hnew' hall' hsep.2

theorem length_orderText (spec : EventSpec) (tail : Text) (order : List (EventTag × Blanks)) :
    2 * order.length + tail.length ≤ (orderText spec tail order).length := by
  induction order with
  | nil => simp [orderText]
  | cons p order ih =>
    obtain ⟨tag, gap⟩ := p
    have hpos : 0 < tag.text.length := List.length_pos_iff.mpr (text_ne_nil tag)
    simp only [orderText, List.length_cons, List.length_append]
    omega

theorem EventLine.length_le (line : EventLine) : line.order.length + 1 ≤ line.text.length := by
  have hlen := length_orderText line.spec line.descText line.order
  have htext : (orderText line.spec line.descText line.order).length ≤ line.text.length := by
    simp [EventLine.text]
  rcases line.nonempty with horder | hdesc
  · have hpos : 0 < line.order.length := List.length_pos_iff.mpr horder
    omega
  · obtain ⟨desc, hdesc⟩ := Option.isSome_iff_exists.mp hdesc
    have hpos : 0 < line.descText.length := by simp [EventLine.descText, hdesc]
    omega

/-- A line is read as the event it says. -/
theorem readTags_line (line : EventLine) (s : EventState) :
    readTags archCounterMask included (line.text.length + 1) [] newEvent line.text s =
      line.spec.resolve archCounterMask none s line.spec.um := by
  have hum : (if EventTag.um ∈ line.order.map Prod.fst then line.spec.um else none) = line.spec.um :=
    ite_of_given fun hgiven => (line.complete .um).mpr (by simpa [EventSpec.value] using hgiven)
  have h := readTags_orderText archCounterMask included line line.order (line.text.length + 1) [] none s
    (Nat.succ_le_succ line.length_le) line.nodup
    (fun tag htag => ⟨List.not_mem_nil, (line.complete tag).mp htag⟩)
    (fun tag hgiven => .inr ((line.complete tag).mpr hgiven)) line.separated
  rw [hum] at h
  have hlead := readTags_blanks archCounterMask included line.text.length [] newEvent line.lead
    (orderText line.spec line.descText line.order) s
  exact hlead.trans h

theorem not_skipped {t : Text} (hne : skipWs t ≠ []) (hcomment : (skipWs t).head? ≠ some '#') :
    (emptyLine t || commentLine t) = false := by
  simp [emptyLine, commentLine, hne, hcomment]

theorem tag_not_skipped (lead : Blanks) (tag : EventTag) (t : Text) :
    (emptyLine (lead.1 ++ (tag.text ++ t)) || commentLine (lead.1 ++ (tag.text ++ t))) = false := by
  apply not_skipped
  · rw [skipWs_blanks, skipWs_of_head (text_head tag t)]
    simp [text_ne_nil]
  · rw [skipWs_blanks, skipWs_of_head (text_head tag t)]
    cases tag <;> simp [EventTag.text]

theorem EventLine.not_skipped (line : EventLine) : (emptyLine line.text || commentLine line.text) = false := by
  unfold EventLine.text
  rcases line.nonempty with horder | hdesc
  · obtain ⟨p, order, horder⟩ := List.exists_cons_of_ne_nil horder
    rw [horder]
    exact tag_not_skipped line.lead p.1 _
  · obtain ⟨desc, hdesc⟩ := Option.isSome_iff_exists.mp hdesc
    cases horder : line.order with
    | cons p order => exact tag_not_skipped line.lead p.1 _
    | nil =>
      have htext : line.descText = ':' :: ' ' :: (line.descLead.1 ++ desc.1) := by
        rw [EventLine.descText, hdesc]
        rfl
      have hskip : skipWs (':' :: ' ' :: (line.descLead.1 ++ desc.1)) = ':' :: ' ' :: (line.descLead.1 ++ desc.1) := rfl
      rw [orderText, htext]
      apply EventsFile.not_skipped
      · rw [skipWs_blanks, hskip]
        exact List.cons_ne_nil _ _
      · rw [skipWs_blanks, hskip]
        simp

theorem skipWs_skipWs (t : Text) : skipWs (skipWs t) = skipWs t := by
  have hhead := List.head?_dropWhile_not isBlank t
  apply skipWs_of_head
  unfold skipWs
  cases h : (t.dropWhile isBlank).head? with
  | none => rfl
  | some c =>
    rw [h] at hhead
    simpa using hhead

/-- An include line reads the file it names. -/
theorem readTags_includes (lead : Blanks) (cpu : Word)
    (trail : { t : Text // t.head?.all isBlank = true ∧ endsInclude t = true }) (s : EventState) (rounds : Nat) :
    readTags archCounterMask included (rounds + 1) [] newEvent (Item.includes lead cpu trail).text s =
      included cpu.1 s := by
  have hends : endsInclude (skipWs trail.1) = true := by
    rw [endsInclude, skipWs_skipWs]
    exact trail.2.2
  rw [Item.text, readTags_blanks, readTags, nextToken_tag .includes cpu.2 trail.2.1]
  dsimp only
  rw [ofText_text]
  dsimp only
  rw [if_neg (by simp [EventTag.once]), if_pos rfl, if_neg (by simp)]
  cases included cpu.1 s with
  | error stop => rfl
  | ok s' => exact if_pos hends

theorem addEvents_append (specs specs' : List EventSpec) (s : EventState) :
    addEvents archCounterMask (specs ++ specs') s =
      (addEvents archCounterMask specs s).bind (addEvents archCounterMask specs') := by
  induction specs generalizing s with
  | nil => rfl
  | cons spec specs ih =>
    rw [List.cons_append, addEvents, addEvents]
    cases spec.resolve archCounterMask none s spec.um with
    | error stop => rfl
    | ok s' => exact ih s'

/-- A file, when the files it includes are read as they say. -/
theorem readLines_items {specsAt : Text → Option (List EventSpec)}
    (hincluded : ∀ cpu specs s, specsAt cpu = some specs → included cpu s = addEvents archCounterMask specs s)
    (items : List Item) :
    ∀ (specs : List EventSpec) (s : EventState), specsIn specsAt items = some specs →
      readLines archCounterMask included (items.map Item.text) s = addEvents archCounterMask specs s := by
  induction items with
  | nil =>
    intro specs s hspecs
    cases hspecs
    rfl
  | cons item items ih =>
    intro specs s hspecs
    cases item with
    | skipped line =>
      rw [List.map_cons, readLines, Item.text, if_pos line.2]
      exact ih specs s hspecs
    | event line =>
      obtain ⟨rest, hrest, rfl⟩ := Option.map_eq_some_iff.mp hspecs
      rw [List.map_cons, readLines, Item.text, if_neg (by simp [line.not_skipped]), readTags_line, addEvents]
      cases line.spec.resolve archCounterMask none s line.spec.um with
      | error stop => rfl
      | ok s' => exact ih rest s' hrest
    | includes lead cpu trail =>
      obtain ⟨front, hfront, hback⟩ := Option.bind_eq_some_iff.mp hspecs
      obtain ⟨rest, hrest, rfl⟩ := Option.map_eq_some_iff.mp hback
      have hskip : (emptyLine (Item.includes lead cpu trail).text || commentLine (Item.includes lead cpu trail).text) =
          false := tag_not_skipped lead .includes _
      rw [List.map_cons, readLines, if_neg (by simp [hskip]), readTags_includes, hincluded cpu.1 front s hfront,
        addEvents_append]
      cases addEvents archCounterMask front s with
      | error stop => rfl
      | ok s' => exact ih rest s' hrest

/-- Described files are read as they say, through all the files they include. -/
theorem readEvents_items (docs : Text → Option (List Item)) (depth : Nat) :
    ∀ (cpu : Text) (specs : List EventSpec) (s : EventState), specsOf docs depth cpu = some specs →
      readEvents archCounterMask (filesOf docs) depth cpu s = addEvents archCounterMask specs s := by
  induction depth with
  | zero =>
    intro cpu specs s hspecs
    cases hspecs
  | succ depth ih =>
    intro cpu specs s hspecs
    obtain ⟨items, hitems, hin⟩ := Option.bind_eq_some_iff.mp hspecs
    rw [readEvents, filesOf, hitems]
    exact readLines_items ih items specs s hin

end Oprofile.Libop.EventsFile
