import Mathlib.Data.List.Induction
import Mathlib.Data.List.TakeWhile
import Mathlib.Tactic.Linarith

/-! The conversions of the C library from text to numbers (`strtoul` with base 0, `atoi`). -/
namespace CNumbers

def isSpace (c : Char) : Bool := c = ' ' || ('\t' ≤ c && c ≤ '\r')

/-- `isdigit` -/
def isDecimal (c : Char) : Bool := '0' ≤ c && c ≤ '9'

/-- The value of a digit in any base, 36 for a character that is none. -/
def digitValue (c : Char) : Nat :=
  if '0' ≤ c ∧ c ≤ '9' then c.toNat - '0'.toNat
  else if 'a' ≤ c ∧ c ≤ 'z' then c.toNat - 'a'.toNat + 10
  else if 'A' ≤ c ∧ c ≤ 'Z' then c.toNat - 'A'.toNat + 10
  else 36

def isDigitOf (base : Nat) (c : Char) : Bool := digitValue c < base

def numeral (base : Nat) (digits : List Char) : Nat := digits.foldl (fun n c => n * base + digitValue c) 0

/-- The sign in front of a number. -/
def splitSign : List Char → Bool × List Char
  | [] => (false, [])
  | c :: s => if c = '-' then (true, s) else if c = '+' then (false, s) else (false, c :: s)

/-- The base that the front of a number stands for, and its digits. -/
def detectBase : List Char → Nat × List Char
  | c :: x :: d :: s =>
    if c = '0' then if (x = 'x' ∨ x = 'X') ∧ isDigitOf 16 d then (16, d :: s) else (8, c :: x :: d :: s)
    else (10, c :: x :: d :: s)
  | c :: s => if c = '0' then (8, c :: s) else (10, c :: s)
  | [] => (10, [])

/-- `strtoul(s, &end, 0)` with 64 bits: the value, and the text from `end` on. -/
def strtoul (s : List Char) : Nat × List Char :=
  let (negative, body) := splitSign (s.dropWhile isSpace)
  let (base, text) := detectBase body
  let digits := text.takeWhile (isDigitOf base)
  if digits = [] then (0, s)
  else
    let v := numeral base digits
    (if 2 ^ 64 ≤ v then 2 ^ 64 - 1 else if negative then (2 ^ 64 - v) % 2 ^ 64 else v,
      text.dropWhile (isDigitOf base))

/-- `strtol(s, NULL, 10)` with 64 bits. -/
def strtol10 (s : List Char) : Int :=
  let (negative, body) := splitSign (s.dropWhile isSpace)
  let v := numeral 10 (body.takeWhile (isDigitOf 10))
  if negative then max (-(2 ^ 63)) (-(v : Int)) else min (2 ^ 63 - 1) (v : Int)

def atoi (s : List Char) : Int32 := Int32.ofInt (strtol10 s)

/-- The whole text is a number. -/
def IsNumber (s : List Char) : Prop := (strtoul s).2 = []

instance (s : List Char) : Decidable (IsNumber s) := inferInstanceAs (Decidable (_ = []))

/-- A number that does not begin with a blank, a sign or a zero. -/
def Plain (s : List Char) : Prop := ∃ c t, s = c :: t ∧ '1' ≤ c ∧ c ≤ '9'

variable {s t : List Char} {c : Char}

theorem strtoul_lt (s : List Char) : (strtoul s).1 < 2 ^ 64 := by
  simp only [strtoul]
  split_ifs <;> omega

theorem isDecimal_iff : isDecimal c = true ↔ '0' ≤ c ∧ c ≤ '9' := by
  simp [isDecimal]

theorem Plain.begins (h : Plain s) : s.head?.any isDecimal = true := by
  obtain ⟨c, t, rfl, hlo, hhi⟩ := h
  exact isDecimal_iff.mpr ⟨Nat.le_trans (by decide : 48 ≤ 49) hlo, hhi⟩

theorem digitValue_decimal (h : isDecimal c = true) : digitValue c = c.toNat - 48 ∧ digitValue c < 10 := by
  rw [isDecimal_iff] at h
  have hle : c.toNat ≤ '9'.toNat := h.2
  have hval : digitValue c = c.toNat - '0'.toNat := if_pos h
  have h0 : '0'.toNat = 48 := rfl
  have h9 : '9'.toNat = 57 := rfl
  omega

/-- A plain number is not rewritten before its digits are read. -/
theorem plain_front (hlo : '1' ≤ c) (hhi : c ≤ '9') :
    splitSign ((c :: t).dropWhile isSpace) = (false, c :: t) ∧ detectBase (c :: t) = (10, c :: t) ∧
      isDigitOf 10 c = true ∧ digitValue c ≠ 0 := by
  have hlo' : 49 ≤ c.toNat := hlo
  have hhi' : c.toNat ≤ 57 := hhi
  have hne : ∀ d : Char, d.toNat < 49 → c ≠ d := by
    intro d hd h
    subst h
    omega
  have hspace : isSpace c = false := by
    have hr : ¬c ≤ '\r' := by
      intro h
      have hle : c.toNat ≤ 13 := h
      omega
    simp [isSpace, hne ' ' (by decide), hr]
  have hdecimal : isDecimal c = true := isDecimal_iff.mpr ⟨Nat.le_trans (by decide : 48 ≤ 49) hlo', hhi⟩
  obtain ⟨hval, hlt⟩ := digitValue_decimal hdecimal
  refine ⟨?_, ?_, ?_, ?_⟩
  · rw [List.dropWhile_cons_of_neg (by simp [hspace]), splitSign, if_neg (hne '-' (by decide)),
      if_neg (hne '+' (by decide))]
  · rcases t with _ | ⟨x, _ | ⟨d, t⟩⟩ <;> simp [detectBase, hne '0' (by decide)]
  · simpa [isDigitOf] using hlt
  · omega

theorem foldl_pos (base : Nat) (hbase : 0 < base) (ds : List Char) {n : Nat} (h : 0 < n) :
    0 < ds.foldl (fun n c => n * base + digitValue c) n := by
  induction ds generalizing n with
  | nil => exact h
  | cons d ds ih => exact ih (Nat.lt_of_lt_of_le (Nat.mul_pos h hbase) (Nat.le_add_right _ _))

/-- Both conversions read the digits of a plain number in base ten, and they are not all zeros. -/
theorem Plain.value (h : Plain s) : ∃ v, v ≠ 0 ∧ (strtoul s).1 = (if 2 ^ 64 ≤ v then 2 ^ 64 - 1 else v) ∧
    strtol10 s = min (2 ^ 63 - 1) (v : Int) := by
  obtain ⟨c, t, rfl, hlo, hhi⟩ := h
  obtain ⟨hsign, hbase, hdigit, hzero⟩ := plain_front (t := t) hlo hhi
  have hdigits : (c :: t).takeWhile (isDigitOf 10) = c :: t.takeWhile (isDigitOf 10) :=
    List.takeWhile_cons_of_pos hdigit
  have hpos : 0 < numeral 10 (c :: t.takeWhile (isDigitOf 10)) := by
    have hfirst : 0 < 0 * 10 + digitValue c := by omega
    exact foldl_pos 10 (by omega) (t.takeWhile (isDigitOf 10)) hfirst
  refine ⟨numeral 10 (c :: t.takeWhile (isDigitOf 10)), by omega, ?_, ?_⟩
  · simp [strtoul, hsign, hbase, hdigits]
  · simp [strtol10, hsign, hdigits]

theorem Plain.reads (h : Plain s) (hlt : (strtoul s).1 < 2 ^ 31) :
    strtol10 s = (strtoul s).1 ∧ (strtoul s).1 ≠ 0 := by
  obtain ⟨v, hne, hul, hl⟩ := h.value
  rw [hul] at hlt ⊢
  split_ifs at hlt ⊢
  · omega
  · have hmin : min (2 ^ 63 - 1) (v : Int) = v := by omega
    exact ⟨hl.trans hmin, hne⟩

theorem Plain.atoi_toInt (h : Plain s) (hlt : (strtoul s).1 < 2 ^ 31) : (atoi s).toInt = (strtoul s).1 := by
  rw [atoi, (h.reads hlt).1]
  exact Int32.toInt_ofInt_of_le (by omega) (by omega)

/-- A number that fits an `int` in base ten and in the base that its front stands for. -/
structure IntNumber (s : List Char) : Prop where
  number : IsNumber s
  digit : s.head?.any isDecimal = true
  fits : (strtoul s).1 < 2 ^ 31
  fitsTen : strtol10 s < 2 ^ 31

/-- A number with its value in base ten and its value in the base that its front stands for. -/
inductive Reading : List Char → Int → Nat → Prop
  | decimal {s : List Char} {v : Nat} (hplain : Plain s) (hne : v ≠ 0) : Reading s v v
  | octal {ds : List Char} (hdigits : ∀ c ∈ '0' :: ds, isDigitOf 8 c = true) :
    Reading ('0' :: ds) (numeral 10 ('0' :: ds)) (numeral 8 ('0' :: ds))
  | hexadecimal {x : Char} {ds : List Char} (hx : x = 'x' ∨ x = 'X') (hdigits : ∀ c ∈ ds, isDigitOf 16 c = true) :
    Reading ('0' :: x :: ds) 0 (numeral 16 ds)

/-- No zero in front, zeros and one digit, or a prefix and zeros. -/
def SameInTen (s : List Char) : Prop :=
  Plain s ∨ (∀ c ∈ s.dropLast, c = '0') ∨
    ∃ x ds, s = '0' :: x :: ds ∧ (x = 'x' ∨ x = 'X') ∧ ∀ c ∈ ds, c = '0'

/-- A prefix and digits that are not all zeros. -/
def HexNonzero (s : List Char) : Prop :=
  ∃ x ds, s = '0' :: x :: ds ∧ (x = 'x' ∨ x = 'X') ∧ ∃ c ∈ ds, c ≠ '0'

theorem digitValue_eq_zero : digitValue c = 0 ↔ c = '0' := by
  constructor
  · intro h
    rw [digitValue] at h
    split_ifs at h with hd
    have hlo : 48 ≤ c.toNat := hd.1
    have h0 : '0'.toNat = 48 := rfl
    have hc : c.toNat = '0'.toNat := by omega
    exact Char.toNat_inj.mp hc
  · rintro rfl
    rfl

theorem numeral_append (base : Nat) (digits : List Char) (c : Char) :
    numeral base (digits ++ [c]) = numeral base digits * base + digitValue c := by
  simp [numeral]

theorem numeral_eq_zero {base : Nat} (hbase : 0 < base) (digits : List Char) :
    numeral base digits = 0 ↔ ∀ c ∈ digits, c = '0' := by
  induction digits using List.reverseRecOn with
  | nil => simp [numeral]
  | append_singleton digits c ih =>
    rw [numeral_append, Nat.add_eq_zero_iff, digitValue_eq_zero, Nat.mul_eq_zero, ih]
    simp only [List.mem_append, List.mem_singleton]
    constructor
    · rintro ⟨hz | hb, rfl⟩ d (hd | rfl)
      · exact hz d hd
      · rfl
      · omega
      · rfl
    · intro h
      exact ⟨Or.inl fun d hd => h d (Or.inl hd), h c (Or.inr rfl)⟩

theorem numeral_le_numeral {b b' : Nat} (h : b ≤ b') (digits : List Char) : numeral b digits ≤ numeral b' digits := by
  induction digits using List.reverseRecOn with
  | nil => exact Nat.le_refl 0
  | append_singleton digits c ih =>
    rw [numeral_append, numeral_append]
    exact Nat.add_le_add_right (Nat.mul_le_mul ih h) _

/-- Two bases agree on the digits that are zeros but for the last. -/
theorem numeral_eq_numeral {b b' : Nat} (hb : 0 < b) (h : b < b') (digits : List Char) :
    numeral b' digits = numeral b digits ↔ ∀ c ∈ digits.dropLast, c = '0' := by
  cases digits using List.reverseRecOn with
  | nil => simp [numeral]
  | append_singleton digits c =>
    rw [numeral_append, numeral_append, List.dropLast_concat, ← numeral_eq_zero hb]
    have hle : numeral b digits * b ≤ numeral b digits * b' := Nat.mul_le_mul_left _ (Nat.le_of_lt h)
    have hmul := numeral_le_numeral (Nat.le_of_lt h) digits
    constructor
    · intro heq
      by_contra hne
      have hlt : numeral b digits * b < numeral b digits * b' := Nat.mul_lt_mul_of_pos_left h (by omega)
      have hge : numeral b digits * b' ≤ numeral b' digits * b' := Nat.mul_le_mul_right b' hmul
      omega
    · intro hzero
      rw [hzero, (numeral_eq_zero (Nat.lt_trans hb h) digits).mpr ((numeral_eq_zero hb digits).mp hzero)]
      simp

/-- What the front of a number that begins with zero stands for. -/
theorem zero_front (t : List Char) : splitSign (('0' :: t).dropWhile isSpace) = (false, '0' :: t) ∧
    (detectBase ('0' :: t) = (8, '0' :: t) ∨
      ∃ x d u, t = x :: d :: u ∧ (x = 'x' ∨ x = 'X') ∧ detectBase ('0' :: t) = (16, d :: u)) := by
  refine ⟨rfl, ?_⟩
  rcases t with _ | ⟨x, _ | ⟨d, u⟩⟩
  · exact Or.inl rfl
  · exact Or.inl rfl
  · by_cases hx : (x = 'x' ∨ x = 'X') ∧ isDigitOf 16 d
    · refine Or.inr ⟨x, d, u, rfl, hx.1, ?_⟩
      simp [detectBase, hx]
    · left
      simp [detectBase, hx]

/-- All of a number is read. -/
theorem IsNumber.digits {base : Nat} {body text : List Char} (h : IsNumber s) (hne : s ≠ [])
    (hsign : splitSign (s.dropWhile isSpace) = (false, body)) (hbase : detectBase body = (base, text))
    (hlt : (strtoul s).1 < 2 ^ 31) : (∀ c ∈ text, isDigitOf base c = true) ∧ (strtoul s).1 = numeral base text := by
  simp only [IsNumber, strtoul, hsign, hbase] at h hlt ⊢
  by_cases hdigits : text.takeWhile (isDigitOf base) = []
  · rw [if_pos hdigits] at h
    exact absurd h hne
  · rw [if_neg hdigits] at h hlt ⊢
    have hall : text.takeWhile (isDigitOf base) = text := by
      rw [← List.append_nil (text.takeWhile _), ← h, List.takeWhile_append_dropWhile]
    rw [hall] at hlt ⊢
    refine ⟨List.takeWhile_eq_self_iff.mp hall, ?_⟩
    simp only [Bool.false_eq_true, if_false] at hlt ⊢
    split_ifs at hlt ⊢
    · omega
    · rfl

theorem isDigitOf_mono {b b' : Nat} (h : b ≤ b') (hc : isDigitOf b c = true) : isDigitOf b' c = true :=
  decide_eq_true (Nat.lt_of_lt_of_le (of_decide_eq_true hc) h)

/-- The three forms of a number that begins with a digit. -/
theorem IntNumber.reading (h : IntNumber s) : Reading s (strtol10 s) (strtoul s).1 := by
  obtain ⟨hnumber, hdigit, hfits, hten⟩ := h
  cases s with
  | nil => cases hdigit
  | cons c t =>
    by_cases hc : c = '0'
    · subst hc
      obtain ⟨hsign, hbase | ⟨x, d, u, rfl, hx, hbase⟩⟩ := zero_front t
      · obtain ⟨hdigits, hvalue⟩ := hnumber.digits (List.cons_ne_nil _ _) hsign hbase hfits
        have htake : ('0' :: t).takeWhile (isDigitOf 10) = '0' :: t :=
          List.takeWhile_eq_self_iff.mpr fun c hc => isDigitOf_mono (by omega) (hdigits c hc)
        have hl : strtol10 ('0' :: t) = min (2 ^ 63 - 1) (numeral 10 ('0' :: t) : Int) := by
          simp only [strtol10, hsign, htake, Bool.false_eq_true, if_false]
        have hvalueTen : strtol10 ('0' :: t) = numeral 10 ('0' :: t) := by
          rw [hl] at hten ⊢
          omega
        rw [hvalue, hvalueTen]
        exact Reading.octal hdigits
      · obtain ⟨hdigits, hvalue⟩ := hnumber.digits (List.cons_ne_nil _ _) hsign hbase hfits
        have hstop : isDigitOf 10 x = false := by rcases hx with rfl | rfl <;> rfl
        have hl : strtol10 ('0' :: x :: d :: u) = 0 := by
          have htake : ('0' :: x :: d :: u).takeWhile (isDigitOf 10) = ['0'] := by
            rw [List.takeWhile_cons_of_pos (by decide), List.takeWhile_cons_of_neg (by simp [hstop])]
          simp only [strtol10, hsign, htake, Bool.false_eq_true, if_false]
          rfl
        rw [hvalue, hl]
        exact Reading.hexadecimal hx hdigits
    · have hdec := isDecimal_iff.mp hdigit
      have hplain : Plain (c :: t) := by
        have hne : c.toNat ≠ 48 := fun h48 => hc (Char.toNat_inj.mp h48)
        have hlo : 48 ≤ c.toNat := hdec.1
        have hlo' : 49 ≤ c.toNat := by omega
        exact ⟨c, t, rfl, hlo', hdec.2⟩
      obtain ⟨hsame, hne⟩ := hplain.reads hfits
      rw [hsame]
      exact Reading.decimal hplain hne

variable {v : Int} {n : Nat}

/-- An octal number is no prefix. -/
theorem octal_ne_hex {x : Char} {ds u : List Char} (hdigits : ∀ c ∈ '0' :: ds, isDigitOf 8 c = true)
    (hx : x = 'x' ∨ x = 'X') : '0' :: ds ≠ '0' :: x :: u := by
  rintro ⟨⟩
  have hdigit := hdigits x (by simp)
  rcases hx with rfl | rfl <;> cases hdigit

theorem not_plain_zero (t : List Char) : ¬Plain ('0' :: t) := by
  rintro ⟨c, u, hs, hlo, -⟩
  cases hs
  exact absurd hlo (by decide)

/-- The digit strings that are one number in base ten and in their own base. -/
theorem Reading.same_iff (h : Reading s v n) : v = n ↔ SameInTen s := by
  cases h with
  | decimal hplain hne => exact iff_of_true rfl (Or.inl hplain)
  | @octal ds hdigits =>
    rw [Int.natCast_inj, numeral_eq_numeral (by omega) (by omega)]
    constructor
    · exact fun hzeros => Or.inr (Or.inl hzeros)
    · rintro (hplain | hzeros | ⟨x, u, hs, hx, -⟩)
      · exact absurd hplain (not_plain_zero ds)
      · exact hzeros
      · exact absurd hs (octal_ne_hex hdigits hx)
  | @hexadecimal x ds hx hdigits =>
    have hzero : (0 : Int) = (numeral 16 ds : Nat) ↔ ∀ c ∈ ds, c = '0' := by
      rw [← numeral_eq_zero (by omega : 0 < 16)]
      omega
    rw [hzero]
    constructor
    · exact fun hzeros => Or.inr (Or.inr ⟨x, ds, rfl, hx, hzeros⟩)
    · rintro (hplain | hzeros | ⟨y, u, hs, -, hzeros⟩)
      · exact absurd hplain (not_plain_zero _)
      · cases ds with
        | nil => simp
        | cons d u =>
          have hx0 : x = '0' := hzeros x (by simp)
          rcases hx with rfl | rfl <;> cases hx0
      · cases hs
        exact hzeros

/-- The digit strings that are zero in both or in neither. -/
theorem Reading.zero_iff (h : Reading s v n) : (n = 0 ↔ v = 0) ↔ ¬HexNonzero s := by
  cases h with
  | decimal hplain hne =>
    refine iff_of_true (by omega) ?_
    rintro ⟨x, ds, rfl, -⟩
    exact not_plain_zero _ hplain
  | @octal ds hdigits =>
    rw [Int.natCast_eq_zero, numeral_eq_zero (by omega), numeral_eq_zero (by omega)]
    refine iff_of_true Iff.rfl ?_
    rintro ⟨x, u, hs, hx, -⟩
    exact octal_ne_hex hdigits hx hs
  | @hexadecimal x ds hx hdigits =>
    rw [numeral_eq_zero (by omega)]
    simp only [iff_true]
    constructor
    · rintro hzeros ⟨y, u, hs, -, c, hc, hne⟩
      cases hs
      exact hne (hzeros c hc)
    · intro hnot c hc
      by_contra hne
      exact hnot ⟨x, ds, rfl, hx, c, hc, hne⟩

theorem IntNumber.nonneg (h : IntNumber s) : 0 ≤ strtol10 s := by
  have hreading := h.reading
  generalize strtol10 s = v at hreading ⊢
  generalize (strtoul s).1 = n at hreading
  cases hreading <;> omega

theorem IntNumber.atoi_toInt (h : IntNumber s) : (atoi s).toInt = strtol10 s :=
  Int32.toInt_ofInt_of_le (by have := h.nonneg; omega) (by have := h.fitsTen; omega)

/-- `atoi` and `strtoul` give one number. -/
theorem IntNumber.atoi_eq_iff (h : IntNumber s) : atoi s = Int32.ofNat (strtoul s).1 ↔ SameInTen s := by
  rw [← Int32.toInt_inj, h.atoi_toInt, Int32.toInt_ofNat_of_lt h.fits]
  exact h.reading.same_iff

/-- `atoi` and `strtoul` both give zero, or neither does. -/
theorem IntNumber.atoi_zero_iff (h : IntNumber s) :
    (Int32.ofNat (strtoul s).1 = 0 ↔ atoi s = 0) ↔ ¬HexNonzero s := by
  rw [← h.reading.zero_iff, ← Int32.toInt_inj, ← Int32.toInt_inj, h.atoi_toInt, Int32.toInt_ofNat_of_lt h.fits,
    Int32.toInt_zero, Int.natCast_eq_zero]

/-! ### Printed numbers -/

theorem digitValue_digitChar {d : Nat} (h : d < 16) : digitValue (Nat.digitChar d) = d := by
  have hall : ∀ d : Fin 16, digitValue (Nat.digitChar d) = d := by decide
  exact hall ⟨d, h⟩

/-- A printed number is read back. -/
theorem numeral_toDigits {base : Nat} (hbase : 1 < base) (hle : base ≤ 16) (n : Nat) :
    numeral base (Nat.toDigits base n) = n := by
  induction n using Nat.strong_induction_on with
  | _ n ih =>
    rw [Nat.toDigits_eq_if hbase]
    split
    · next hlt => simp [numeral, digitValue_digitChar (hlt.trans_le hle)]
    · next hge =>
      have hdiv : n / base < n := Nat.div_lt_self (by omega) hbase
      have hmod : n % base < 16 := (Nat.mod_lt n (by omega)).trans_le hle
      rw [numeral_append, ih _ hdiv, digitValue_digitChar hmod]
      exact Nat.div_add_mod' n base

theorem isDigitOf_toDigits {base : Nat} (hbase : 1 < base) (hle : base ≤ 16) (n : Nat) :
    ∀ c ∈ Nat.toDigits base n, isDigitOf base c = true := by
  have hdigit : ∀ d, d < base → isDigitOf base (Nat.digitChar d) = true := by
    intro d hd
    rw [isDigitOf, digitValue_digitChar (hd.trans_le hle)]
    exact decide_eq_true hd
  induction n using Nat.strong_induction_on with
  | _ n ih =>
    intro c hc
    rw [Nat.toDigits_eq_if hbase] at hc
    split at hc
    · next hlt =>
      rw [List.mem_singleton.mp hc]
      exact hdigit n hlt
    · next hge =>
      rcases List.mem_append.mp hc with hc | hc
      · exact ih _ (Nat.div_lt_self (by omega) hbase) c hc
      · rw [List.mem_singleton.mp hc]
        exact hdigit _ (Nat.mod_lt n (by omega))

variable {base : Nat}

theorem ne_of_toNat {c d : Char} (h : d.toNat < c.toNat) : c ≠ d := by
  rintro rfl
  exact Nat.lt_irrefl _ h

theorem toNat_of_digit (hbase : base ≤ 36) (h : isDigitOf base c = true) : 48 ≤ c.toNat := by
  by_contra hn
  have h0 : ¬ '0' ≤ c := fun hle => hn hle
  have ha : ¬ 'a' ≤ c := fun hle => hn (Nat.le_trans (by decide : 48 ≤ 97) hle)
  have hA : ¬ 'A' ≤ c := fun hle => hn (Nat.le_trans (by decide : 48 ≤ 65) hle)
  have hvalue : digitValue c = 36 := by simp [digitValue, h0, ha, hA]
  have hlt : digitValue c < base := of_decide_eq_true h
  omega

/-- Nothing is skipped in front of digits. -/
theorem digits_front (hbase : base ≤ 36) (hne : s ≠ []) (hs : ∀ c ∈ s, isDigitOf base c = true) :
    splitSign ((s ++ t).dropWhile isSpace) = (false, s ++ t) := by
  obtain ⟨c, s, rfl⟩ := List.exists_cons_of_ne_nil hne
  have hc : 48 ≤ c.toNat := toNat_of_digit hbase (hs c List.mem_cons_self)
  have hblank : c ≠ ' ' := ne_of_toNat (Nat.lt_of_lt_of_le (by decide : 32 < 48) hc)
  have hminus : c ≠ '-' := ne_of_toNat (Nat.lt_of_lt_of_le (by decide : 45 < 48) hc)
  have hplus : c ≠ '+' := ne_of_toNat (Nat.lt_of_lt_of_le (by decide : 43 < 48) hc)
  have hspace : isSpace c = false := by
    have hr : ¬c ≤ '\r' := fun hle => by
      have hle' : c.toNat ≤ 13 := hle
      omega
    simp [isSpace, hr, hblank]
  rw [List.cons_append, List.dropWhile_cons_of_neg (by simp [hspace]), splitSign, if_neg hminus, if_neg hplus]

/-- Digits are taken up to the first character that is none. -/
theorem takeWhile_digits (hs : ∀ c ∈ s, isDigitOf base c = true) (ht : t.head?.all (fun c => !isDigitOf base c) = true) :
    (s ++ t).takeWhile (isDigitOf base) = s := by
  rw [List.takeWhile_append_of_pos hs]
  cases t with
  | nil => simp
  | cons c t =>
    rw [List.takeWhile_cons_of_neg (by simpa using ht), List.append_nil]

theorem strtol10_toDigits {n : Nat} (hn : n < 2 ^ 31) (ht : t.head?.all (fun c => !isDigitOf 10 c) = true) :
    strtol10 (Nat.toDigits 10 n ++ t) = n := by
  have hdigits := isDigitOf_toDigits (by decide : 1 < 10) (by decide : 10 ≤ 16) n
  simp only [strtol10, digits_front (by decide) (List.ne_nil_of_length_pos Nat.length_toDigits_pos) hdigits,
    takeWhile_digits hdigits ht, numeral_toDigits (by decide : 1 < 10) (by decide : 10 ≤ 16)]
  simp only [Bool.false_eq_true, if_false]
  omega

theorem strtol10_negative {n : Nat} (hn : n ≤ 2 ^ 31) (ht : t.head?.all (fun c => !isDigitOf 10 c) = true) :
    strtol10 ('-' :: (Nat.toDigits 10 n ++ t)) = -n := by
  have hdigits := isDigitOf_toDigits (by decide : 1 < 10) (by decide : 10 ≤ 16) n
  have hsign : splitSign (('-' :: (Nat.toDigits 10 n ++ t)).dropWhile isSpace) = (true, Nat.toDigits 10 n ++ t) := by
    rw [List.dropWhile_cons_of_neg (by decide), splitSign, if_pos rfl]
  simp only [strtol10, hsign, takeWhile_digits hdigits ht,
    numeral_toDigits (by decide : 1 < 10) (by decide : 10 ≤ 16)]
  simp only [if_true]
  omega

end CNumbers
