import Mathlib.Tactic.Linarith
import Oprofile.Library.TextLines

/-! Reading the output of a child process (`child_reader.cpp`). -/
namespace Oprofile.Libutilpp

/-- What one `select` reports: for each descriptor that is ready, how many bytes beyond one its pipe has, or that it
is at its end when nothing is left to read. None is ready when the call fails. -/
structure Wake where
  out : Option Nat
  err : Option Nat
  deriving DecidableEq

/-- `PIPE_BUF` -/
def pipeBuf : Nat := 4096

/-- The reader, with the first `end1` bytes of `buf1` and the first `end2` of `buf2`, what the child has written or
will write and is not read yet, and what the next calls of `select` report. After these the child is gone, and
both descriptors are ready. -/
structure ChildReader where
  pos1 : Nat
  buf1 : List UInt8
  buf2 : List UInt8
  szBuf2 : Nat
  out : List UInt8
  err : List UInt8
  wakes : List Wake
  fits : buf2.length ≤ szBuf2
  deriving DecidableEq

namespace ChildReader

def start (out err : List UInt8) (wakes : List Wake) : ChildReader := ⟨0, [], [], 0, out, err, wakes, Nat.le_refl 0⟩

/-- What `select` reports next. -/
def select (s : ChildReader) : Wake := s.wakes.headD ⟨some (s.out.length), some (s.err.length)⟩

/-- `read(fd1, buf1, PIPE_BUF)` -/
def readOut (s : ChildReader) : Option Nat → ChildReader
  | none => s
  | some n =>
    let temp := min pipeBuf (n + 1)
    { s with buf1 := s.out.take temp, out := s.out.drop temp }

/-- The size of `buf2` when a read finds it full. -/
def grown (s : ChildReader) : Nat :=
  if s.szBuf2 ≤ s.buf2.length then if s.szBuf2 ≠ 0 then s.szBuf2 * 2 else pipeBuf else s.szBuf2

theorem lt_grown (s : ChildReader) : s.buf2.length < s.grown := by
  have hfits := s.fits
  rw [grown]
  split_ifs with hfull hsize
  · omega
  · rw [pipeBuf]
    omega
  · omega

/-- `read(fd2, buf2 + end2, sz_buf2 - end2)` -/
def readErr (s : ChildReader) : Option Nat → ChildReader
  | none => s
  | some n =>
    let temp := min (s.grown - s.buf2.length) (n + 1)
    { s with
      szBuf2 := s.grown
      buf2 := s.buf2 ++ s.err.take temp
      err := s.err.drop temp
      fits := by
        have hgrown := s.lt_grown
        rw [List.length_append, List.length_take]
        omega }

def blockRead (s : ChildReader) : ChildReader :=
  ({ s with wakes := s.wakes.tail }.readOut s.select.out).readErr s.select.err

theorem readOut_eq (s : ChildReader) (ready : Option Nat) :
    (s.readOut ready).pos1 = s.pos1 ∧ (s.readOut ready).buf2 = s.buf2 ∧ (s.readOut ready).err = s.err ∧
      (s.readOut ready).wakes = s.wakes := by
  cases ready <;> exact ⟨rfl, rfl, rfl, rfl⟩

theorem readErr_eq (s : ChildReader) (ready : Option Nat) :
    (s.readErr ready).pos1 = s.pos1 ∧ (s.readErr ready).buf1 = s.buf1 ∧ (s.readErr ready).out = s.out ∧
      (s.readErr ready).wakes = s.wakes := by
  cases ready <;> exact ⟨rfl, rfl, rfl, rfl⟩

/-- What is read from the standard error is appended, and is gone from the pipe. -/
theorem readErr_kept (s : ChildReader) (ready : Option Nat) :
    (s.readErr ready).buf2 ++ (s.readErr ready).err = s.buf2 ++ s.err := by
  cases ready with
  | none => rfl
  | some n =>
    show s.buf2 ++ s.err.take _ ++ s.err.drop _ = _
    rw [List.append_assoc, List.take_append_drop]

/-- The buffer grows just when the descriptor is ready and has a byte left. -/
theorem readErr_grows (s : ChildReader) (ready : Option Nat) :
    s.buf2.length ≠ (s.readErr ready).buf2.length ↔ ready.isSome = true ∧ s.err ≠ [] := by
  cases ready with
  | none => simp [readErr]
  | some n =>
    have hgrown := s.lt_grown
    have hlen : (s.readErr (some n)).buf2.length = s.buf2.length + min (min (s.grown - s.buf2.length) (n + 1)) s.err.length := by
      show (s.buf2 ++ s.err.take _).length = _
      rw [List.length_append, List.length_take]
    have herr : s.err ≠ [] ↔ 0 < s.err.length := List.length_pos_iff.symm
    rw [hlen, herr]
    simp only [Option.isSome_some, true_and]
    omega

theorem readErr_length (s : ChildReader) (ready : Option Nat) : s.buf2.length ≤ (s.readErr ready).buf2.length := by
  cases ready with
  | none => exact Nat.le_refl _
  | some n =>
    show s.buf2.length ≤ (s.buf2 ++ s.err.take _).length
    rw [List.length_append]
    exact Nat.le_add_right _ _

/-- `block_read` without the standard output leaves its buffer as it was. -/
theorem blockRead_none {s : ChildReader} (h : s.select.out = none) :
    s.blockRead.buf1 = s.buf1 ∧ s.blockRead.out = s.out := by
  obtain ⟨-, hbuf, hout, -⟩ := ({ s with wakes := s.wakes.tail }.readOut s.select.out).readErr_eq s.select.err
  rw [blockRead, hbuf, hout, h]
  exact ⟨rfl, rfl⟩

/-- With it, the buffer holds the next bytes, at least one if there are any. -/
theorem blockRead_some {s : ChildReader} {n : Nat} (h : s.select.out = some n) :
    ∃ k, 0 < k ∧ k = min pipeBuf (n + 1) ∧ s.blockRead.buf1 = s.out.take k ∧ s.blockRead.out = s.out.drop k := by
  obtain ⟨-, hbuf, hout, -⟩ := ({ s with wakes := s.wakes.tail }.readOut s.select.out).readErr_eq s.select.err
  refine ⟨min pipeBuf (n + 1), by rw [pipeBuf]; omega, rfl, ?_, ?_⟩
  · rw [blockRead, hbuf, h]
    rfl
  · rw [blockRead, hout, h]
    rfl

theorem blockRead_kept (s : ChildReader) :
    s.blockRead.pos1 = s.pos1 ∧ s.blockRead.wakes = s.wakes.tail ∧
      s.blockRead.buf2 ++ s.blockRead.err = s.buf2 ++ s.err := by
  obtain ⟨hpos, -, -, hwakes⟩ := ({ s with wakes := s.wakes.tail }.readOut s.select.out).readErr_eq s.select.err
  obtain ⟨hpos', hbuf', herr', hwakes'⟩ := { s with wakes := s.wakes.tail }.readOut_eq s.select.out
  refine ⟨hpos.trans hpos', hwakes.trans hwakes', ?_⟩
  rw [blockRead, readErr_kept, hbuf', herr']

theorem blockRead_length (s : ChildReader) : s.buf2.length ≤ s.blockRead.buf2.length := by
  obtain ⟨-, hbuf', -, -⟩ := { s with wakes := s.wakes.tail }.readOut_eq s.select.out
  have hle := ({ s with wakes := s.wakes.tail }.readOut s.select.out).readErr_length s.select.err
  rw [hbuf'] at hle
  exact hle

theorem blockRead_grows (s : ChildReader) :
    s.buf2.length ≠ s.blockRead.buf2.length ↔ s.select.err.isSome = true ∧ s.err ≠ [] := by
  obtain ⟨-, hbuf', herr', -⟩ := { s with wakes := s.wakes.tail }.readOut_eq s.select.out
  have hgrows := ({ s with wakes := s.wakes.tail }.readOut s.select.out).readErr_grows s.select.err
  rw [hbuf', herr'] at hgrows
  exact hgrows

/-- What is left of the standard error gets shorter by what its buffer grows. -/
theorem blockRead_err (s : ChildReader) :
    s.blockRead.err.length ≤ s.err.length ∧
      (s.buf2.length ≠ s.blockRead.buf2.length → s.blockRead.err.length < s.err.length) := by
  have hle := s.blockRead_length
  have hlen := congrArg List.length s.blockRead_kept.2.2
  rw [List.length_append, List.length_append] at hlen
  constructor
  · omega
  · intro hne
    omega

/-- The reader before a round of `getline` looks for a newline. -/
def fetch (s : ChildReader) : ChildReader := if s.buf1.length ≤ s.pos1 then { s with pos1 := 0 }.blockRead else s

/-- How a round of the loop in `getline` leaves its variables. -/
structure Round where
  reader : ChildReader
  result : List UInt8
  canStop : Bool

/-- One round of the loop, which begins with `can_stop` false. -/
def round (s : ChildReader) (temp : Int) (result : List UInt8) : Round :=
  let line := (s.buf1.drop s.pos1).takeWhile (· ≠ 10)
  let ok := line.length = (s.buf1.drop s.pos1).length
  let canStop := if ¬ok ∨ s.buf1 = [] then true else false
  let canStop := if ok ∧ temp ≠ s.buf2.length then false else canStop
  ⟨{ s with pos1 := s.pos1 + line.length + if ok then 0 else 1 }, result ++ line, canStop⟩

/-- What is left to be read or reported. -/
def work (s : ChildReader) : Nat :=
  s.wakes.length + s.out.length + s.err.length + if s.pos1 < s.buf1.length then 1 else 0

/-- A round stops at a newline, and with nothing in the buffer if the standard error did not grow. -/
theorem canStop_iff (s : ChildReader) (temp : Int) (result : List UInt8) :
    (round s temp result).canStop = true ↔
      ((s.buf1.drop s.pos1).takeWhile (· ≠ 10)).length ≠ (s.buf1.drop s.pos1).length ∨
        (s.buf1 = [] ∧ temp = s.buf2.length) := by
  simp only [round]
  generalize ((s.buf1.drop s.pos1).takeWhile (· ≠ 10)).length = scanned
  split_ifs <;> tauto

/-- A round that goes on found no newline, and the reader has something in its buffer or the standard error grew. -/
theorem round_goes_on {s : ChildReader} {temp : Int} {result : List UInt8} (h : (round s temp result).canStop = false) :
    ((s.buf1.drop s.pos1).takeWhile (· ≠ 10)).length = (s.buf1.drop s.pos1).length ∧
      (s.buf1 ≠ [] ∨ temp ≠ s.buf2.length) := by
  simp only [round] at h
  split_ifs at h with hok hstop
  · exact ⟨hok.1, Or.inr hok.2⟩
  · exact ⟨by tauto, by tauto⟩

/-- A `block_read` uses up a wake, or at the end of the child some of what is left, unless there is nothing. -/
theorem blockRead_work {s : ChildReader} (h : s.blockRead.buf1 ≠ [] ∨ s.buf2.length ≠ s.blockRead.buf2.length) :
    s.blockRead.wakes.length + s.blockRead.out.length + s.blockRead.err.length + 0 <
      s.wakes.length + s.out.length + s.err.length + 0 := by
  obtain ⟨herr, hgrew⟩ := s.blockRead_err
  obtain ⟨-, hwakes, -⟩ := s.blockRead_kept
  rw [hwakes, List.length_tail]
  cases hw : s.wakes with
  | cons w ws =>
    have hout : s.blockRead.out.length ≤ s.out.length := by
      cases hselect : s.select.out with
      | none => rw [(blockRead_none hselect).2]
      | some n =>
        obtain ⟨k, -, -, -, hout⟩ := blockRead_some hselect
        rw [hout, List.length_drop]
        omega
    rw [List.length_cons]
    omega
  | nil =>
    have hselect : s.select = ⟨some s.out.length, some s.err.length⟩ := by rw [select, hw]; rfl
    obtain ⟨k, hk, -, hbuf, hout⟩ := blockRead_some (congrArg Wake.out hselect)
    have hlen : s.blockRead.out.length = s.out.length - k := by rw [hout, List.length_drop]
    rw [List.length_nil]
    rcases h with hne | hne
    · have hpos : 0 < s.out.length := by
        apply List.length_pos_iff.mpr
        intro hnil
        rw [hbuf, hnil, List.take_nil] at hne
        exact hne rfl
      omega
    · have hlt := hgrew hne
      omega

/-- `getline` from inside its loop: what it returns, the line, and the reader behind it, when it returns within so
many rounds. `temp` is an `int`. -/
def getlineLoop : Nat → ChildReader → List UInt8 → Option (Bool × List UInt8 × ChildReader)
  | 0, _, _ => none
  | fuel + 1, s, result =>
    let temp := Int32.ofNat s.buf2.length
    let r := round s.fetch temp.toInt result
    if r.canStop then some (decide (r.reader.buf1 ≠ [] ∨ r.result ≠ []), r.result, r.reader)
    else getlineLoop fuel r.reader r.result

/-- A call of `getline` returns. -/
def Getline (s : ChildReader) (r : Bool × List UInt8 × ChildReader) : Prop := ∃ fuel, getlineLoop fuel s [] = some r

/-- The lines of repeated calls, up to the first that returns false. -/
inductive Lines : ChildReader → List (List UInt8) → ChildReader → Prop
  | stop {s t : ChildReader} {l : List UInt8} (h : Getline s (false, l, t)) : Lines s [] t
  | more {s t u : ChildReader} {l : List UInt8} {ls : List (List UInt8)} (h : Getline s (true, l, t))
      (rest : Lines t ls u) : Lines s (l :: ls) u

/-! ### With a `temp` that holds every length -/

theorem round_decreases {s : ChildReader} {result : List UInt8}
    (h : (round s.fetch s.buf2.length result).canStop = false) :
    (round s.fetch s.buf2.length result).reader.work < s.work := by
  obtain ⟨hok, hmore⟩ := round_goes_on h
  have hpos : s.fetch.buf1.length ≤ (round s.fetch s.buf2.length result).reader.pos1 := by
    show _ ≤ s.fetch.pos1 + _ + _
    rw [hok, List.length_drop]
    omega
  have hwork : (round s.fetch s.buf2.length result).reader.work =
      s.fetch.wakes.length + s.fetch.out.length + s.fetch.err.length + 0 := by
    have hdone : ¬(round s.fetch s.buf2.length result).reader.pos1 < s.fetch.buf1.length := by omega
    exact congrArg _ (if_neg hdone)
  rw [hwork, work]
  by_cases hread : s.buf1.length ≤ s.pos1
  · have hfetch : s.fetch = { s with pos1 := 0 }.blockRead := if_pos hread
    rw [hfetch] at hmore ⊢
    rw [if_neg (by omega)]
    exact blockRead_work (s := { s with pos1 := 0 }) (hmore.imp_right fun hne heq => hne (congrArg _ heq))
  · have hfetch : s.fetch = s := if_neg hread
    rw [hfetch, if_pos (by omega)]
    omega

/-- The loop of `getline` if `temp` were no `int`; it always ends. -/
def wideLoop (s : ChildReader) (result : List UInt8) : Bool × List UInt8 × ChildReader :=
  let r := round s.fetch s.buf2.length result
  if _h : r.canStop = true then (r.reader.buf1 ≠ [] ∨ r.result ≠ [], r.result, r.reader)
  else wideLoop r.reader r.result
termination_by s.work
decreasing_by exact round_decreases (Bool.eq_false_iff.mpr _h)

/-- The lines it gives. -/
inductive WideLines : ChildReader → List (List UInt8) → ChildReader → Prop
  | stop {s t : ChildReader} {l : List UInt8} (h : s.wideLoop [] = (false, l, t)) : WideLines s [] t
  | more {s t u : ChildReader} {l : List UInt8} {ls : List (List UInt8)} (h : s.wideLoop [] = (true, l, t))
      (rest : WideLines t ls u) : WideLines s (l :: ls) u

section Wide

variable {s t u : ChildReader} {temp temp' : Int} {result l : List UInt8} {ls : List (List UInt8)} {b : Bool}

theorem wideLoop_stop (h : (round s.fetch s.buf2.length result).canStop = true) :
    wideLoop s result =
      (decide ((round s.fetch s.buf2.length result).reader.buf1 ≠ [] ∨
        (round s.fetch s.buf2.length result).result ≠ []),
        (round s.fetch s.buf2.length result).result,
        (round s.fetch s.buf2.length result).reader) := by
  rw [wideLoop]
  exact dif_pos h

theorem wideLoop_more (h : (round s.fetch s.buf2.length result).canStop = false) :
    wideLoop s result =
      wideLoop (round s.fetch s.buf2.length result).reader (round s.fetch s.buf2.length result).result := by
  rw [wideLoop]
  exact dif_neg (by simp [h])

theorem fetch_length (s : ChildReader) : s.buf2.length ≤ s.fetch.buf2.length := by
  rw [fetch]
  split_ifs
  · exact { s with pos1 := 0 }.blockRead_length
  · exact Nat.le_refl _

/-- Below 2^31 the `int` holds the length; from there on it is never one that can be reached. -/
theorem temp_ne_iff {n m : Nat} (hle : n ≤ m) : (Int32.ofNat n).toInt ≠ m ↔ n ≠ m ∨ 2 ^ 31 ≤ m := by
  by_cases hsmall : n < 2 ^ 31
  · rw [Int32.toInt_ofNat_of_lt hsmall]
    omega
  · have hlt := (Int32.ofNat n).toInt_lt
    omega

/-- The round with the `int` stops only where the other one does, and there unless the end of the standard output
is met with too much of the standard error. -/
theorem round_canStop (s : ChildReader) (result : List UInt8) :
    (round s.fetch (Int32.ofNat s.buf2.length).toInt result).canStop = true ↔
      (round s.fetch s.buf2.length result).canStop = true ∧ (s.fetch.buf1 ≠ [] ∨ s.fetch.buf2.length < 2 ^ 31) := by
  have htemp := temp_ne_iff s.fetch_length
  rw [canStop_iff, canStop_iff, Int.natCast_inj]
  have hscans : ((s.fetch.buf1.drop s.fetch.pos1).takeWhile (· ≠ 10)).length ≠ (s.fetch.buf1.drop s.fetch.pos1).length →
      s.fetch.buf1 ≠ [] := by
    intro hnewline hnil
    rw [hnil, List.drop_nil] at hnewline
    exact hnewline rfl
  have hequal := htemp.not
  rw [not_not, not_or, not_not, Nat.not_le] at hequal
  rw [hequal]
  tauto

theorem getlineLoop_length {fuel : Nat} (h : getlineLoop fuel s result = some (b, l, t)) :
    s.buf2.length ≤ t.buf2.length := by
  induction fuel generalizing s result with
  | zero => cases h
  | succ fuel ih =>
    rw [getlineLoop] at h
    split_ifs at h with hstop
    · cases h
      exact s.fetch_length
    · have hrest := ih h
      exact Nat.le_trans s.fetch_length hrest

/-- A call that ends with less than 2^31 bytes of the standard error does not notice that `temp` is an `int`. -/
theorem wideLoop_of_getline {fuel : Nat} (h : getlineLoop fuel s result = some (b, l, t))
    (hsmall : t.buf2.length < 2 ^ 31) : s.wideLoop result = (b, l, t) := by
  induction fuel generalizing s result with
  | zero => cases h
  | succ fuel ih =>
    rw [getlineLoop] at h
    split_ifs at h with hstop
    · rw [wideLoop_stop ((round_canStop s result).mp hstop).1]
      exact Option.some_inj.mp h
    · have hlength := getlineLoop_length h
      have hle : s.fetch.buf2.length ≤ t.buf2.length := hlength
      have hgoes : (round s.fetch s.buf2.length result).canStop = false := by
        rw [← Bool.not_eq_true]
        exact fun hwide => hstop ((round_canStop s result).mpr ⟨hwide, Or.inr (by omega)⟩)
      rw [wideLoop_more hgoes]
      exact ih h

/-- The call returns if it finds a newline, or the end of the output with less than 2^31 bytes of the standard error. -/
theorem getline_of_wideLoop (h : s.wideLoop result = (b, l, t)) (hreturns : t.buf1 ≠ [] ∨ t.buf2.length < 2 ^ 31) :
    ∃ fuel, getlineLoop fuel s result = some (b, l, t) := by
  induction hn : s.work using Nat.strongRecOn generalizing s result with
  | ind n ih =>
    cases hwide : (round s.fetch s.buf2.length result).canStop with
    | true =>
      rw [wideLoop_stop hwide] at h
      cases h
      refine ⟨1, ?_⟩
      rw [getlineLoop]
      exact if_pos ((round_canStop s result).mpr ⟨hwide, hreturns⟩)
    | false =>
      have hless := round_decreases hwide
      rw [hn] at hless
      rw [wideLoop_more hwide] at h
      obtain ⟨fuel, hfuel⟩ := ih _ hless h rfl
      refine ⟨fuel + 1, ?_⟩
      rw [getlineLoop]
      refine (if_neg ?_).trans hfuel
      intro hstop
      rw [((round_canStop s result).mp hstop).1] at hwide
      cases hwide

/-- A call that returns false has met the end of the output with less than 2^31 bytes of the standard error. -/
theorem getline_false {fuel : Nat} (h : getlineLoop fuel s result = some (false, l, t)) : t.buf2.length < 2 ^ 31 := by
  induction fuel generalizing s result with
  | zero => cases h
  | succ fuel ih =>
    rw [getlineLoop] at h
    split_ifs at h with hstop
    · simp only [Option.some.injEq, Prod.mk.injEq, decide_eq_false_iff_not, not_or, not_not] at h
      obtain ⟨⟨hbuf, -⟩, -, rfl⟩ := h
      exact ((round_canStop s result).mp hstop).2.resolve_left (not_not.mpr hbuf)
    · exact ih h

theorem Lines.small (h : Lines s ls u) : u.buf2.length < 2 ^ 31 ∧ s.buf2.length ≤ u.buf2.length := by
  induction h with
  | stop h =>
    obtain ⟨fuel, hfuel⟩ := h
    exact ⟨getline_false hfuel, getlineLoop_length hfuel⟩
  | more h _ ih =>
    obtain ⟨fuel, hfuel⟩ := h
    exact ⟨ih.1, Nat.le_trans (getlineLoop_length hfuel) ih.2⟩

theorem Lines.wide (h : Lines s ls u) : WideLines s ls u := by
  induction h with
  | stop h =>
    obtain ⟨fuel, hfuel⟩ := h
    exact .stop (wideLoop_of_getline hfuel (getline_false hfuel))
  | more h rest ih =>
    obtain ⟨fuel, hfuel⟩ := h
    obtain ⟨hsmall, hle⟩ := rest.small
    exact .more (wideLoop_of_getline hfuel (Nat.lt_of_le_of_lt hle hsmall)) ih

theorem wideLoop_length (h : s.wideLoop result = (b, l, t)) : s.buf2.length ≤ t.buf2.length := by
  induction hn : s.work using Nat.strongRecOn generalizing s result with
  | ind n ih =>
    cases hwide : (round s.fetch s.buf2.length result).canStop with
    | true =>
      rw [wideLoop_stop hwide] at h
      cases h
      exact s.fetch_length
    | false =>
      have hless := round_decreases hwide
      rw [hn] at hless
      rw [wideLoop_more hwide] at h
      have hrest := ih _ hless h rfl
      exact Nat.le_trans s.fetch_length hrest

theorem WideLines.length (h : WideLines s ls u) : s.buf2.length ≤ u.buf2.length := by
  induction h with
  | stop h => exact wideLoop_length h
  | more h _ ih => exact Nat.le_trans (wideLoop_length h) ih

/-- The calls return the lines of the other loop just when less than 2^31 bytes of the standard error are buffered
at the end. -/
theorem lines_iff_wide : Lines s ls u ↔ WideLines s ls u ∧ u.buf2.length < 2 ^ 31 := by
  constructor
  · exact fun h => ⟨h.wide, h.small.1⟩
  · rintro ⟨h, hsmall⟩
    induction h with
    | stop h => exact .stop (getline_of_wideLoop h (Or.inr hsmall))
    | more h rest ih =>
      exact .more (getline_of_wideLoop h (Or.inr (Nat.lt_of_le_of_lt rest.length hsmall))) (ih hsmall)

end Wide

end ChildReader

end Oprofile.Libutilpp
