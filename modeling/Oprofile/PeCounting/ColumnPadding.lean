import Oprofile.PeCounting.OcountRecord
import Mathlib.Tactic.Common

/-! The columns of the long report (`ocount_record::output_long_results`). -/
namespace Oprofile.PeCounting

open PeUtils (OperfEvent)
open SampleNames (Text printU)

def countColumnWidth : UInt32 := 25

def separationElementColumnWidth : UInt32 := 10

def minNameColumnSpacing : Nat := 8

def modeFieldSize : Nat := 3

/-- The length that `output_results` takes for the name of an event and what is printed behind it. -/
def nameLength (e : OperfEvent) : Nat :=
  let length := e.umName.length + e.name.length + 1
  let length :=
    if e.umNumericValAsStr.length + e.name.length > length then
      e.umNumericValAsStr.length + e.name.length + 1
    else length
  if e.modeSpecified then length + modeFieldSize else length

/-- `evt_name_col_size` -/
def evtNameColSize (evts : List OperfEvent) : Nat :=
  evts.foldl (fun size e => if nameLength e > size then nameLength e else size) 0

/-- `strncpy(temp, space_padding, num_pads); temp[num_pads] = '\0'`, inside both arrays of 64 characters. -/
def pad (numPads : UInt32) : Option Text :=
  if numPads.toNat ≤ 63 then some (List.replicate numPads.toNat ' ') else none

/-- The loop that puts the commas into a count, from its end. -/
def insertCommas (count : Text) : Text :=
  (List.range ((count.length - 1) / 3)).foldl (fun text j =>
    let i := count.length - 3 * (j + 1)
    text.take i ++ ',' :: text.drop i) count

/-- Of the text that does not depend on the columns: what stands over the counts, and the last column of each line. -/
structure LongTexts where
  heading : Text
  fraction : Nat → Text

section

variable (r : OcountRecord) (useSeparation : Bool) (scaledCount : Nat → UInt64) (texts : LongTexts)

/-- The cpu or task of a counter. -/
def separationElement (c : OcountCounter) : Int32 := if r.cpusToCount.length ≠ 0 then c.cpu else c.pid

/-- The column of the cpu or task, if there is one. -/
def separationColumn (element : Text) : Option Text :=
  if useSeparation then (pad (separationElementColumnWidth - UInt32.ofNat element.length)).map (element ++ ·)
  else some []

/-- The names of the columns. -/
def longHeading (beginSecondCol : UInt32) : Option Text := do
  let afterEvent ← pad (beginSecondCol - 5)
  let separation ← separationColumn useSeparation
    (if r.cpusToCount.length ≠ 0 then ['C', 'P', 'U'] else ['T', 'a', 's', 'k', ' ', 'I', 'D'])
  let afterCount ← pad (countColumnWidth - 5)
  some (texts.heading ++ ['\t', 'E', 'v', 'e', 'n', 't'] ++ afterEvent ++ separation ++
    ['C', 'o', 'u', 'n', 't'] ++ afterCount ++
    ['%', ' ', 't', 'i', 'm', 'e', ' ', 'c', 'o', 'u', 'n', 't', 'e', 'd', '\n'])

/-- One line. -/
def longLine (beginSecondCol : UInt32) (counter : OcountCounter) (num : Nat) : Option Text := do
  let qual := counter.qualifier
  let afterName ← pad (beginSecondCol - UInt32.ofNat qual.length - UInt32.ofNat counter.event.name.length)
  let separation ← separationColumn useSeparation (SampleNames.printD (separationElement r counter))
  let count := insertCommas (Nat.toDigits 10 (scaledCount num).toNat)
  let afterCount ← pad (countColumnWidth - UInt32.ofNat count.length)
  some ('\t' :: counter.event.name ++ qual ++ afterName ++ separation ++ count ++ afterCount ++ texts.fraction num)

/-- The counters whose lines are printed. -/
def printedCounters : List OcountCounter :=
  r.perfCounters.take (if useSeparation then r.perfCounters.length else r.evts.length)

/-- `output_long_results`, with the column size of `output_results`. -/
def outputLongResults : Option Text := do
  let beginSecondCol := UInt32.ofNat (evtNameColSize r.evts + minNameColumnSpacing)
  let heading ← longHeading r useSeparation texts beginSecondCol
  let lines ← (printedCounters r useSeparation).zipIdx.mapM fun c =>
    longLine r useSeparation scaledCount texts beginSecondCol c.1 c.2
  some (heading ++ lines.flatten)

end

/-! ### The widths -/

/-- The characters of a name and what is printed behind it. -/
def printedLength (e : OperfEvent) : Nat :=
  e.name.length + (printMaskModes e.modeSpecified e.umaskSpecified e.noKernel e.noUser e.umNumericValAsStr
    e.umName).length

/-- The modes take one character more than is set aside, a one-digit mask too; the spacing covers both. -/
theorem printedLength_le (e : OperfEvent) : printedLength e ≤ nameLength e + 2 := by
  have hmode : (if e.modeSpecified then
      (if e.noKernel then [':', '0'] else [':', '1']) ++ (if e.noUser then [':', '0'] else [':', '1'])
    else ([] : Text)).length = if e.modeSpecified then 4 else 0 := by
    cases e.modeSpecified <;> cases e.noKernel <;> cases e.noUser <;> rfl
  unfold printedLength printMaskModes nameLength modeFieldSize
  rw [List.length_append, hmode]
  cases e.umaskSpecified
  · cases e.modeSpecified <;> simp <;> split <;> omega
  · by_cases hum : e.umName.length = 0
    · cases e.modeSpecified <;> simp [hum] <;> split <;> omega
    · cases e.modeSpecified <;> simp [hum] <;> split <;> omega

theorem evtNameColSize_le_iff (evts : List OperfEvent) (k : Nat) :
    evtNameColSize evts ≤ k ↔ ∀ e ∈ evts, nameLength e ≤ k := by
  have rounds (size : Nat) :
      evts.foldl (fun size e => if nameLength e > size then nameLength e else size) size ≤ k ↔
        size ≤ k ∧ ∀ e ∈ evts, nameLength e ≤ k := by
    induction evts generalizing size with
    | nil => simp
    | cons e evts ih =>
      rw [List.foldl_cons, ih, List.forall_mem_cons]
      split <;> constructor <;> rintro ⟨h1, h2⟩ <;> refine ⟨by omega, ?_⟩
      · exact ⟨h1, h2⟩
      · exact h2.2
      · exact ⟨by omega, h2⟩
      · exact h2.2
  rw [evtNameColSize, rounds 0]
  simp

theorem nameLength_le_colSize {evts : List OperfEvent} {e : OperfEvent} (he : e ∈ evts) :
    nameLength e ≤ evtNameColSize evts :=
  (evtNameColSize_le_iff evts _).mp (Nat.le_refl _) e he

theorem pad_isSome_iff (numPads : UInt32) : (pad numPads).isSome ↔ numPads.toNat ≤ 63 := by
  unfold pad
  split <;> simp_all

/-- A difference of widths that is not negative. -/
theorem toNat_width {b q n : Nat} (hb : b < 2 ^ 32) (h : q + n ≤ b) :
    (UInt32.ofNat b - UInt32.ofNat q - UInt32.ofNat n).toNat = b - (q + n) := by
  rw [← UInt32.ofNat_sub (by omega), ← UInt32.ofNat_sub (by omega), UInt32.toNat_ofNat']
  omega

theorem length_insertCommas (count : Text) :
    (insertCommas count).length = count.length + (count.length - 1) / 3 := by
  have rounds (k : Nat) : ((List.range k).foldl (fun text j =>
      let i := count.length - 3 * (j + 1)
      text.take i ++ ',' :: text.drop i) count).length = count.length + k := by
    induction k with
    | zero => rfl
    | succ k ih =>
      rw [List.range_succ, List.foldl_append, List.foldl_cons, List.foldl_nil, List.length_append,
        List.length_cons, ← Nat.add_assoc, ← List.length_append, List.take_append_drop, ih, Nat.add_assoc]
  exact rounds _

/-- Nineteen digits and six commas fill the column. -/
theorem count_pads_iff (x : UInt64) :
    (pad (countColumnWidth - UInt32.ofNat (insertCommas (Nat.toDigits 10 x.toNat)).length)).isSome ↔
      x.toNat < 10 ^ 19 := by
  have hlong : (Nat.toDigits 10 x.toNat).length ≤ 20 := by
    rw [Nat.length_toDigits_le_iff (by decide) (by decide)]
    exact Nat.lt_trans x.toNat_lt (by decide)
  rw [pad_isSome_iff, length_insertCommas, ← Nat.length_toDigits_le_iff (b := 10) (by decide) (by decide)]
  generalize (Nat.toDigits 10 x.toNat).length = n at hlong
  constructor
  · intro h
    by_contra hn
    have h20 : n = 20 := by omega
    subst h20
    revert h
    decide
  · intro h
    have hwidth := toNat_width (b := 25) (q := n + (n - 1) / 3) (n := 0) (by decide) (by omega)
    have hzero : UInt32.ofNat 25 - UInt32.ofNat (n + (n - 1) / 3) - UInt32.ofNat 0 =
        countColumnWidth - UInt32.ofNat (n + (n - 1) / 3) := by simp [countColumnWidth]
    rw [← hzero, hwidth]
    omega

/-- A cpu or task id that is not negative has at most ten digits. -/
theorem element_pads {x : Int32} (hx : 0 ≤ x.toInt) :
    (pad (separationElementColumnWidth - UInt32.ofNat (SampleNames.printD x).length)).isSome := by
  have hdigits : (SampleNames.printD x).length ≤ 10 := by
    rw [SampleNames.printD, if_neg (by omega), Nat.length_toDigits_le_iff (by decide) (by decide)]
    have hlt := x.toInt_lt
    omega
  have hwidth := toNat_width (b := 10) (q := (SampleNames.printD x).length) (n := 0) (by decide) (by omega)
  have hzero : UInt32.ofNat 10 - UInt32.ofNat (SampleNames.printD x).length - UInt32.ofNat 0 =
      separationElementColumnWidth - UInt32.ofNat (SampleNames.printD x).length := by
    simp [separationElementColumnWidth]
  rw [pad_isSome_iff, ← hzero, hwidth]
  omega

/-! ### The report -/

section

variable {r : OcountRecord} {useSeparation : Bool} {scaledCount : Nat → UInt64} {texts : LongTexts} {size : Nat}

/-- A text of three columns is written when all of them are. -/
theorem isSome_columns {x y z : Option Text} {f : Text → Text → Text → Text} :
    (x.bind fun a => y.bind fun b => z.bind fun c => some (f a b c)).isSome ↔
      x.isSome ∧ y.isSome ∧ z.isSome := by
  cases x <;> cases y <;> cases z <;> simp

theorem separationColumn_isSome {element : Text}
    (h : (pad (separationElementColumnWidth - UInt32.ofNat element.length)).isSome) :
    (separationColumn useSeparation element).isSome := by
  unfold separationColumn
  split
  · simpa using h
  · rfl

theorem longHeading_isSome_iff (hsize : size + minNameColumnSpacing < 2 ^ 32) :
    (longHeading r useSeparation texts (UInt32.ofNat (size + minNameColumnSpacing))).isSome ↔ size ≤ 60 := by
  have hwidth := toNat_width (b := size + minNameColumnSpacing) (q := 5) (n := 0) hsize
    (by unfold minNameColumnSpacing; omega)
  have hzero : UInt32.ofNat (size + minNameColumnSpacing) - UInt32.ofNat 5 - UInt32.ofNat 0 =
      UInt32.ofNat (size + minNameColumnSpacing) - 5 := UInt32.sub_zero _
  have helement : (pad (separationElementColumnWidth - UInt32.ofNat
      (if r.cpusToCount.length ≠ 0 then ['C', 'P', 'U'] else ['T', 'a', 's', 'k', ' ', 'I', 'D']).length)).isSome := by
    split <;> decide
  have hlast : (pad (countColumnWidth - 5)).isSome := by decide
  refine isSome_columns.trans ?_
  rw [pad_isSome_iff, ← hzero, hwidth]
  unfold minNameColumnSpacing
  constructor
  · rintro ⟨h, -⟩
    omega
  · intro h
    exact ⟨by omega, separationColumn_isSome helement, hlast⟩

theorem longLine_isSome_iff {counter : OcountCounter} {num : Nat} (hsize : size + minNameColumnSpacing < 2 ^ 32)
    (hname : nameLength counter.event ≤ size) (helement : 0 ≤ (separationElement r counter).toInt) :
    (longLine r useSeparation scaledCount texts (UInt32.ofNat (size + minNameColumnSpacing)) counter num).isSome ↔
      size ≤ printedLength counter.event + 55 ∧ (scaledCount num).toNat < 10 ^ 19 := by
  have hprinted := printedLength_le counter.event
  have hlength : counter.qualifier.length + counter.event.name.length = printedLength counter.event :=
    Nat.add_comm _ _
  have hwidth := toNat_width (b := size + minNameColumnSpacing) (q := counter.qualifier.length)
    (n := counter.event.name.length) hsize (by unfold minNameColumnSpacing; omega)
  refine isSome_columns.trans ?_
  rw [pad_isSome_iff, hwidth, hlength, count_pads_iff]
  unfold minNameColumnSpacing
  constructor
  · rintro ⟨hpads, -, hcount⟩
    exact ⟨by omega, hcount⟩
  · rintro ⟨hpads, hcount⟩
    exact ⟨by omega, separationColumn_isSome (element_pads helement), hcount⟩

theorem mapM_isSome_iff {α β : Type} (f : α → Option β) (l : List α) :
    (l.mapM f).isSome ↔ ∀ a ∈ l, (f a).isSome := by
  induction l with
  | nil => simp
  | cons a l ih =>
    rw [List.mapM_cons, List.forall_mem_cons, ← ih]
    cases f a <;> cases l.mapM f <;> simp

/-- A record set up for counting, for each task or for each CPU. -/
inductive Counting (evts : List OperfEvent) : OcountRecord → Prop
  | perTask (tasks : List Int32) (interval : Bool) (h : tasks ≠ []) :
    Counting evts (doCountingPerTask evts tasks interval)
  | perCpu (cpus : List Int32) (interval : Bool) (h : cpus ≠ []) :
    Counting evts (doCountingPerCpu evts cpus interval)

theorem printed_events {evts : List OperfEvent} {elements : List Int32} (hne : elements ≠ [])
    (counter : Int32 → OperfEvent → OcountCounter) (hevent : ∀ x e, (counter x e).event = e) (separate : Bool) :
    (∀ c ∈ (elements.flatMap fun x => evts.map (counter x)).take
        (if separate then (elements.flatMap fun x => evts.map (counter x)).length else evts.length), c.event ∈ evts) ∧
      ∀ e ∈ evts, ∃ c ∈ (elements.flatMap fun x => evts.map (counter x)).take
        (if separate then (elements.flatMap fun x => evts.map (counter x)).length else evts.length), c.event = e := by
  constructor
  · intro c hc
    obtain ⟨x, -, hx⟩ := List.mem_flatMap.mp (List.mem_of_mem_take hc)
    obtain ⟨e, he, rfl⟩ := List.mem_map.mp hx
    rw [hevent]
    exact he
  · intro e he
    obtain ⟨x, xs, rfl⟩ := List.exists_cons_of_ne_nil hne
    refine ⟨counter x e, ?_, hevent x e⟩
    -- the counters of the first element stand in front, and these are printed in both modes
    have hfront : counter x e ∈ evts.map (counter x) := List.mem_map_of_mem he
    rw [List.flatMap_cons]
    split
    · rw [List.take_length]
      exact List.mem_append_left _ hfront
    · rw [List.take_append_of_le_length (by simp), List.take_of_length_le (by simp)]
      exact hfront

theorem Counting.evts_eq {evts : List OperfEvent} (h : Counting evts r) : r.evts = evts := by
  cases h <;> rfl

theorem Counting.printed {evts : List OperfEvent} (h : Counting evts r) (separate : Bool) :
    (∀ c ∈ printedCounters r separate, c.event ∈ evts) ∧
      ∀ e ∈ evts, ∃ c ∈ printedCounters r separate, c.event = e := by
  cases h with
  | perTask tasks interval hne => exact printed_events hne (fun pid event => ⟨event, -1, pid⟩) (fun _ _ => rfl) separate
  | perCpu cpus interval hne => exact printed_events hne (fun cpu event => ⟨event, cpu, -1⟩) (fun _ _ => rfl) separate

/-- Every padding stays within its 64 characters exactly when the names are short enough, and not too short beside
each other, and the counts have at most nineteen digits. -/
theorem outputLongResults_isSome_iff (evts : List OperfEvent) (r : OcountRecord) (useSeparation : Bool)
    (scaledCount : Nat → UInt64) (texts : LongTexts) (h : Counting evts r)
    (hnames : ∀ e ∈ evts, e.name.length ≤ 63 ∧ e.umName.length ≤ 63 ∧ e.umNumericValAsStr.length ≤ 16)
    (helements : ∀ c ∈ r.perfCounters, 0 ≤ (separationElement r c).toInt) :
    (outputLongResults r useSeparation scaledCount texts).isSome ↔
      (∀ e ∈ evts, nameLength e ≤ 60) ∧ (∀ e ∈ evts, ∀ e' ∈ evts, nameLength e ≤ printedLength e' + 55) ∧
        ∀ num < (printedCounters r useSeparation).length, (scaledCount num).toNat < 10 ^ 19 := by
  have hlength (e : OperfEvent) (he : e ∈ evts) : nameLength e ≤ 130 := by
    obtain ⟨hname, hum, hnumeric⟩ := hnames e he
    unfold nameLength modeFieldSize
    dsimp only
    split <;> split <;> omega
  have hsize := (evtNameColSize_le_iff evts 130).mpr hlength
  have hfits : evtNameColSize evts + minNameColumnSpacing < 2 ^ 32 := by
    unfold minNameColumnSpacing
    omega
  obtain ⟨hevents, hall⟩ := h.printed useSeparation
  have hline (c : OcountCounter) (hc : c ∈ printedCounters r useSeparation) (num : Nat) :
      (longLine r useSeparation scaledCount texts (UInt32.ofNat (evtNameColSize evts + minNameColumnSpacing)) c
        num).isSome ↔ evtNameColSize evts ≤ printedLength c.event + 55 ∧ (scaledCount num).toNat < 10 ^ 19 :=
    longLine_isSome_iff hfits (nameLength_le_colSize (hevents c hc)) (helements c (List.mem_of_mem_take hc))
  have hlines : (((printedCounters r useSeparation).zipIdx.mapM fun c =>
      longLine r useSeparation scaledCount texts (UInt32.ofNat (evtNameColSize evts + minNameColumnSpacing)) c.1
        c.2)).isSome ↔ (∀ e ∈ evts, ∀ e' ∈ evts, nameLength e ≤ printedLength e' + 55) ∧
        ∀ num < (printedCounters r useSeparation).length, (scaledCount num).toNat < 10 ^ 19 := by
    rw [mapM_isSome_iff]
    constructor
    · intro hprinted
      refine ⟨?_, ?_⟩
      · intro e he e' he'
        obtain ⟨c, hc, rfl⟩ := hall e' he'
        obtain ⟨num, hnum⟩ := List.getElem?_of_mem hc
        have hone := (hline c hc num).mp (hprinted (c, num) (List.mk_mem_zipIdx_iff_getElem?.mpr hnum))
        exact Nat.le_trans (nameLength_le_colSize he) hone.1
      · intro num hnum
        have hget := List.getElem?_eq_getElem hnum
        have hmem := List.mem_of_getElem? hget
        exact ((hline _ hmem num).mp (hprinted (_, num) (List.mk_mem_zipIdx_iff_getElem?.mpr hget))).2
    · rintro ⟨hshort, hcounts⟩ ⟨c, num⟩ hc
      have hget := List.mk_mem_zipIdx_iff_getElem?.mp hc
      have hmem := List.mem_of_getElem? hget
      refine (hline c hmem num).mpr ⟨?_, hcounts num (List.getElem?_eq_some_iff.mp hget).1⟩
      rw [evtNameColSize_le_iff]
      exact fun e he => hshort e he c.event (hevents c hmem)
  have hheading : (longHeading r useSeparation texts
      (UInt32.ofNat (evtNameColSize evts + minNameColumnSpacing))).isSome ↔ ∀ e ∈ evts, nameLength e ≤ 60 := by
    rw [longHeading_isSome_iff hfits, evtNameColSize_le_iff]
  rw [← hlines, ← hheading, outputLongResults, h.evts_eq]
  cases longHeading r useSeparation texts (UInt32.ofNat (evtNameColSize evts + minNameColumnSpacing)) with
  | none => simp
  | some heading =>
    cases (printedCounters r useSeparation).zipIdx.mapM fun c =>
      longLine r useSeparation scaledCount texts (UInt32.ofNat (evtNameColSize evts + minNameColumnSpacing)) c.1 c.2 with
    | none => simp
    | some lines => simp

end

/-- An event of a given name. -/
def namedEvent (name : Text) : OperfEvent where
  name := name
  count := 0
  evtUm := 0
  umName := []
  umNumericValAsStr := []
  noKernel := false
  noUser := false
  throttled := false
  modeSpecified := true
  umaskSpecified := false

def noTexts : LongTexts := ⟨[], fun _ => []⟩

/-- An event with a short name and one of 40 characters. -/
def unequalEvents : List OperfEvent := [namedEvent ['c', 'y', 'c'], namedEvent (List.replicate 40 'x')]

theorem outputLongResults_isSome_iff_cycles :
    (outputLongResults (doCountingPerCpu unequalEvents [0, 1] false) true (fun num => UInt64.ofNat (10 ^ (6 * num)))
      noTexts).isSome := by
  refine (outputLongResults_isSome_iff unequalEvents _ true _ noTexts
    (.perCpu [0, 1] false (List.cons_ne_nil 0 [1])) (by decide) (by decide)).mpr ⟨by decide, by decide, ?_⟩
  have hcounters : (printedCounters (doCountingPerCpu unequalEvents [0, 1] false) true).length = 4 := rfl
  rw [hcounters]
  decide

/-- A name of 63 characters makes the first padding 70 characters long. -/
theorem long_name_overruns : ∃ r, Counting [namedEvent (List.replicate 63 'x')] r ∧
    (∀ e ∈ [namedEvent (List.replicate 63 'x')],
      e.name.length ≤ 63 ∧ e.umName.length ≤ 63 ∧ e.umNumericValAsStr.length ≤ 16) ∧
    (∀ c ∈ r.perfCounters, 0 ≤ (separationElement r c).toInt) ∧
    outputLongResults r false (fun _ => 1) noTexts = none := by
  refine ⟨_, .perTask [42] false (List.cons_ne_nil 42 []), ?_, by decide, by decide⟩
  intro e he
  rw [List.mem_singleton.mp he]
  decide

end Oprofile.PeCounting
