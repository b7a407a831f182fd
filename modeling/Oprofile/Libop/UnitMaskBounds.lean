import Oprofile.Libop.UnitMaskFiles

/-! The tables of the unit masks that reading the files leaves within their bounds. -/
namespace Oprofile.Libop.UnitMaskFiles

open SampleNames (Text)
open UnitMasks (UnitMaskType maxUnitMask)
open Results (ErrorsIn)

namespace UmState

/-! ### Where parsing stops -/

/-- Anything but a write outside the tables. -/
def Orderly (stop : UmStop) : Prop := stop ≠ .fault

theorem orderly_exit (context : String) : Orderly (.exit context) := by simp [Orderly]

variable {α : Type} {β : Type}

theorem errorsIn_exit (context : String) : ErrorsIn Orderly (.error (.exit context) : Except UmStop α) := by
  intro e he
  cases he
  exact orderly_exit context

theorem parseHex_orderly (str : Text) : ErrorsIn Orderly (parseHex str) := by
  unfold parseHex
  dsimp only
  split
  · exact Results.errorsIn_ok _
  · exact errorsIn_exit _

theorem textUpTo_orderly (start stop : Text) : ErrorsIn Orderly (textUpTo start stop) := by
  unfold textUpTo
  split_ifs with h
  · exact Results.errorsIn_ok _
  · intro e he
    cases he
    simp [Orderly]

theorem parseModifier_orderly (s : Text) : ErrorsIn Orderly (parseModifier s) := by
  unfold parseModifier
  split_ifs with hedge hinv hcmask hany hpebs
  all_goals try exact Results.errorsIn_ok _
  all_goals split <;> first
    | exact Results.errorsIn_ok _
    | exact errorsIn_exit _

theorem parseExtraLoop_orderly (rounds : Nat) (v : UInt32) (s : Text) : ErrorsIn Orderly (parseExtraLoop rounds v s) := by
  induction rounds generalizing v s with
  | zero => exact Results.errorsIn_ok v
  | succ rounds ih =>
    unfold parseExtraLoop
    split
    · exact Results.errorsIn_ok v
    · split_ifs with hspace
      · exact Results.errorsIn_ok v
      · apply (parseModifier_orderly s).bind
        intro found _
        apply ih

theorem entryRest_orderly (line : Text) (value : UInt32) : ErrorsIn Orderly (entryRest line value) := by
  unfold entryRest
  dsimp only
  by_cases hempty : skipWs (skipNonws (skipWs line)) = []
  · rw [if_pos hempty]
    exact errorsIn_exit _
  · rw [if_neg hempty]
    split
    · apply (parseExtraLoop_orderly _ _ _).bind
      intro extra _
      split
      · exact errorsIn_exit _
      · exact Results.errorsIn_ok _
    · exact Results.errorsIn_ok _

theorem parseTag_orderly (um : UmLine) (start tagend valueend : Text) :
    ErrorsIn Orderly (parseTag um start tagend valueend) := by
  unfold parseTag
  split_ifs
  all_goals first
    | exact errorsIn_exit _
    | exact Results.errorsIn_ok _
    | exact (textUpTo_orderly _ _).map
    | exact (parseHex_orderly _).map

theorem finishUm_orderly (um : UmLine) : ErrorsIn Orderly (finishUm um) := by
  unfold finishUm
  split_ifs
  · exact errorsIn_exit _
  · exact errorsIn_exit _
  · exact Results.errorsIn_ok _

theorem parseUmLoop_orderly (um : UmLine) (start tagend valueend : Text) :
    ErrorsIn Orderly (parseUmLoop um start tagend valueend) := by
  fun_induction parseUmLoop um start tagend valueend with
  | case1 => exact finishUm_orderly _
  | case2 => exact finishUm_orderly _
  | case3 => exact errorsIn_exit _
  | case4 => exact errorsIn_exit _
  | case5 => exact (textUpTo_orderly _ _).map
  | case6 um start tagend c s valueend tagend' _ _ _ stop htag =>
    intro e he
    cases he
    exact parseTag_orderly _ _ _ _ _ htag
  | case7 _ _ _ _ _ _ _ _ _ _ _ _ ih => exact ih

/-! ### The invariant -/

variable {s s' : UmState} {addr : Nat}

/-- Every unit mask of the list has as many entries as its number says, and no more than its table has room for. -/
structure Bounded (s : UmState) : Prop where
  num_eq : ∀ addr ∈ s.umList, (s.ums addr).num = (s.ums addr).um.length
  num_le : ∀ addr ∈ s.umList, (s.ums addr).num ≤ maxUnitMask
  allocated : ∀ addr ∈ s.umList, addr < s.next

/-- Addresses are only taken, and what is new in the list was not allocated. -/
structure Grows (s s' : UmState) : Prop where
  next_le : s.next ≤ s'.next
  fresh : ∀ addr ∈ s'.umList, addr ∈ s.umList ∨ s.next ≤ addr

theorem Grows.refl (s : UmState) : Grows s s := ⟨Nat.le_refl _, fun _ h => .inl h⟩

theorem Grows.trans {s₁ s₂ s₃ : UmState} (h : Grows s₁ s₂) (h' : Grows s₂ s₃) : Grows s₁ s₃ := by
  refine ⟨h.next_le.trans h'.next_le, fun addr haddr => ?_⟩
  rcases h'.fresh addr haddr with hold | hnew
  · exact h.fresh addr hold
  · exact .inr (h.next_le.trans hnew)

theorem Grows.not_mem (h : Grows s s') (hlt : addr < s.next) (hout : addr ∉ s.umList) : addr ∉ s'.umList := by
  intro hin
  rcases h.fresh addr hin with hold | hnew
  · exact hout hold
  · omega

theorem bounded_init : Bounded init := ⟨by simp [init], by simp [init], by simp [init]⟩

@[simp] theorem set_umList (s : UmState) (addr : Nat) (um : OpUnitMask) : (s.set addr um).umList = s.umList := rfl

@[simp] theorem set_next (s : UmState) (addr : Nat) (um : OpUnitMask) : (s.set addr um).next = s.next := rfl

@[simp] theorem set_self (s : UmState) (addr : Nat) (um : OpUnitMask) : (s.set addr um).ums addr = um := if_pos rfl

@[simp] theorem set_set (s : UmState) (addr : Nat) (um um' : OpUnitMask) :
    (s.set addr um).set addr um' = s.set addr um' := by
  simp only [set, UmState.mk.injEq, and_true]
  funext a
  split_ifs <;> rfl

theorem set_other {a : Nat} (um : OpUnitMask) (h : a ≠ addr) : (s.set addr um).ums a = s.ums a := if_neg h

theorem Bounded.set (h : Bounded s) {um : OpUnitMask} (hnum : um.num = um.um.length) (hle : um.num ≤ maxUnitMask) :
    Bounded (s.set addr um) := by
  refine ⟨fun a ha => ?_, fun a ha => ?_, h.allocated⟩
  · by_cases heq : a = addr
    · rw [heq, set_self]
      exact hnum
    · rw [set_other um heq]
      exact h.num_eq a ha
  · by_cases heq : a = addr
    · rw [heq, set_self]
      exact hle
    · rw [set_other um heq]
      exact h.num_le a ha

theorem grows_set (s : UmState) (addr : Nat) (um : OpUnitMask) : Grows s (s.set addr um) :=
  ⟨Nat.le_refl _, fun _ h => .inl h⟩

theorem newUnitMask_self (s : UmState) : s.newUnitMask.ums s.next = zeroed := if_pos rfl

theorem mem_newUnitMask (s : UmState) : s.next ∈ s.newUnitMask.umList := by simp [newUnitMask]

theorem Bounded.newUnitMask (h : Bounded s) : Bounded s.newUnitMask := by
  refine ⟨fun a ha => ?_, fun a ha => ?_, fun a ha => ?_⟩
  all_goals
    rcases List.mem_append.mp ha with hold | hnew
  · have hne : a ≠ s.next := (h.allocated a hold).ne
    simpa [UmState.newUnitMask, hne] using h.num_eq a hold
  · rw [List.mem_singleton.mp hnew, newUnitMask_self]
    rfl
  · have hne : a ≠ s.next := (h.allocated a hold).ne
    simpa [UmState.newUnitMask, hne] using h.num_le a hold
  · rw [List.mem_singleton.mp hnew, newUnitMask_self]
    exact Nat.zero_le _
  · exact Nat.lt_succ_of_lt (h.allocated a hold)
  · rw [List.mem_singleton.mp hnew]
    exact Nat.lt_succ_self _

theorem grows_newUnitMask (s : UmState) : Grows s s.newUnitMask := by
  refine ⟨Nat.le_succ _, fun a ha => ?_⟩
  rcases List.mem_append.mp ha with hold | hnew
  · exact .inl hold
  · exact .inr (List.mem_singleton.mp hnew).ge

theorem Bounded.fresh_freed (h : Bounded s) : (s.newUnitMask.freeUnitMask s.next).umList = s.umList := by
  have hout : s.next ∉ s.umList := fun hin => Nat.lt_irrefl _ (h.allocated _ hin)
  simp [freeUnitMask, UmState.newUnitMask, List.erase_append_right _ hout]

theorem Bounded.freed (h : Bounded s) : Bounded (s.newUnitMask.freeUnitMask s.next) := by
  have hmem : ∀ a ∈ (s.newUnitMask.freeUnitMask s.next).umList, a ∈ s.newUnitMask.umList :=
    fun a ha => List.mem_of_mem_erase ha
  exact ⟨fun a ha => h.newUnitMask.num_eq a (hmem a ha), fun a ha => h.newUnitMask.num_le a (hmem a ha),
    fun a ha => h.newUnitMask.allocated a (hmem a ha)⟩

theorem grows_freed (s : UmState) : Grows s (s.newUnitMask.freeUnitMask s.next) :=
  ⟨(grows_newUnitMask s).next_le, fun a ha => (grows_newUnitMask s).fresh a (List.mem_of_mem_erase ha)⟩

/-! ### Entries -/

theorem storeEntry_inside {index : Nat} (entry : DescribedUm) (hin : addr ∈ s.umList) (hlt : index < maxUnitMask) :
    s.storeEntry addr index entry =
      .ok (s.set addr { s.ums addr with um := (s.ums addr).um.take index ++ entry :: (s.ums addr).um.drop (index + 1) }) :=
  if_pos ⟨hin, hlt⟩

theorem stored_at_end {entries : List DescribedUm} {index : Nat} (entry : DescribedUm) (h : entries.length = index) :
    entries.take index ++ entry :: entries.drop (index + 1) = entries ++ [entry] := by
  rw [List.take_of_length_le h.le, List.drop_of_length_le (by omega)]

/-- A line that `parse_um_entry` accepts. -/
def EntryReadable (line : Text) : Prop := ∃ value entry, entryValue line = .ok value ∧ entryRest line value = .ok entry

theorem readEntry_outside {line : Text} (hout : ¬(addr ∈ s.umList ∧ (s.ums addr).num < maxUnitMask)) :
    s.readEntry addr line = (entryValue line >>= fun _ => .error .fault) := by
  unfold readEntry
  simp only [hout, not_false_eq_true, if_true]

theorem readEntry_inside {line : Text} (hbounded : Bounded s) (hin : addr ∈ s.umList)
    (hlt : (s.ums addr).num < maxUnitMask) :
    s.readEntry addr line = (entryValue line >>= fun value => entryRest line value >>= fun entry =>
      .ok (s.set addr { s.ums addr with um := (s.ums addr).um ++ [entry], num := (s.ums addr).num + 1 })) := by
  have hnum := hbounded.num_eq addr hin
  unfold readEntry
  simp only [hin, hlt, and_self, not_true_eq_false, if_false, storeEntry_inside _ hin hlt, stored_at_end _ hnum.symm,
    Results.ok_then, set_self, set_set]

/-! ### What reading does -/

/-- A run that writes outside a table exactly when its input does not fit, that succeeds exactly when its input is
readable, and that keeps the tables in order. -/
structure Reads (s : UmState) (r : Except UmStop UmState) (readable fits : Prop) : Prop where
  fault_iff : r = .error .fault ↔ ¬fits
  ok_iff : fits → ((∃ s', r = .ok s') ↔ readable)
  bounded : ∀ s', r = .ok s' → Bounded s'
  grows : ∀ s', r = .ok s' → Grows s s'

variable {r : Except UmStop UmState} {readable readable' fits fits' : Prop}

theorem Reads.stop {stop : UmStop} (h : Orderly stop) (hnot : ¬readable) (hfits : fits) :
    Reads s (.error stop) readable fits := by
  refine ⟨⟨fun he => ?_, fun hn => (hn hfits).elim⟩, fun _ => ⟨fun ⟨s', he⟩ => ?_, fun hr => (hnot hr).elim⟩, ?_, ?_⟩
  · cases he
    exact (h rfl).elim
  · cases he
  · intro s' he
    cases he
  · intro s' he
    cases he

theorem Reads.fault (h : ¬fits) : Reads s (.error .fault) readable fits := by
  refine ⟨⟨fun _ => h, fun _ => rfl⟩, fun hf => (h hf).elim, ?_, ?_⟩
  · intro s' he
    cases he
  · intro s' he
    cases he

theorem Reads.done (h : Bounded s') (hgrows : Grows s s') (hr : readable) (hf : fits) :
    Reads s (.ok s') readable fits := by
  refine ⟨⟨fun he => (by cases he), fun hn => (hn hf).elim⟩, fun _ => ⟨fun _ => hr, fun _ => ⟨s', rfl⟩⟩, ?_, ?_⟩
  · rintro _ ⟨⟩
    exact h
  · rintro _ ⟨⟩
    exact hgrows

/-- What is read from a later state is read. -/
theorem Reads.later (h : Reads s' r readable fits) (hgrows : Grows s s') : Reads s r readable fits :=
  ⟨h.fault_iff, h.ok_iff, h.bounded, fun s'' he => hgrows.trans (h.grows s'' he)⟩

/-- One run behind another. -/
theorem Reads.andThen {next : UmState → Except UmStop UmState} :
    Reads s r readable fits →
    (∀ s', r = .ok s' → Bounded s' → Grows s s' → Reads s' (next s') readable' fits') →
    Reads s (match r with
      | .error stop => .error stop
      | .ok s' => next s') (readable ∧ readable') (fits ∧ (readable → fits')) := by
  intro h hnext
  cases r with
  | error stop =>
    by_cases hfits : fits
    · have horderly : Orderly stop := by
        intro he
        subst he
        exact h.fault_iff.mp rfl hfits
      have hnot : ¬readable := by
        intro hr
        obtain ⟨s', hs'⟩ := (h.ok_iff hfits).mpr hr
        cases hs'
      exact .stop horderly (fun hr => hnot hr.1) ⟨hfits, fun hr => (hnot hr).elim⟩
    · have hstop := h.fault_iff.mpr hfits
      cases hstop
      exact .fault fun hf => hfits hf.1
  | ok s' =>
    have hfits : fits := by
      by_contra hn
      have hfault := h.fault_iff.mpr hn
      cases hfault
    have hr : readable := (h.ok_iff hfits).mp ⟨s', rfl⟩
    have hbehind := (hnext s' rfl (h.bounded s' rfl) (h.grows s' rfl)).later (h.grows s' rfl)
    refine ⟨?_, ?_, hbehind.bounded, hbehind.grows⟩
    · rw [hbehind.fault_iff]
      exact ⟨fun hn hf => hn (hf.2 hr), fun hn hf => hn ⟨hfits, fun _ => hf⟩⟩
    · intro hf
      rw [hbehind.ok_iff (hf.2 hr)]
      exact ⟨fun hr' => ⟨hr, hr'⟩, And.right⟩

/-! ### The files that fit -/

/-- What the reader of a file points to: nothing, a unit mask that an include line has freed, or one of the list with
so many entries. -/
inductive Owner
  | none
  | freed
  | um (num : Nat)

/-- The lines behind the present one are reached, and none of them is rejected. -/
def LinesReadable (readable : Text → Prop) : Owner → List Text → Prop
  | _, [] => True
  | owner, line :: lines =>
    if emptyLine line || commentLine line then LinesReadable readable owner lines
    else if line.head? ≠ some '\t' then
      match parseUm line with
      | .error _ => False
      | .ok (.includes cpu) => readable cpu ∧ LinesReadable readable .freed lines
      | .ok (.um _) => LinesReadable readable (.um 0) lines
    else
      match owner with
      | .none => False
      | .freed => False
      | .um num => EntryReadable line ∧ LinesReadable readable (.um (num + 1)) lines

/-- Up to the line that is rejected: no unit mask line is followed by more entry lines than a table has room for, and no
entry line follows an include line before the next unit mask line. -/
def LinesFit (readable fits : Text → Prop) : Owner → List Text → Prop
  | _, [] => True
  | owner, line :: lines =>
    if emptyLine line || commentLine line then LinesFit readable fits owner lines
    else if line.head? ≠ some '\t' then
      match parseUm line with
      | .error _ => True
      | .ok (.includes cpu) => fits cpu ∧ (readable cpu → LinesFit readable fits .freed lines)
      | .ok (.um _) => LinesFit readable fits (.um 0) lines
    else
      match owner with
      | .none => True
      | .freed => ∀ value, entryValue line ≠ .ok value
      | .um num =>
        (∀ value, entryValue line = .ok value → num < maxUnitMask) ∧
          (EntryReadable line → LinesFit readable fits (.um (num + 1)) lines)

/-- The unit mask file of a processor is there and no line of it, or of a file it includes, is rejected. -/
def Readable (files : Text → Option (List Text)) : Nat → Text → Prop
  | 0, _ => False
  | depth + 1, cpu => ∃ lines, files cpu = some lines ∧ LinesReadable (Readable files depth) .none lines

/-- The lines of the unit mask file of a processor fit, and those of the files it includes. -/
def Fits (files : Text → Option (List Text)) : Nat → Text → Prop
  | 0, _ => True
  | depth + 1, cpu => ∀ lines, files cpu = some lines → LinesFit (Readable files depth) (Fits files depth) .none lines

/-- The pointer of the reader, and what it points to. -/
def Owner.At (s : UmState) : Owner → Option Nat → Prop
  | .none, pointer => pointer = Option.none
  | .freed, pointer => ∃ addr, pointer = some addr ∧ addr ∉ s.umList ∧ addr < s.next
  | .um num, pointer => ∃ addr, pointer = some addr ∧ addr ∈ s.umList ∧ (s.ums addr).num = num

theorem entryValue_orderly {line : Text} {stop : UmStop} (h : entryValue line = .error stop) : Orderly stop :=
  parseHex_orderly _ stop h

theorem entryReadable_value {line : Text} {value : UInt32} (hvalue : entryValue line = .ok value) :
    EntryReadable line ↔ ∃ entry, entryRest line value = .ok entry := by
  constructor
  · rintro ⟨value', entry, hvalue', hentry⟩
    rw [hvalue] at hvalue'
    cases hvalue'
    exact ⟨entry, hentry⟩
  · rintro ⟨entry, hentry⟩
    exact ⟨value, entry, hvalue, hentry⟩

theorem not_entryReadable {line : Text} {stop : UmStop} (h : entryValue line = .error stop) : ¬EntryReadable line := by
  rintro ⟨value, entry, hvalue, -⟩
  rw [h] at hvalue
  cases hvalue

/-- An entry line behind a unit mask line. -/
theorem readEntry_reads {line : Text} (h : Bounded s) (hin : addr ∈ s.umList) :
    Reads s (s.readEntry addr line) (EntryReadable line)
      (∀ value, entryValue line = .ok value → (s.ums addr).num < maxUnitMask) := by
  by_cases hlt : (s.ums addr).num < maxUnitMask
  · rw [readEntry_inside h hin hlt]
    cases hvalue : entryValue line with
    | error stop => exact .stop (entryValue_orderly hvalue) (not_entryReadable hvalue) fun _ _ => hlt
    | ok value =>
      rw [Results.ok_then]
      have hreadable := entryReadable_value hvalue
      cases hentry : entryRest line value with
      | error stop =>
        refine .stop (entryRest_orderly _ _ _ hentry) (fun hr => ?_) fun _ _ => hlt
        obtain ⟨entry, hok⟩ := hreadable.mp hr
        rw [hentry] at hok
        cases hok
      | ok entry =>
        have hnum := h.num_eq addr hin
        refine .done (h.set ?_ ?_) (grows_set ..) (hreadable.mpr ⟨entry, hentry⟩) fun _ _ => hlt
        · simp [hnum]
        · exact hlt
  · rw [readEntry_outside fun hboth => hlt hboth.2]
    cases hvalue : entryValue line with
    | error stop =>
      refine .stop (entryValue_orderly hvalue) (not_entryReadable hvalue) fun value hok => ?_
      cases hok
    | ok value => exact .fault fun hfits => hlt (hfits value rfl)

theorem readEntry_num {line : Text} (h : Bounded s) (hin : addr ∈ s.umList) (hok : s.readEntry addr line = .ok s') :
    addr ∈ s'.umList ∧ (s'.ums addr).num = (s.ums addr).num + 1 := by
  have hlt : (s.ums addr).num < maxUnitMask := by
    by_contra hge
    rw [readEntry_outside fun hboth => hge hboth.2] at hok
    obtain ⟨value, -, hfault⟩ := Results.bind_ok hok
    cases hfault
  rw [readEntry_inside h hin hlt] at hok
  obtain ⟨value, -, hrest⟩ := Results.bind_ok hok
  obtain ⟨entry, -, hset⟩ := Results.bind_ok hrest
  cases hset
  exact ⟨hin, by rw [set_self]⟩

/-- An entry line behind an include line. -/
theorem readEntry_freed (line : Text) (hout : addr ∉ s.umList) :
    Reads s (s.readEntry addr line) False (∀ value, entryValue line ≠ .ok value) := by
  rw [readEntry_outside fun hboth => hout hboth.1]
  cases hvalue : entryValue line with
  | error stop =>
    refine .stop (entryValue_orderly hvalue) id fun value hok => ?_
    cases hok
  | ok value => exact .fault fun hfits => hfits value rfl

variable {included : Text → UmState → Except UmStop UmState} {canRead fitsIn : Text → Prop}

theorem bounded_setLine (h : Bounded s) (line : UmLine) : Bounded (s.newUnitMask.setLine s.next line) := by
  apply h.newUnitMask.set
  · rw [newUnitMask_self]
    rfl
  · rw [newUnitMask_self]
    exact Nat.zero_le _

theorem setLine_num (s : UmState) (line : UmLine) : ((s.newUnitMask.setLine s.next line).ums s.next).num = 0 := by
  rw [setLine, set_self, newUnitMask_self]
  rfl

/-- A file, when the files it includes are read. -/
theorem readLines_reads
    (hincluded : ∀ cpu s, Bounded s → Reads s (included cpu s) (canRead cpu) (fitsIn cpu)) (lines : List Text) :
    ∀ (owner : Owner) (um : Option Nat) (s : UmState), Bounded s → owner.At s um →
      Reads s (readLines included um lines s) (LinesReadable canRead owner lines)
        (LinesFit canRead fitsIn owner lines) := by
  induction lines with
  | nil =>
    intro owner um s h _
    exact .done h (.refl s) trivial trivial
  | cons line lines ih =>
    intro owner um s h hat
    rw [readLines.eq_def, LinesReadable.eq_def, LinesFit.eq_def]
    dsimp only
    by_cases hskip : (emptyLine line || commentLine line) = true
    · rw [if_pos hskip, if_pos hskip, if_pos hskip]
      exact ih owner um s h hat
    rw [if_neg hskip, if_neg hskip, if_neg hskip]
    by_cases hhead : line.head? ≠ some '\t'
    · rw [if_pos hhead, if_pos hhead, if_pos hhead]
      cases hparsed : parseUm line with
      | error stop => exact .stop (parseUmLoop_orderly _ _ _ _ _ hparsed) id trivial
      | ok parsed =>
        cases parsed with
        | includes cpu =>
          have hfile := hincluded cpu _ h.freed
          refine Reads.later (hfile.andThen fun s' hok hbounded hgrows => ?_) (grows_freed s)
          have hout : s.next ∉ (s.newUnitMask.freeUnitMask s.next).umList := by
            rw [h.fresh_freed]
            exact fun hin => Nat.lt_irrefl _ (h.allocated _ hin)
          have hnext : s.next < (s.newUnitMask.freeUnitMask s.next).next := Nat.lt_succ_self _
          exact ih .freed _ s' hbounded ⟨s.next, rfl, hgrows.not_mem hnext hout, hnext.trans_le hgrows.next_le⟩
        | um fields =>
          refine Reads.later (ih (.um 0) _ _ (bounded_setLine h fields) ?_) ((grows_newUnitMask s).trans (grows_set ..))
          exact ⟨s.next, rfl, mem_newUnitMask s, setLine_num s fields⟩
    · rw [if_neg hhead, if_neg hhead, if_neg hhead]
      cases owner with
      | none =>
        obtain rfl : um = Option.none := hat
        exact .stop (orderly_exit _) id trivial
      | freed =>
        obtain ⟨addr, rfl, hout, -⟩ := hat
        have hentry := readEntry_freed line hout
        cases hread : s.readEntry addr line with
        | error stop =>
          rw [hread] at hentry
          dsimp only
          rw [hread]
          exact hentry
        | ok s' =>
          rw [hread] at hentry
          have hfits : ∀ value, entryValue line ≠ .ok value := by
            by_contra hn
            have hfault := hentry.fault_iff.mpr hn
            cases hfault
          exact ((hentry.ok_iff hfits).mp ⟨s', rfl⟩).elim
      | um num =>
        obtain ⟨addr, rfl, hin, rfl⟩ := hat
        refine (readEntry_reads h hin).andThen fun s' hok hbounded _ => ?_
        obtain ⟨hin', hnum⟩ := readEntry_num h hin hok
        exact ih (.um _) _ s' hbounded ⟨addr, rfl, hin', hnum⟩

theorem readUnitMasks_reads (files : Text → Option (List Text)) (depth : Nat) :
    ∀ cpu s, Bounded s → Reads s (readUnitMasks files depth cpu s) (Readable files depth cpu) (Fits files depth cpu) := by
  induction depth with
  | zero =>
    intro cpu s _
    exact .stop (orderly_exit _) id trivial
  | succ depth ih =>
    intro cpu s h
    rw [readUnitMasks, Readable, Fits]
    cases hfile : files cpu with
    | none =>
      refine .stop (orderly_exit _) ?_ fun lines hlines => ?_
      · rintro ⟨lines, hlines, -⟩
        cases hlines
      · cases hlines
    | some lines => simpa using readLines_reads ih lines .none none s h rfl

/-! ### Merging -/

/-- A run that stays inside the tables and keeps them in order. -/
def Keeps (r : Except UmStop UmState) : Prop := ErrorsIn Orderly r ∧ ∀ s', r = .ok s' → Bounded s'

theorem Bounded.used (h : Bounded s) (hin : addr ∈ s.umList) : Bounded (s.set addr { s.ums addr with used := true }) :=
  h.set (h.num_eq addr hin) (h.num_le addr hin)

theorem tryFindUm_spec {value : Text} (h : Bounded s) (hfound : s.tryFindUm value = some (addr, s')) :
    addr ∈ s.umList ∧ s' = s.set addr { s.ums addr with used := true } ∧ Bounded s' := by
  obtain ⟨a, ha, hpair⟩ := Option.map_eq_some_iff.mp hfound
  cases hpair
  have hin : addr ∈ s.umList := List.mem_of_find?_eq_some ha
  exact ⟨hin, rfl, h.used hin⟩

theorem findUm_orderly (s : UmState) (value : Text) : ErrorsIn Orderly (s.findUm value) := by
  unfold findUm
  split
  · exact Results.errorsIn_ok _
  · exact errorsIn_exit _

theorem findUm_spec {value : Text} (h : Bounded s) (hfound : s.findUm value = .ok (addr, s')) :
    addr ∈ s.umList ∧ s' = s.set addr { s.ums addr with used := true } ∧ Bounded s' := by
  unfold findUm at hfound
  split at hfound
  · next found hsome =>
    cases hfound
    exact tryFindUm_spec h hsome
  · cases hfound

/-- The copied entries stand behind the others. -/
theorem copyEntries_spec (new : Nat) (entries : List DescribedUm) :
    ∀ (num : Nat) (s : UmState), new ∈ s.umList → (s.ums new).um.length = num → num + entries.length ≤ maxUnitMask →
      copyEntries new entries num s =
        .ok (num + entries.length, s.set new { s.ums new with um := (s.ums new).um ++ entries }) := by
  induction entries with
  | nil =>
    intro num s _ _ _
    have hsame : s.set new (s.ums new) = s := by
      unfold set
      congr 1
      funext a
      split_ifs with ha
      · rw [ha]
      · rfl
    simp [copyEntries, hsame]
  | cons entry entries ih =>
    intro num s hin hlen hroom
    rw [List.length_cons] at hroom
    rw [copyEntries, storeEntry_inside entry hin (by omega), stored_at_end entry hlen]
    dsimp only
    rw [ih _ _ (by simpa using hin) (by simp [hlen]) (by omega)]
    simp [Nat.add_assoc, Nat.add_comm 1]

/-- The new unit mask is in the list, and the index of the next entry is its number. -/
structure Merging (s : UmState) (new num : Nat) : Prop where
  bounded : Bounded s
  mem : new ∈ s.umList
  num_eq : (s.ums new).num = num

variable {new num num' : Nat} {type type' : UnitMaskType}

theorem Merging.marked (h : Merging s new num) (hin : addr ∈ s.umList) :
    Merging (s.set addr { s.ums addr with used := true }) new num := by
  refine ⟨h.bounded.used hin, h.mem, ?_⟩
  by_cases heq : new = addr
  · subst heq
    rw [set_self]
    exact h.num_eq
  · rw [set_other _ heq]
    exact h.num_eq

/-- Room is checked before the entries are copied. -/
theorem Merging.copied (mask : UInt32) {entries : List DescribedUm} {count : Nat} (h : Merging s new num)
    (hcount : count = num + entries.length) (hroom : count ≤ maxUnitMask) :
    ∃ s', copyEntries new entries num (s.set new { s.ums new with defaultMask := mask, num := count }) = .ok (count, s') ∧
      Merging s' new count := by
  have hlen : (s.ums new).um.length = num := by
    rw [← h.bounded.num_eq new h.mem]
    exact h.num_eq
  have hcopy := copyEntries_spec new entries num
    (s.set new { s.ums new with defaultMask := mask, num := count })
    (by simpa using h.mem) (by simpa using hlen) (by omega)
  rw [← hcount, set_self, set_set] at hcopy
  refine ⟨_, hcopy, h.bounded.set ?_ hroom, h.mem, by rw [set_self]⟩
  simp [hlen, hcount]

/-- One name of a merged unit mask. -/
theorem mergeOne_spec (part : Text) (known : Option UnitMaskType) (h : Merging s new num) :
    ErrorsIn Orderly (s.mergeOne new part known num) ∧
      ∀ type' num' s', s.mergeOne new part known num = .ok (type', num', s') → Merging s' new num' := by
  have hexit : ∀ context, ErrorsIn Orderly (.error (.exit context) : Except UmStop (UnitMaskType × Nat × UmState)) ∧
      ∀ type' num' s', (.error (.exit context) : Except UmStop (UnitMaskType × Nat × UmState)) = .ok (type', num', s') →
        Merging s' new num' := by
    intro context
    refine ⟨errorsIn_exit context, fun type' num' s' he => ?_⟩
    cases he
  cases hfound : s.findUm part with
  | error stop =>
    have hstop : s.mergeOne new part known num = .error stop := by
      unfold mergeOne
      rw [hfound]
      rfl
    rw [hstop]
    refine ⟨fun e he => ?_, fun type' num' s' he => ?_⟩
    · cases he
      exact findUm_orderly s part _ hfound
    · cases he
  | ok found =>
    obtain ⟨addr, s₁⟩ := found
    obtain ⟨hin, hs₁, hbounded⟩ := findUm_spec h.bounded hfound
    have hmarked : Merging s₁ new num := hs₁ ▸ h.marked hin
    have hin₁ : addr ∈ s₁.umList := by
      rw [hs₁]
      exact hin
    unfold mergeOne
    rw [hfound, Results.ok_then]
    dsimp only
    split
    · exact hexit _
    split
    · exact hexit _
    rw [set_self]
    split
    · exact hexit _
    · next hroom =>
      have hentries : ((s₁.ums addr).um.take (s₁.ums addr).num).length = (s₁.ums addr).num := by
        rw [List.length_take, ← hmarked.bounded.num_eq addr hin₁, Nat.min_self]
      have hcount : (s₁.ums new).num + (s₁.ums addr).num =
          num + ((s₁.ums addr).um.take (s₁.ums addr).num).length := by
        rw [hentries, hmarked.num_eq]
      obtain ⟨s', hcopy, hmerging⟩ := Merging.copied
        ((s₁.ums new).defaultMask ||| (s₁.ums addr).defaultMask) hmarked hcount (Nat.le_of_not_lt hroom)
      rw [hcopy, Results.ok_then]
      refine ⟨Results.errorsIn_ok _, fun type' num' s'' he => ?_⟩
      cases he
      exact hmerging

theorem mergeLoop_spec (parts : List Text) :
    ∀ (known : Option UnitMaskType) {num : Nat} {s : UmState}, Merging s new num →
      ErrorsIn Orderly (mergeLoop new parts known num s) ∧
        ∀ type s', mergeLoop new parts known num s = .ok (type, s') → ∃ num', Merging s' new num' := by
  induction parts with
  | nil =>
    intro known num s h
    refine ⟨Results.errorsIn_ok _, fun type s' he => ?_⟩
    cases he
    exact ⟨num, h⟩
  | cons part parts ih =>
    intro known num s h
    obtain ⟨horderly, hnext⟩ := mergeOne_spec part known h
    rw [mergeLoop]
    cases hone : s.mergeOne new part known num with
    | error stop =>
      refine ⟨fun e he => ?_, fun type s' he => ?_⟩
      · cases he
        exact horderly _ hone
      · cases he
    | ok found =>
      obtain ⟨type, num', s'⟩ := found
      exact ih _ (hnext _ _ _ hone)

theorem mergeUm_keeps {value : Text} (h : Bounded s) : Keeps ((s.mergeUm value).map Prod.snd) := by
  unfold mergeUm
  cases hfound : s.tryFindUm value with
  | some found =>
    refine ⟨Results.errorsIn_ok _, fun s' he => ?_⟩
    cases he
    exact (tryFindUm_spec h hfound).2.2
  | none =>
    have hzero : Bounded (s.newUnitMask.set s.next
        { s.newUnitMask.ums s.next with name := some value, used := true }) := by
      apply h.newUnitMask.set
      · rw [newUnitMask_self]
        rfl
      · rw [newUnitMask_self]
        exact Nat.zero_le _
    have hmerging : Merging (s.newUnitMask.set s.next
        { s.newUnitMask.ums s.next with name := some value, used := true }) s.next 0 := by
      refine ⟨hzero, mem_newUnitMask s, ?_⟩
      rw [set_self, newUnitMask_self]
      rfl
    obtain ⟨horderly, hdone⟩ := mergeLoop_spec (splitCommas value) none hmerging
    dsimp only
    cases hloop : mergeLoop s.next (splitCommas value) none 0 (s.newUnitMask.set s.next
        { s.newUnitMask.ums s.next with name := some value, used := true }) with
    | error stop =>
      refine ⟨fun e he => ?_, fun s' he => ?_⟩
      · cases he
        exact horderly _ hloop
      · cases he
    | ok found =>
      obtain ⟨type, s'⟩ := found
      obtain ⟨num', hend⟩ := hdone type s' hloop
      cases type with
      | none =>
        refine ⟨errorsIn_exit _, fun s'' he => ?_⟩
        cases he
      | some type =>
        refine ⟨Results.errorsIn_ok _, fun s'' he => ?_⟩
        cases he
        exact hend.bounded.set (hend.bounded.num_eq _ hend.mem) (hend.bounded.num_le _ hend.mem)

theorem umTag_keeps (value : Text) (h : Bounded s) : Keeps (s.umTag value) := by
  unfold umTag
  split_ifs with hcomma
  · exact mergeUm_keeps h
  · refine ⟨(findUm_orderly s value).map, fun s' he => ?_⟩
    obtain ⟨⟨addr, s''⟩, hfound, hsnd⟩ := Results.map_ok he
    cases hsnd
    exact (findUm_spec h hfound).2.2

theorem readUmTags_keeps (values : List Text) : ∀ {s : UmState}, Bounded s → Keeps (readUmTags values s) := by
  induction values with
  | nil =>
    intro s h
    refine ⟨Results.errorsIn_ok s, fun s' he => ?_⟩
    cases he
    exact h
  | cons value values ih =>
    intro s h
    obtain ⟨horderly, hbounded⟩ := umTag_keeps value h
    rw [readUmTags]
    cases htag : s.umTag value with
    | error stop =>
      refine ⟨fun e he => ?_, fun s' he => ?_⟩
      · cases he
        exact horderly _ htag
      · cases he
    | ok s' => exact ih (hbounded s' htag)

/-! ### The run -/

/-- Nothing is written outside the table of a unit mask of the list, and where the files are accepted every number is
the number of the entries stored, for which there is room. -/
def TablesSafe : Except UmStop UmState → Prop
  | .error stop => stop ≠ .fault
  | .ok s => ∀ addr ∈ s.umList, (s.ums addr).num = (s.ums addr).um.length ∧ (s.ums addr).num ≤ maxUnitMask

theorem Keeps.tablesSafe (h : Keeps r) : TablesSafe r := by
  cases r with
  | error stop => exact h.1 stop rfl
  | ok s => exact fun addr hin => ⟨(h.2 s rfl).num_eq addr hin, (h.2 s rfl).num_le addr hin⟩

/-- The tables stay within their bounds exactly when the unit mask files fit, whatever the events files merge. -/
theorem loadEventsName_iff (files : Text → Option (List Text)) (depth : Nat) (cpu : Text) (values : List Text) :
    TablesSafe (loadEventsName files depth cpu values) ↔ Fits files depth cpu := by
  have hreads := readUnitMasks_reads files depth cpu init bounded_init
  unfold loadEventsName
  cases hread : readUnitMasks files depth cpu init with
  | error stop =>
    constructor
    · intro hsafe
      by_contra hn
      have hfault := hreads.fault_iff.mpr hn
      rw [hread] at hfault
      cases hfault
      exact hsafe rfl
    · rintro hfits rfl
      exact hreads.fault_iff.mp hread hfits
  | ok s =>
    have hkeeps := readUmTags_keeps values (hreads.bounded s hread)
    refine ⟨fun _ => ?_, fun _ => hkeeps.tablesSafe⟩
    by_contra hn
    have hfault := hreads.fault_iff.mpr hn
    rw [hread] at hfault
    cases hfault

instance : DecidablePred fun r : Except UmStop UmState => r = .error .fault := fun r =>
  match r with
  | .error stop => decidable_of_iff (stop = .fault) (by simp)
  | .ok _ => .isFalse (by simp)

theorem not_tablesSafe_of_fault (h : r = .error .fault) : ¬TablesSafe r := by
  subst h
  exact fun hsafe => hsafe rfl

/-- A unit mask with one entry too many, and an entry behind an include line. -/
theorem loadEventsName_outside :
    ¬TablesSafe (loadEventsName
        (fun _ => some ("name:a type:bitmask default:0x0".toList :: List.replicate 65 "\t0x1 b".toList)) 1 "c".toList []) ∧
      ¬TablesSafe (loadEventsName
        (fun cpu => if cpu = "c".toList then some ["include:d".toList, "\t0x1 b".toList] else some []) 2 "c".toList []) :=
  ⟨not_tablesSafe_of_fault (by decide +kernel), not_tablesSafe_of_fault (by decide +kernel)⟩

end UmState

end Oprofile.Libop.UnitMaskFiles
