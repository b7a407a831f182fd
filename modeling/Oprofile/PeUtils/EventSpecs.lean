import Oprofile.Library.Results
import Oprofile.Libop.ParseEvent
import Oprofile.PeUtils.EventsList

/-! Whether the specification that was checked is the one that is used. -/
namespace Oprofile.PeUtils

open CNumbers Words Results Libop
open SampleNames (Text)

/-- The fields of a specification, empty ones too. A colon in front of the name is skipped. -/
def specFields (spec : Text) : List Text :=
  match spec.splitOn ':' with
  | [] :: fields => fields
  | fields => fields

/-- A field that is there and not empty. -/
def present (field : Option Text) : Option Text := field.filter (· ≠ [])

/-- How many fields are required. -/
def required (profiling : Bool) : Nat := if profiling then 2 else 1

/-- The fields behind the required ones. -/
def optionFields (profiling : Bool) (spec : Text) : List Text := (specFields spec).drop (required profiling)

/-- Those that are not empty. -/
def optionWords (profiling : Bool) (spec : Text) : List Text := (optionFields profiling spec).filter (· ≠ [])

/-- The fields that are checked as numbers. -/
def numericFields (profiling : Bool) (spec : Text) : List Text :=
  (if profiling then (present (specFields spec)[1]?).toList else []) ++
    ((present (optionFields profiling spec)[0]?).filter fun part => part.head?.any isDecimal).toList ++
    (present (optionFields profiling spec)[1]?).toList ++ (present (optionFields profiling spec)[2]?).toList

/-- The event that is used has the values of the one that was checked. -/
structure Agrees (parsed : ParsedEvent) (event : OperfEvent) : Prop where
  name : event.name = parsed.name
  count : event.count = parsed.count.toInt64.toUInt64
  unitMask : (event.evtUm.toNat : Int) = parsed.unitMask.toInt
  unitMaskName : event.umName = parsed.unitMaskName.getD []
  kernel : event.noKernel = true ↔ parsed.kernel = 0
  user : event.noUser = true ↔ parsed.user = 0

/-- The first optional field, taken as a unit mask, against the first that is not empty. -/
def MaskAlike (part token : Option Text) : Prop :=
  match part with
  | some part => part.head?.any isDecimal = true ∨ (¬IsNumber part ∧ part.length < opMaxUmNameLen)
  | none => ∀ t, token = some t → IsNumber t ∧ (strtoul t).1 = 0

/-- A ring field against the non-empty field in its place: both switch the ring off or neither does. -/
def RingAlike (part token : Option Text) : Prop :=
  (∃ p, part = some p ∧ Int32.ofNat (strtoul p).1 = 0) ↔ ∃ t, token = some t ∧ atoi t = 0

/-- The specification says the same field by field and word by word. -/
structure ReadAlike (profiling : Bool) (junk spec : Text) : Prop where
  name : ∀ name, (specFields spec)[0]? = some name → name.length < opMaxEvtNameLen - 1 ∨ junk = []
  count : profiling = true → ∀ count, (specFields spec)[1]? = some count →
    Plain count ∨ atoi count = Int32.ofNat (strtoul count).1
  unitMask : MaskAlike (present (optionFields profiling spec)[0]?) (optionWords profiling spec)[0]?
  kernel : RingAlike (present (optionFields profiling spec)[1]?) (optionWords profiling spec)[1]?
  user : RingAlike (present (optionFields profiling spec)[2]?) (optionWords profiling spec)[2]?

variable {profiling : Bool} {junk spec part name : Text} {parsed : ParsedEvent} {fields : List Text}

/-! What `next_part` cuts off. -/

theorem present_eq_some {field : Option Text} : present field = some part ↔ field = some part ∧ part ≠ [] := by
  simp [present, Option.filter_eq_some_iff]

theorem takeWhile_field (fields : List Text) (h : ':' ∉ part) :
    (part ++ lead ':' fields).takeWhile (· ≠ ':') = part ∧
      (part ++ lead ':' fields).dropWhile (· ≠ ':') = lead ':' fields := by
  have hall : ∀ c ∈ part, (decide (c ≠ ':')) = true := by
    intro c hc
    rw [decide_eq_true_eq]
    rintro rfl
    exact h hc
  rw [List.takeWhile_append_of_pos hall, List.dropWhile_append_of_pos hall]
  cases fields with
  | nil => exact ⟨List.append_nil part, rfl⟩
  | cons f fs => simp

/-- Behind the first part, a part is the field up to the next colon. -/
theorem nextPart_lead (h : ∀ f ∈ fields, ':' ∉ f) :
    nextPart (lead ':' fields) = (present fields[0]?, lead ':' (fields.drop 1)) := by
  cases fields with
  | nil => rfl
  | cons f fs =>
    obtain ⟨htake, hdrop⟩ := takeWhile_field fs (h f List.mem_cons_self)
    simp only [lead_cons, nextPart, if_true, htake, hdrop]
    by_cases hf : f = []
    · subst hf
      rfl
    · rw [if_neg hf]
      exact Prod.ext (present_eq_some.mpr ⟨rfl, hf⟩).symm rfl

theorem specFields_noColon (spec : Text) : ∀ f ∈ specFields spec, ':' ∉ f := by
  obtain ⟨w, ws, hsplit, -, hno⟩ := eq_pieces ':' spec
  rw [specFields, hsplit]
  cases w with
  | nil => exact fun f hf => hno f (List.mem_cons_of_mem _ hf)
  | cons c w => exact hno

/-- The first part. -/
theorem nextPart_spec (spec : Text) :
    nextPart spec = (present (specFields spec)[0]?, lead ':' ((specFields spec).drop 1)) := by
  obtain ⟨w, ws, hsplit, hs, hno⟩ := eq_pieces ':' spec
  cases w with
  | nil =>
    have hfields : specFields spec = ws := by rw [specFields, hsplit]
    rw [hfields, hs, List.nil_append]
    exact nextPart_lead fun f hf => hno f (List.mem_cons_of_mem _ hf)
  | cons c w =>
    have hfields : specFields spec = (c :: w) :: ws := by rw [specFields, hsplit]
    have hfirst := hno (c :: w) List.mem_cons_self
    have hc : c ≠ ':' := by
      rintro rfl
      exact hfirst List.mem_cons_self
    obtain ⟨htake, hdrop⟩ := takeWhile_field ws hfirst
    rw [List.cons_append] at htake hdrop
    rw [hfields, hs, List.cons_append]
    simp only [nextPart, if_neg hc, htake, hdrop]
    rfl

theorem nextPart_field (spec : Text) (n : Nat) :
    nextPart (lead ':' ((specFields spec).drop n)) =
      (present (specFields spec)[n]?, lead ':' ((specFields spec).drop (n + 1))) := by
  have hno : ∀ f ∈ (specFields spec).drop n, ':' ∉ f := fun f hf => specFields_noColon spec f (List.mem_of_mem_drop hf)
  rw [nextPart_lead hno, List.getElem?_drop, List.drop_drop]
  rfl

/-! What an accepted specification looks like. -/

structure Accepted (profiling : Bool) (spec : Text) (parsed : ParsedEvent) : Prop where
  name : present (specFields spec)[0]? = some parsed.name
  count : if profiling then ∃ count, present (specFields spec)[1]? = some count ∧ parseUlong count = .ok parsed.count
    else parsed.count = 0
  unitMask : parseUnitMask (present (optionFields profiling spec)[0]?) =
    .ok (parsed.unitMask, parsed.unitMaskName, parsed.unitMaskValid)
  kernel : parseOptional (present (optionFields profiling spec)[1]?) 1 = .ok parsed.kernel
  user : parseOptional (present (optionFields profiling spec)[2]?) 1 = .ok parsed.user

theorem parseCount_ok {count : Int32} {cp : Text}
    (h : parseCount spec profiling (lead ':' ((specFields spec).drop 1)) = .ok (count, cp)) :
    (if profiling then ∃ part, present (specFields spec)[1]? = some part ∧ parseUlong part = .ok count else count = 0) ∧
      cp = lead ':' ((specFields spec).drop (required profiling)) := by
  cases profiling with
  | false =>
    cases h
    exact ⟨rfl, rfl⟩
  | true =>
    simp only [parseCount, if_true, nextPart_field] at h
    cases hpart : present (specFields spec)[1]? with
    | none =>
      rw [hpart] at h
      cases h
    | some part =>
      rw [hpart] at h
      dsimp only at h
      cases hparse : parseUlong part with
      | error message =>
        rw [hparse] at h
        cases h
      | ok value =>
        rw [hparse] at h
        cases h
        exact ⟨⟨part, rfl, hparse⟩, rfl⟩

theorem parseEvent_accepted (h : parseEvent profiling spec = .ok parsed) : Accepted profiling spec parsed := by
  rw [parseEvent, nextPart_spec] at h
  cases hname : present (specFields spec)[0]? with
  | none =>
    rw [hname] at h
    cases h
  | some name =>
    rw [hname] at h
    obtain ⟨⟨count, cp⟩, hfirst, h⟩ := bind_ok h
    obtain ⟨hcount, rfl⟩ := parseCount_ok hfirst
    dsimp only at h
    rw [nextPart_field] at h
    obtain ⟨⟨mask, maskName, valid⟩, hmask, h⟩ := bind_ok h
    dsimp only at h
    rw [nextPart_field] at h
    obtain ⟨kernel, hkernel, h⟩ := bind_ok h
    dsimp only at h
    rw [nextPart_field] at h
    obtain ⟨user, huser, h⟩ := bind_ok h
    cases h
    have hfield : ∀ i, (optionFields profiling spec)[i]? = (specFields spec)[required profiling + i]? :=
      fun i => List.getElem?_drop
    refine ⟨hname, hcount, ?_, ?_, ?_⟩
    · rw [hfield]
      exact hmask
    · rw [hfield]
      exact hkernel
    · rw [hfield]
      exact huser

theorem parseEvents_one {maxEvents : Nat} (h : parseEvents maxEvents [spec] profiling = .ok [parsed]) :
    parseEvent profiling spec = .ok parsed := by
  obtain ⟨events, hloop, h⟩ := bind_ok h
  rw [parseLoop] at hloop
  split_ifs at hloop
  obtain ⟨first, hfirst, hloop⟩ := bind_ok hloop
  obtain ⟨rest, hrest, hloop⟩ := bind_ok hloop
  cases hrest
  cases hloop
  split_ifs at h
  cases h
  exact hfirst

end Oprofile.PeUtils
