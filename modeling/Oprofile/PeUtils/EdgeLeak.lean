import Mathlib.Data.List.Forall2
import Oprofile.PeUtils.EventCodes

/-! When the edge detection of one event stays out of the codes of the others. -/
namespace Oprofile.PeUtils.EventCodes

open Occurrences
open SampleNames (Text)

variable {encode : Text → Option UInt64} {power7 : Bool} {events events' result : List OperfEvent}

/-- The code of an event that has no code yet: libpfm's for its base name, with the LSB for its own suffix. -/
def ownCode (encode : Text → Option UInt64) (name : Text) : Option UInt64 :=
  (encode (evtName name)).map (withEdge (edgeCount <:+: name))

/-- The code an event should get. -/
def expectedCode (encode : Text → Option UInt64) (power7 : Bool) (name : Text) : Option UInt64 :=
  match runLatchCode power7 name with
  | some code => some (withEdge (edgeCount <:+: name) code)
  | none => ownCode encode name

/-- Each event of `result` is an event of `events` with the code it should get. -/
def Coded (encode : Text → Option UInt64) (power7 : Bool) (events result : List OperfEvent) : Prop :=
  List.Forall₂ (fun event r => r.name = event.name ∧ some r.evtCode = expectedCode encode power7 event.name)
    events result

/-- What keeps the codes apart, in every order of the events. -/
structure NoLeak (encode : Text → Option UInt64) (power7 : Bool) (events : List OperfEvent) : Prop where
  runLatch : ∀ event ∈ events, (runLatchCode power7 event.name).isSome → ¬ edgeCount <:+: event.name
  others : ∀ event ∈ events, runLatchCode power7 event.name = none →
    ∀ code, encode (evtName event.name) = some code → code ||| 1 = code ∨
      (edgeCount <:+: event.name → isEdge event.name) ∧
      (edgeCount <:+: event.name ∨ ∀ other ∈ events, runLatchCode power7 other.name = none → ¬ isEdge other.name)

/-- A suffix that is cut off was in the name. -/
theorem infix_of_isEdge {name : Text} (h : isEdge name) : edgeCount <:+: name := by
  have hin : edgeCount <:+: groupName name := (beforeLast_isSome (by decide)).mp h
  unfold groupName at hin
  split at hin
  · exact absurd hin (by decide)
  · cases hb : beforeLast grp name with
    | none =>
      rw [hb] at hin
      exact hin
    | some before =>
      rw [hb] at hin
      exact hin.trans (prefix_of_beforeLast hb).isInfix

theorem evtName_length {name : Text} (h : name.length < opMaxEvtNameLen) :
    (evtName name).length < opMaxEvtNameLen := by
  have hgroup : (groupName name).length < opMaxEvtNameLen := by
    unfold groupName
    split
    · decide
    · cases hb : beforeLast grp name with
      | none => exact h
      | some before => exact (prefix_of_beforeLast hb).length_le.trans_lt h
  unfold evtName
  cases hb : beforeLast edgeCount (groupName name) with
  | none => exact hgroup
  | some before => exact (prefix_of_beforeLast hb).length_le.trans_lt hgroup

/-- `strncmp` compares the whole names, as the second ends within its buffer. -/
theorem eq_of_take_eq {s t : Text} (ht : t.length < opMaxEvtNameLen)
    (h : s.take opMaxEvtNameLen = t.take opMaxEvtNameLen) : s = t := by
  rw [List.take_of_length_le ht.le] at h
  have hlen : s.length ≤ opMaxEvtNameLen := by
    by_contra hlt
    have htake : (s.take opMaxEvtNameLen).length = opMaxEvtNameLen := List.length_take_of_le (by omega)
    rw [h] at htake
    omega
  rwa [List.take_of_length_le hlen] at h

@[simp] theorem withEdge_false (code : UInt64) : withEdge false code = code := rfl

@[simp] theorem withEdge_true (code : UInt64) : withEdge true code = code ||| 1 := rfl

theorem withEdge_of_odd {code : UInt64} (h : code ||| 1 = code) (edge : Bool) : withEdge edge code = code := by
  cases edge with
  | false => rfl
  | true => exact h

/-- An event that gets the right code whether or not an edge event was seen before it; `seen` says whether one can be. -/
structure Apart (encode : Text → Option UInt64) (seen : Prop) (name : Text) : Prop where
  edge : isEdge name → seen
  own : ∀ code, encode (evtName name) = some code → code ||| 1 = code ∨
    (edgeCount <:+: name → isEdge name) ∧ (edgeCount <:+: name ∨ ¬ seen)

variable {seen : Prop}

theorem withEdge_eq {name : Text} {edgeDetect : Bool} {code : UInt64} (h : Apart encode seen name)
    (hedge : edgeDetect → seen) (hcode : encode (evtName name) = some code) :
    withEdge (edgeDetect || isEdge name) code = withEdge (edgeCount <:+: name) code := by
  rcases h.own code hcode with hodd | ⟨hcut, hseen⟩
  · rw [withEdge_of_odd hodd, withEdge_of_odd hodd]
  · congr 1
    by_cases hown : edgeCount <:+: name
    · simp [hcut hown, hown]
    · have hnot : ¬ seen := hseen.resolve_left hown
      have hname : isEdge name = false := by
        by_contra he
        exact hown (infix_of_isEdge (by simpa using he))
      have hdetect : edgeDetect = false := by
        by_contra he
        exact hnot (hedge (by simpa using he))
      simp [hname, hdetect, hown]

theorem seen_of_or {name : Text} {edgeDetect : Bool} (h : Apart encode seen name) (hedge : edgeDetect → seen) :
    edgeDetect || isEdge name → seen := by
  intro hd
  rcases (Bool.or_eq_true _ _).mp hd with hd | hd
  · exact hedge hd
  · exact h.edge hd

/-- An event of the result, and the event it was before it was converted. -/
def Converted (encode : Text → Option UInt64) (event r : OperfEvent) : Prop :=
  r.name = event.name ∧ some r.evtCode = if event.evtCode ≠ nilCode then some event.evtCode else ownCode encode event.name

theorem converted_self {event : OperfEvent} (h : event.evtCode ≠ nilCode) : Converted encode event event :=
  ⟨rfl, (if_pos h).symm⟩

theorem converted_code {event r : OperfEvent} {edgeDetect : Bool} {code : UInt64} (hnil : event.evtCode = nilCode)
    (hname : r.name = event.name) (h : Apart encode seen r.name) (hedge : edgeDetect → seen)
    (hcode : encode (evtName r.name) = some code) (hr : r.evtCode = withEdge (edgeDetect || isEdge r.name) code) :
    Converted encode event r := by
  refine ⟨hname, ?_⟩
  rw [if_neg (not_not.mpr hnil), hr, withEdge_eq h hedge hcode, ← hname, ownCode, hcode]
  rfl

/-! ### The loop over the events -/

/-- Apart from each other, all events get their own codes. -/
theorem opGetEventCodes_converted {edgeDetect : Bool}
    (hapart : ∀ event ∈ events, event.evtCode = nilCode → Apart encode seen event.name) (hedge : edgeDetect → seen)
    (h : opGetEventCodes encode edgeDetect events = .ok result) : List.Forall₂ (Converted encode) events result := by
  induction events generalizing edgeDetect result with
  | nil =>
    cases h
    exact .nil
  | cons event events ih =>
    have hrest : ∀ e ∈ events, e.evtCode = nilCode → Apart encode seen e.name := by
      intro e he
      exact hapart e (List.mem_cons_of_mem _ he)
    rw [opGetEventCodes] at h
    split at h
    · rename_i hcode
      obtain ⟨rest, hr, rfl⟩ := Results.map_ok h
      exact .cons (converted_self hcode) (ih hrest hedge hr)
    · rename_i hnil
      have hnil : event.evtCode = nilCode := not_not.mp hnil
      have he := hapart event List.mem_cons_self hnil
      split at h
      · cases h
      · rename_i code hcode
        obtain ⟨rest, hr, rfl⟩ := Results.map_ok h
        exact .cons (converted_code hnil rfl he hedge hcode rfl) (ih hrest (seen_of_or he hedge) hr)

/-- The loop goes through when libpfm knows every event it is asked for. -/
theorem opGetEventCodes_isOk (edgeDetect : Bool) :
    (∃ result, opGetEventCodes encode edgeDetect events = .ok result) ↔
      ∀ event ∈ events, event.evtCode = nilCode → (encode (evtName event.name)).isSome := by
  induction events generalizing edgeDetect with
  | nil => simp [opGetEventCodes]
  | cons event events ih =>
    rw [List.forall_mem_cons, opGetEventCodes]
    by_cases hnil : event.evtCode = nilCode
    · rw [if_neg (not_not.mpr hnil)]
      cases hcode : encode (evtName event.name) with
      | none => simp [hnil]
      | some code =>
        dsimp only
        rw [Results.map_isOk, ih]
        simp
    · rw [if_pos hnil, Results.map_isOk, ih]
      simp [hnil]

/-- The first two events of the loop: the second is coded with what was seen of the first. -/
theorem opGetEventCodes_second {first second : OperfEvent} {code : UInt64} (hfirst : first.evtCode = nilCode)
    (hsecond : second.evtCode = nilCode) (hcode : encode (evtName second.name) = some code)
    (h : opGetEventCodes encode false (first :: second :: events) = .ok result) :
    ∃ r₁ r₂ rest, result = r₁ :: r₂ :: rest ∧ r₂.evtCode = withEdge (isEdge first.name || isEdge second.name) code := by
  rw [opGetEventCodes, if_neg (not_not.mpr hfirst)] at h
  split at h
  · cases h
  · obtain ⟨rest, hr, rfl⟩ := Results.map_ok h
    rw [opGetEventCodes, if_neg (not_not.mpr hsecond), hcode] at hr
    obtain ⟨rest', hr', rfl⟩ := Results.map_ok hr
    exact ⟨_, _, rest', rfl, rfl⟩

theorem opGetEventCodes_first {first : OperfEvent} {code : UInt64} (hfirst : first.evtCode = nilCode)
    (hcode : encode (evtName first.name) = some code)
    (h : opGetEventCodes encode false (first :: events) = .ok result) :
    ∃ r rest, result = r :: rest ∧ r.evtCode = withEdge (isEdge first.name) code := by
  rw [opGetEventCodes, if_neg (not_not.mpr hfirst), hcode] at h
  obtain ⟨rest, hr, rfl⟩ := Results.map_ok h
  exact ⟨_, rest, rfl, rfl⟩

/-! ### The table of libpfm3 -/

/-- An event while the table is gone through: it has its code or none yet. -/
def Partly (encode : Text → Option UInt64) (event r : OperfEvent) : Prop :=
  r.name = event.name ∧ (Converted encode event r ∨ event.evtCode = nilCode ∧ r.evtCode = nilCode)

/-- One entry of the table leaves every event with its own code or with none; the count is full when none is left. -/
theorem getCodesForMatch_partly {name : Text} {code : Option Int32} {edgeDetect : Bool} {current : List OperfEvent}
    {converted : Nat} (hlib : encode name = code.map widen)
    (hapart : ∀ event ∈ events, event.evtCode = nilCode → Apart encode seen event.name) (hedge : edgeDetect → seen)
    (hcurrent : List.Forall₂ (Partly encode) events current)
    (h : getCodesForMatch name code edgeDetect current = .ok (result, converted)) :
    List.Forall₂ (Partly encode) events result ∧ converted ≤ events.length ∧
      (converted = events.length → List.Forall₂ (Converted encode) events result) := by
  induction hcurrent generalizing edgeDetect result converted with
  | nil =>
    cases h
    exact ⟨.nil, le_rfl, fun _ => .nil⟩
  | @cons event r events current hr hcurrent ih =>
    have hrest : ∀ e ∈ events, e.evtCode = nilCode → Apart encode seen e.name := by
      intro e he
      exact hapart e (List.mem_cons_of_mem _ he)
    unfold getCodesForMatch at h
    split at h
    · -- the event was converted before
      rename_i hcode
      have hconv : Converted encode event r := hr.2.resolve_right fun hnil => hcode hnil.2
      obtain ⟨⟨rest, n⟩, hrec, heq⟩ := Results.map_ok h
      cases heq
      obtain ⟨hpartly, hle, hfull⟩ := ih hrest hedge hrec
      refine ⟨.cons hr hpartly, Nat.succ_le_succ hle, ?_⟩
      intro hn
      exact .cons hconv (hfull (Nat.succ.inj hn))
    · rename_i hnil
      have hnil : r.evtCode = nilCode := not_not.mp hnil
      have hevent : event.evtCode = nilCode := by
        rcases hr.2 with hconv | hnone
        · by_contra hcode
          have hr := hconv.2
          rw [if_pos hcode, hnil] at hr
          exact hcode (Option.some.inj hr).symm
        · exact hnone.1
      have he : Apart encode seen r.name := by
        rw [hr.1]
        exact hapart event List.mem_cons_self hevent
      split at h
      · obtain ⟨⟨rest, n⟩, hrec, heq⟩ := Results.map_ok h
        cases heq
        obtain ⟨hpartly, hle, -⟩ := ih hrest (seen_of_or he hedge) hrec
        refine ⟨.cons hr hpartly, Nat.le_succ_of_le hle, ?_⟩
        intro hn
        simp only [List.length_cons] at hn
        omega
      · rename_i htake
        have hname : name = evtName r.name := eq_of_take_eq (evtName_length r.fits) (not_not.mp htake)
        cases code with
        | none => cases h
        | some tmpCode =>
          obtain ⟨⟨rest, n⟩, hrec, heq⟩ := Results.map_ok h
          cases heq
          obtain ⟨hpartly, hle, hfull⟩ := ih hrest (seen_of_or he hedge) hrec
          have hcode : encode (evtName r.name) = some (widen tmpCode) := by
            rw [← hname]
            exact hlib
          have hconv : Converted encode event
              { r with evtCode := withEdge (edgeDetect || isEdge r.name) (widen tmpCode) } :=
            converted_code hevent hr.1 he hedge hcode rfl
          refine ⟨.cons ⟨hr.1, Or.inl hconv⟩ hpartly, Nat.succ_le_succ hle, ?_⟩
          intro hn
          exact .cons hconv (hfull (Nat.succ.inj hn))

theorem matchTable_converted {table : List PfmEvent} {current : List OperfEvent}
    (hlib : ∀ pfmEvent ∈ table, ∀ name, pfmEvent.name = some name → encode name = pfmEvent.code.map widen)
    (hapart : ∀ event ∈ events, event.evtCode = nilCode → Apart encode seen event.name)
    (hcurrent : List.Forall₂ (Partly encode) events current)
    (h : matchTable table current = .ok (result, true)) : List.Forall₂ (Converted encode) events result := by
  induction table generalizing current with
  | nil => cases h
  | cons pfmEvent table ih =>
    have hrest : ∀ p ∈ table, ∀ name, p.name = some name → encode name = p.code.map widen := by
      intro p hp
      exact hlib p (List.mem_cons_of_mem _ hp)
    rw [matchTable] at h
    split at h
    · exact ih hrest hcurrent h
    · rename_i name hname
      have hcode := hlib pfmEvent List.mem_cons_self name hname
      split at h
      · cases h
      · rename_i events' converted hget
        obtain ⟨hpartly, -, hfull⟩ := getCodesForMatch_partly hcode hapart Bool.false_ne_true.elim hcurrent hget
        rw [← List.Forall₂.length_eq hcurrent] at h
        split at h
        · rename_i hn
          cases h
          exact hfull hn
        · exact ih hrest hpartly h

/-! ### The whole conversion -/

theorem runLatchCode_even {name : Text} {code : UInt64} (h : runLatchCode power7 name = some code) :
    code ≠ nilCode ∧ code ||| 1 ≠ code := by
  unfold runLatchCode at h
  split_ifs at h <;> cases h <;> decide

theorem presetCode_eq_nil {event : OperfEvent} :
    (presetCode power7 event).evtCode = nilCode ↔ runLatchCode power7 event.name = none := by
  unfold presetCode
  cases h : runLatchCode power7 event.name with
  | none => simp
  | some code => simpa using (runLatchCode_even h).1

@[simp] theorem presetCode_name {event : OperfEvent} : (presetCode power7 event).name = event.name := rfl

theorem apart_of_noLeak (h : NoLeak encode power7 events) (hperm : events.Perm events') :
    ∀ event ∈ events'.map (presetCode power7), event.evtCode = nilCode →
      Apart encode (∃ other ∈ events, runLatchCode power7 other.name = none ∧ isEdge other.name) event.name := by
  intro event hevent hnil
  obtain ⟨event, hmem, rfl⟩ := List.mem_map.mp hevent
  have hmem : event ∈ events := hperm.mem_iff.mpr hmem
  have hnone : runLatchCode power7 event.name = none := presetCode_eq_nil.mp hnil
  refine ⟨fun hedge => ⟨event, hmem, hnone, hedge⟩, ?_⟩
  intro code hcode
  rcases h.others event hmem hnone code hcode with hodd | ⟨hcut, hown⟩
  · exact Or.inl hodd
  · refine Or.inr ⟨hcut, hown.imp_right ?_⟩
    rintro hothers ⟨other, hother, hnone', hedge⟩
    exact hothers other hother hnone' hedge

theorem coded_of_converted (h : NoLeak encode power7 events) (hperm : events.Perm events')
    (hconv : List.Forall₂ (Converted encode) (events'.map (presetCode power7)) result) :
    Coded encode power7 events' result := by
  rw [List.forall₂_map_left_iff] at hconv
  have hmem : ∀ event ∈ events', event ∈ events := fun event hevent => hperm.mem_iff.mpr hevent
  clear hperm
  induction hconv with
  | nil => exact .nil
  | @cons event r events' result hr hconv ih =>
    refine .cons ⟨hr.1, ?_⟩ (ih fun e he => hmem e (List.mem_cons_of_mem _ he))
    have hcode := hr.2
    unfold expectedCode
    cases hrun : runLatchCode power7 event.name with
    | none =>
      rw [if_neg (not_not.mpr (presetCode_eq_nil.mpr hrun))] at hcode
      exact hcode
    | some code =>
      have hne : (presetCode power7 event).evtCode ≠ nilCode := by
        rw [Ne, presetCode_eq_nil, hrun]
        exact Option.some_ne_none code
      have hown : ¬ edgeCount <:+: event.name :=
        h.runLatch event (hmem event List.mem_cons_self) (by rw [hrun]; rfl)
      rw [if_pos hne, presetCode, hrun] at hcode
      simp only [hown, decide_false, withEdge_false]
      exact hcode

theorem perm_cons_of_mem {event : OperfEvent} (h : event ∈ events) : ∃ rest, events.Perm (event :: rest) := by
  obtain ⟨before, after, rfl⟩ := List.append_of_mem h
  exact ⟨before ++ after, List.perm_middle⟩

/-- What libpfm3 has for the names of its events is what libpfm4 has for them. -/
def SameCodes (pfm3 : Libpfm3) (pfm : Libpfm4) : Prop :=
  ∀ table, pfm3.events = some table → ∀ pfmEvent ∈ table, ∀ name, pfmEvent.name = some name →
    pfm.osEventEncoding name = pfmEvent.code.map widen

/-- Whatever the order of the events, both variants give each its own code. -/
def OwnCodes (pfm : Libpfm4) (power7 : Bool) (events : List OperfEvent) : Prop :=
  ∀ events', events.Perm events' →
    (∀ result, convertEventVals pfm power7 events' = .ok result →
      Coded pfm.osEventEncoding power7 events' result) ∧
    ∀ pfm3, SameCodes pfm3 pfm → ∀ result, convertEventVals3 pfm3 power7 events' = .ok (result, true) →
      Coded pfm.osEventEncoding power7 events' result

variable {pfm : Libpfm4}

theorem ownCodes_of_noLeak (h : NoLeak pfm.osEventEncoding power7 events) : OwnCodes pfm power7 events := by
  intro events' hperm
  have hapart := apart_of_noLeak h hperm
  constructor
  · intro result hr
    unfold convertEventVals at hr
    split at hr
    · exact coded_of_converted h hperm (opGetEventCodes_converted hapart Bool.false_ne_true.elim hr)
    · cases hr
  · intro pfm3 hsame result hr
    unfold convertEventVals3 at hr
    split at hr
    · split at hr
      · cases hr
      · rename_i table htable
        have hstart : List.Forall₂ (Partly pfm.osEventEncoding) (events'.map (presetCode power7))
            (events'.map (presetCode power7)) := by
          refine List.forall₂_same.mpr ?_
          intro event _
          refine ⟨rfl, ?_⟩
          by_cases hnil : event.evtCode = nilCode
          · exact Or.inr ⟨hnil, hnil⟩
          · exact Or.inl (converted_self hnil)
        exact coded_of_converted h hperm (matchTable_converted (hsame table htable) hapart hstart hr)
    · cases hr

/-- The loop goes through in one order as in another. -/
theorem convertEventVals_perm (hperm : events.Perm events') (h : convertEventVals pfm power7 events = .ok result) :
    ∃ result', opGetEventCodes pfm.osEventEncoding false (events'.map (presetCode power7)) = .ok result' ∧
      convertEventVals pfm power7 events' = .ok result' := by
  unfold convertEventVals at *
  split at h
  · have hall := (opGetEventCodes_isOk false).mp ⟨result, h⟩
    obtain ⟨result', hr⟩ := (opGetEventCodes_isOk false).mpr fun event hevent =>
      hall event ((hperm.map (presetCode power7)).mem_iff.mpr hevent)
    exact ⟨result', hr, by rw [if_pos ‹_›]; exact hr⟩
  · cases h

theorem noLeak_of_ownCodes (hok : convertEventVals pfm power7 events = .ok result) (h : OwnCodes pfm power7 events) :
    NoLeak pfm.osEventEncoding power7 events := by
  constructor
  · intro event hevent hrun hown
    obtain ⟨code, hcode⟩ := Option.isSome_iff_exists.mp hrun
    obtain ⟨rest, hperm⟩ := perm_cons_of_mem hevent
    obtain ⟨result', hget, hr⟩ := convertEventVals_perm hperm hok
    have hne : (presetCode power7 event).evtCode ≠ nilCode := by
      rw [Ne, presetCode_eq_nil, hcode]
      exact Option.some_ne_none code
    rw [List.map_cons, opGetEventCodes, if_pos hne] at hget
    obtain ⟨rest', -, rfl⟩ := Results.map_ok hget
    have hcoded := (h _ hperm).1 _ hr
    cases hcoded with
    | cons hfirst _ =>
      have hfirst := hfirst.2
      rw [expectedCode, hcode, presetCode, hcode] at hfirst
      simp only [hown, decide_true, withEdge_true, Option.getD_some, Option.some.injEq] at hfirst
      exact (runLatchCode_even hcode).2 hfirst.symm
  · intro event hevent hnone code hcode
    by_cases hodd : code ||| 1 = code
    · exact Or.inl hodd
    · obtain ⟨rest, hperm⟩ := perm_cons_of_mem hevent
      have hnil := presetCode_eq_nil.mpr hnone
      refine Or.inr ⟨?_, ?_⟩
      · -- the event first: it is coded with its cut name
        intro hown
        by_contra hcut
        have hedge : isEdge event.name = false := by simpa using hcut
        obtain ⟨result', hget, hr⟩ := convertEventVals_perm hperm hok
        obtain ⟨r, rest', rfl, hfirst⟩ := opGetEventCodes_first hnil hcode hget
        have hcoded := (h _ hperm).1 _ hr
        cases hcoded with
        | cons hexp _ =>
          have hexp := hexp.2
          rw [expectedCode, hnone] at hexp
          simp only [ownCode, hcode, hown, Option.map_some, decide_true, withEdge_true, Option.some.injEq] at hexp
          rw [hfirst] at hexp
          simp only [presetCode_name, hedge, withEdge_false] at hexp
          exact hodd hexp.symm
      · -- another edge event just before it
        by_contra hleak
        have hown : ¬ edgeCount <:+: event.name := fun hown => hleak (Or.inl hown)
        obtain ⟨other, hother, hnone', hedge⟩ : ∃ other ∈ events, runLatchCode power7 other.name = none ∧
            isEdge other.name := by
          by_contra hnot
          exact hleak (Or.inr fun other hother hnone' hedge => hnot ⟨other, hother, hnone', hedge⟩)
        have hne : other ≠ event := by
          rintro rfl
          exact hown (infix_of_isEdge hedge)
        have hrest : other ∈ rest := (List.mem_cons.mp (hperm.mem_iff.mp hother)).resolve_left hne
        obtain ⟨rest₂, hperm₂⟩ := perm_cons_of_mem hrest
        have hperm : events.Perm (other :: event :: rest₂) :=
          hperm.trans ((hperm₂.cons event).trans (List.Perm.swap other event rest₂))
        obtain ⟨result', hget, hr⟩ := convertEventVals_perm hperm hok
        obtain ⟨r₁, r₂, rest', rfl, hsecond⟩ :=
          opGetEventCodes_second (presetCode_eq_nil.mpr hnone') hnil hcode hget
        have hcoded := (h _ hperm).1 _ hr
        cases hcoded with
        | cons _ hcoded =>
          cases hcoded with
          | cons hexp _ =>
            have hexp := hexp.2
            rw [expectedCode, hnone] at hexp
            simp only [ownCode, hcode, hown, Option.map_some, decide_false, withEdge_false, Option.some.injEq] at hexp
            rw [hsecond] at hexp
            simp only [presetCode_name, hedge, Bool.true_or, withEdge_true] at hexp
            exact hodd hexp

/-- Where the conversion succeeds, each event gets its own code in every order and in both variants exactly when no
edge event meets an even code. -/
theorem eventCodes_iff (pfm : Libpfm4) (power7 : Bool) (events : List OperfEvent)
    (h : ∃ result, convertEventVals pfm power7 events = .ok result) :
    OwnCodes pfm power7 events ↔ NoLeak pfm.osEventEncoding power7 events := by
  obtain ⟨result, hok⟩ := h
  exact ⟨noLeak_of_ownCodes hok, ownCodes_of_noLeak⟩

/-- A libpfm that knows two events. -/
def twoEvents : Libpfm4 where
  initialized := true
  osEventEncoding name :=
    if name = pmCyc then some 0x1e
    else if name = ['P', 'M', '_', 'G', 'C', 'T'] then some 0x40004
    else none

/-- `PM_GCT_EDGE_COUNT_GRP1`. -/
def gctEdgeCount : OperfEvent :=
  ⟨['P', 'M', '_', 'G', 'C', 'T', '_', 'E', 'D', 'G', 'E', '_', 'C', 'O', 'U', 'N', 'T', '_', 'G', 'R', 'P', '1'], 0,
    by decide⟩

def cyclesEvent : OperfEvent := ⟨cycles, 0, by decide⟩

/-- A libpfm that knows an event with an odd code as well. -/
def threeEvents : Libpfm4 where
  initialized := true
  osEventEncoding name := if name = ['P', 'M', '_', 'L', 'D'] then some 0x40003 else twoEvents.osEventEncoding name

/-- `PM_LD_GRP1`. -/
def ldEvent : OperfEvent := ⟨['P', 'M', '_', 'L', 'D', '_', 'G', 'R', 'P', '1'], 0, by decide⟩

/-- `PM_RUN_CYC_GRP1`. -/
def runCycEvent : OperfEvent :=
  ⟨['P', 'M', '_', 'R', 'U', 'N', '_', 'C', 'Y', 'C', '_', 'G', 'R', 'P', '1'], 0, by decide⟩

/-- An edge event beside an event with an odd code and one that libpfm is not asked for. -/
theorem eventCodes_iff_gct : OwnCodes threeEvents true [ldEvent, gctEdgeCount, runCycEvent] := by
  have hok : ∃ result, convertEventVals threeEvents true [ldEvent, gctEdgeCount, runCycEvent] = .ok result :=
    ⟨[{ ldEvent with evtCode := 0x40003 }, { gctEdgeCount with evtCode := 0x40005 },
      { runCycEvent with evtCode := 0x600f4 }], rfl⟩
  refine (eventCodes_iff threeEvents true [ldEvent, gctEdgeCount, runCycEvent] hok).mpr ?_
  constructor
  · intro event hevent hrun
    simp only [List.mem_cons, List.not_mem_nil, or_false] at hevent
    rcases hevent with rfl | rfl | rfl
    · exact absurd hrun (by decide)
    · exact absurd hrun (by decide)
    · decide
  · intro event hevent hnone code hcode
    simp only [List.mem_cons, List.not_mem_nil, or_false] at hevent
    rcases hevent with rfl | rfl | rfl
    · obtain rfl : (0x40003 : UInt64) = code := Option.some.inj hcode
      exact Or.inl (by decide)
    · exact Or.inr ⟨fun _ => by decide, Or.inl (by decide)⟩
    · exact absurd hnone (by decide)

/-- After an edge event the cycles are coded as their rising edges. -/
theorem cycles_after_edge : ∃ result,
    convertEventVals twoEvents true [gctEdgeCount, cyclesEvent] = .ok result ∧
      ¬Coded twoEvents.osEventEncoding true [gctEdgeCount, cyclesEvent] result := by
  refine ⟨[{ gctEdgeCount with evtCode := 0x40005 }, { cyclesEvent with evtCode := 0x1f }], rfl, fun hcoded => ?_⟩
  cases hcoded with
  | cons _ hcoded =>
    cases hcoded with
    | cons hcycles _ => exact absurd hcycles.2 (by decide)

end Oprofile.PeUtils.EventCodes
