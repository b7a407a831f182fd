import Oprofile.Libop.UnitMaskTags

/-! The events that loading the files of a processor leaves. -/
namespace Oprofile.Libop.EventsFile

open SampleNames (Text)
open UnitMasks (UnitMaskType)
open UnitMaskFiles UnitMaskFiles.UmState
open Results (ErrorsIn)

variable {archCounterMask : UInt32} {s₀ ums ums' : UmState} {s s' : EventState} {spec : EventSpec} {event : OpEvent}

/-! ### Described files -/

/-- An event of the list with the unit mask that its line names. -/
structure Listed (archCounterMask : UInt32) (s₀ ums : UmState) (spec : EventSpec) (event : OpEvent) : Prop where
  eq : event = spec.event archCounterMask event.unit
  mem : ∀ addr ∈ event.unit, addr ∈ ums.umList
  named : event.unit.isSome = spec.um.isSome
  unit : event.unit.map (fun addr => marked (ums.ums addr)) = spec.um.bind fun value => unitOf (umTable s₀) value.1

/-- A line whose unit mask there is. -/
def Known (s₀ : UmState) (spec : EventSpec) : Prop := ∀ value ∈ spec.um, (unitOf (umTable s₀) value.1).isSome = true

theorem Listed.frame (h : Listed archCounterMask s₀ ums spec event) (hframe : Frame ums ums') :
    Listed archCounterMask s₀ ums' spec event := by
  refine ⟨h.eq, fun addr haddr => hframe.mem (h.mem addr haddr), h.named, ?_⟩
  rw [← h.unit]
  cases hunit : event.unit with
  | none => rfl
  | some addr => exact congrArg some (hframe.kept addr (h.mem addr hunit))

/-- An event is listed, or there is not the unit mask its line names. -/
theorem resolve_listed (archCounterMask : UInt32) (h : Extends s₀ s.ums none) (spec : EventSpec) :
    (Known s₀ spec ∧ ∃ ums' event, spec.resolve archCounterMask none s spec.um = .ok ⟨ums', s.events ++ [event]⟩ ∧
        Extends s₀ ums' none ∧ Frame s.ums ums' ∧ Listed archCounterMask s₀ ums' spec event) ∨
      ¬Known s₀ spec ∧ ∃ context, spec.resolve archCounterMask none s spec.um = .error (.exit context) := by
  cases hum : spec.um with
  | none =>
    refine .inl ⟨fun value hvalue => ?_, s.ums, spec.event archCounterMask none, rfl, h, .refl _, rfl, ?_, ?_, ?_⟩
    · rw [hum] at hvalue
      cases hvalue
    · intro addr haddr
      cases haddr
    · rw [hum]
      rfl
    · rw [hum]
      rfl
  | some value =>
    rw [EventSpec.resolve]
    rcases h.unitFor value.1 with ⟨addr, ums', hok, hext, hframe, hmem, hunit⟩ | ⟨hnone, context, herror⟩
    · rw [hok]
      refine .inl ⟨fun v hv => ?_, ums', spec.event archCounterMask (some addr), rfl, hext, hframe, rfl, ?_, ?_, ?_⟩
      · rw [hum] at hv
        cases hv
        rw [hunit]
        rfl
      · intro a ha
        cases ha
        exact hmem
      · rw [hum]
        rfl
      · rw [hum]
        exact hunit.symm
    · rw [herror]
      refine .inr ⟨fun hknown => ?_, context, rfl⟩
      have hsome := hknown value hum
      rw [hnone] at hsome
      cases hsome

/-- The lines are listed in their order, or one that names no unit mask ends the program. -/
theorem addEvents_listed (archCounterMask : UInt32) (specs : List EventSpec) :
    ∀ {s : EventState}, Extends s₀ s.ums none →
      ((∀ spec ∈ specs, Known s₀ spec) ∧ ∃ ums' events,
          addEvents archCounterMask specs s = .ok ⟨ums', s.events ++ events⟩ ∧ Extends s₀ ums' none ∧ Frame s.ums ums' ∧
            List.Forall₂ (Listed archCounterMask s₀ ums') specs events) ∨
        ¬(∀ spec ∈ specs, Known s₀ spec) ∧ ∃ context, addEvents archCounterMask specs s = .error (.exit context) := by
  induction specs with
  | nil =>
    intro s h
    exact .inl ⟨by simp, s.ums, [], by rw [addEvents, List.append_nil], h, .refl _, .nil⟩
  | cons spec specs ih =>
    intro s h
    rw [addEvents]
    rcases resolve_listed archCounterMask h spec with
      ⟨hknown, ums₁, event, hok, hext, hframe, hlisted⟩ | ⟨hnot, context, herror⟩
    · rw [hok]
      rcases ih (s := ⟨ums₁, s.events ++ [event]⟩) hext with
        ⟨hall, ums', events, hrest, hext', hframe', hlist⟩ | ⟨hnot, context, hrest⟩
      · refine .inl ⟨?_, ums', event :: events, ?_, hext', hframe.trans hframe', .cons (hlisted.frame hframe') hlist⟩
        · simpa using ⟨hknown, hall⟩
        · rw [List.append_assoc, List.singleton_append] at hrest
          exact hrest
      · exact .inr ⟨fun hall => hnot fun spec' hspec => hall spec' (List.mem_cons_of_mem _ hspec), context, hrest⟩
    · rw [herror]
      exact .inr ⟨fun hall => hnot (hall spec List.mem_cons_self), context, rfl⟩

theorem readUnitMasks_bounded {umFiles : Text → Option (List Text)} {depth : Nat} {cpu : Text}
    (hums : readUnitMasks umFiles depth cpu init = .ok ums) : Bounded ums :=
  (readUnitMasks_reads umFiles depth cpu init bounded_init).bounded ums hums

/-- Files as they are described are loaded exactly if there is a unit mask for every tag `um:`; the list then has an
event for each line, in the order of the lines and of the files they include, with all that the line says. -/
theorem loadEventsName_described (archCounterMask : UInt32) {umFiles : Text → Option (List Text)}
    {docs : Text → Option (List Item)} {depth : Nat} {cpu : Text} {specs : List EventSpec}
    (hums : readUnitMasks umFiles depth cpu init = .ok ums)
    (hspecs : specsOf docs depth cpu = some specs) :
    ((∃ s, loadEventsName archCounterMask umFiles (filesOf docs) depth cpu = .ok s) ↔ ∀ spec ∈ specs, Known ums spec) ∧
      ∀ s, loadEventsName archCounterMask umFiles (filesOf docs) depth cpu = .ok s →
        Frame ums s.ums ∧ List.Forall₂ (Listed archCounterMask ums s.ums) specs s.events := by
  have hload : loadEventsName archCounterMask umFiles (filesOf docs) depth cpu =
      addEvents archCounterMask specs ⟨ums, []⟩ := by
    unfold EventsFile.loadEventsName
    rw [hums]
    exact readEvents_items docs depth cpu specs ⟨ums, []⟩ hspecs
  rw [hload]
  rcases addEvents_listed archCounterMask specs (s := ⟨ums, []⟩) (Extends.refl (readUnitMasks_bounded hums)) with
    ⟨hall, ums', events, hok, -, hframe, hlist⟩ | ⟨hnot, context, herror⟩
  · rw [hok]
    refine ⟨⟨fun _ => hall, fun _ => ⟨_, rfl⟩⟩, fun s hs => ?_⟩
    cases hs
    exact ⟨hframe, hlist⟩
  · rw [herror]
    refine ⟨⟨fun hsome => ?_, fun hall => (hnot hall).elim⟩, fun s hs => ?_⟩
    · obtain ⟨s, hs⟩ := hsome
      cases hs
    · cases hs

def noBlanks : Blanks := ⟨[], List.forall_mem_nil _⟩

theorem isBlank_space : ∀ c ∈ ([' '] : Text), isBlank c = true := by simp [isBlank]

def space : Blanks := ⟨[' '], isBlank_space⟩

theorem word_a : ∀ c ∈ (['a'] : Text), isBlank c = false := by simp [isBlank]

theorem word_ab : ∀ c ∈ (['a', ',', 'b'] : Text), isBlank c = false := by simp [isBlank]

theorem word_d : ∀ c ∈ (['d'] : Text), isBlank c = false := by simp [isBlank]

/-- `event:0x3 um:a` -/
def oneSpec : EventSpec := ⟨none, some 3, none, none, some ⟨['a'], word_a⟩, none, none, none⟩

/-- `counters:cpuid um:a,b minimum:500 event:0x2` -/
def pairSpec : EventSpec := ⟨none, some 2, some .cpuid, none, some ⟨['a', ',', 'b'], word_ab⟩, some 500, none, none⟩

def oneOrder : List (EventTag × Blanks) := [(.event, space), (.um, noBlanks)]

def pairOrder : List (EventTag × Blanks) := [(.counters, space), (.um, space), (.minimum, space), (.event, noBlanks)]

theorem oneOrder_nodup : (oneOrder.map Prod.fst).Nodup := by decide

theorem pairOrder_nodup : (pairOrder.map Prod.fst).Nodup := by decide

theorem oneOrder_complete (tag : EventTag) : tag ∈ oneOrder.map Prod.fst ↔ (oneSpec.value tag).isSome = true := by
  cases tag <;> decide

theorem pairOrder_complete (tag : EventTag) : tag ∈ pairOrder.map Prod.fst ↔ (pairSpec.value tag).isSome = true := by
  cases tag <;> decide

theorem oneOrder_separated : Separated oneSpec.desc.isNone oneOrder := by simp [oneOrder, oneSpec, Separated, space]

theorem pairOrder_separated : Separated pairSpec.desc.isNone pairOrder := by simp [pairOrder, pairSpec, Separated, space]

def oneLine : EventLine where
  spec := oneSpec
  lead := noBlanks
  order := oneOrder
  descLead := noBlanks
  nodup := oneOrder_nodup
  complete := oneOrder_complete
  separated := oneOrder_separated
  nonempty := .inl (List.cons_ne_nil _ _)

def pairLine : EventLine where
  spec := pairSpec
  lead := noBlanks
  order := pairOrder
  descLead := noBlanks
  nodup := pairOrder_nodup
  complete := pairOrder_complete
  separated := pairOrder_separated
  nonempty := .inl (List.cons_ne_nil _ _)

theorem trail_nil : ([] : Text).head?.all isBlank = true ∧ endsInclude [] = true := ⟨rfl, rfl⟩

/-- A file that includes another. -/
def pairDocs (cpu : Text) : Option (List Item) :=
  if cpu = ['c'] then some [.includes noBlanks ⟨['d'], word_d⟩ ⟨[], trail_nil⟩, .event pairLine]
  else if cpu = ['d'] then some [.event oneLine]
  else none

def pairUmFiles (_ : Text) : Option (List Text) :=
  some ["name:a type:bitmask default:0x1".toList, "\t0x1 one".toList, "name:b type:bitmask default:0x2".toList,
    "\t0x2 two".toList]

def pairUms : UmState := ((readUnitMasks pairUmFiles 2 ['c'] init).toOption).getD init

theorem pairUms_read : readUnitMasks pairUmFiles 2 ['c'] init = .ok pairUms := by
  have hok : (readUnitMasks pairUmFiles 2 ['c'] init).toBool = true := by decide +kernel
  unfold pairUms
  cases hread : readUnitMasks pairUmFiles 2 ['c'] init with
  | error stop =>
    rw [hread] at hok
    cases hok
  | ok ums => rfl

theorem loadEventsName_described_pair :
    (∃ s, loadEventsName 0xf pairUmFiles (filesOf pairDocs) 2 ['c'] = .ok s) ∧
      ∀ s, loadEventsName 0xf pairUmFiles (filesOf pairDocs) 2 ['c'] = .ok s →
        Frame pairUms s.ums ∧ List.Forall₂ (Listed 0xf pairUms s.ums) [oneSpec, pairSpec] s.events := by
  have hknown : ∀ spec ∈ [oneSpec, pairSpec], Known pairUms spec := by
    intro spec hspec value hvalue
    rcases List.mem_pair.mp hspec with rfl | rfl
    · cases hvalue
      decide +kernel
    · cases hvalue
      decide +kernel
  have h := loadEventsName_described 0xf pairUms_read (rfl : specsOf pairDocs 2 ['c'] = some [oneSpec, pairSpec])
  exact ⟨h.1.mpr hknown, h.2⟩

/-! ### Any files -/

/-- What is right of an event whatever the files say. -/
structure EventSound (s₀ ums : UmState) (event : OpEvent) : Prop where
  name : ∀ name ∈ event.name, '/' ∉ name ∧ '.' ∉ name
  unit : ∀ addr ∈ event.unit, addr ∈ ums.umList ∧ ∃ value, unitOf (umTable s₀) value = some (marked (ums.ums addr))

theorem EventSound.frame (h : EventSound s₀ ums event) (hframe : Frame ums ums') : EventSound s₀ ums' event := by
  refine ⟨h.name, fun addr haddr => ?_⟩
  obtain ⟨hmem, value, hvalue⟩ := h.unit addr haddr
  refine ⟨hframe.mem hmem, value, ?_⟩
  rw [hvalue, hframe.kept addr hmem]

theorem eventSound_new : EventSound s₀ ums newEvent := ⟨by simp [newEvent], by simp [newEvent]⟩

/-- The lists at any time. -/
structure ListsSound (s₀ : UmState) (s : EventState) : Prop where
  table : Extends s₀ s.ums none
  events : ∀ event ∈ s.events, EventSound s₀ s.ums event

theorem ListsSound.withUms (h : ListsSound s₀ s) (hext : Extends s₀ ums none) (hframe : Frame s.ums ums) :
    ListsSound s₀ { s with ums } :=
  ⟨hext, fun event hevent => (h.events event hevent).frame hframe⟩

theorem ListsSound.add (h : ListsSound s₀ s) (hevent : EventSound s₀ s.ums event) : ListsSound s₀ (s.add event) := by
  refine ⟨h.table, fun e he => ?_⟩
  rcases List.mem_append.mp he with hold | hnew
  · exact h.events e hold
  · rw [List.mem_singleton.mp hnew]
    exact hevent

def IsExit (stop : UmStop) : Prop := ∃ context, stop = .exit context

/-- Reading ends with a message or leaves sound lists. -/
def LeavesSound (s₀ : UmState) (r : Except UmStop EventState) : Prop :=
  ErrorsIn IsExit r ∧ ∀ s', r = .ok s' → ListsSound s₀ s'

theorem leavesSound_exit (s₀ : UmState) (context : String) : LeavesSound s₀ (.error (.exit context)) := by
  refine ⟨fun stop hstop => ?_, fun s' hs' => ?_⟩
  · cases hstop
    exact ⟨context, rfl⟩
  · cases hs'

theorem leavesSound_ok (h : ListsSound s₀ s) : LeavesSound s₀ (.ok s) := by
  refine ⟨Results.errorsIn_ok s, fun s' hs' => ?_⟩
  cases hs'
  exact h

theorem leavesSound_error {stop : UmStop} (h : IsExit stop) : LeavesSound s₀ (.error stop) := by
  obtain ⟨context, rfl⟩ := h
  exact leavesSound_exit s₀ context

theorem isExit_exit {α : Type} (context : String) : ErrorsIn IsExit (.error (.exit context) : Except UmStop α) := by
  intro stop hstop
  cases hstop
  exact ⟨context, rfl⟩

theorem parseInt_exits (str : Text) : ErrorsIn IsExit (parseInt str) := by
  unfold parseInt
  split_ifs with hdigits
  · exact isExit_exit _
  · exact Results.errorsIn_ok _

theorem parseHex_exits (str : Text) : ErrorsIn IsExit (parseHex str) := by
  unfold parseHex
  dsimp only
  split
  · exact Results.errorsIn_ok _
  · exact isExit_exit _

theorem parseCounterMaskLoop_exits (rounds : Nat) :
    ∀ (mask : UInt32) (str : Text), ErrorsIn IsExit (parseCounterMaskLoop rounds mask str) := by
  induction rounds with
  | zero => exact fun mask str => Results.errorsIn_ok mask
  | succ rounds ih =>
    intro mask str
    cases str with
    | nil => exact Results.errorsIn_ok mask
    | cons c numstart =>
      rw [parseCounterMaskLoop]
      cases hint : parseInt (c :: numstart) with
      | error stop =>
        intro e he
        cases he
        exact parseInt_exits _ stop hint
      | ok n => exact ih _ _

theorem nextToken_exits (cp : Text) : ErrorsIn IsExit (nextToken cp) := by
  unfold nextToken
  dsimp only
  split_ifs with hcolon hend hbehind htag
  all_goals first
    | exact isExit_exit _
    | exact Results.errorsIn_ok _

/-- Storing a tag ends with a message or leaves a sound event. -/
def StoresSound (s₀ ums : UmState) (r : Except UmStop (OpEvent × UmState)) : Prop :=
  ErrorsIn IsExit r ∧
    ∀ event ums', r = .ok (event, ums') → Extends s₀ ums' none ∧ Frame ums ums' ∧ EventSound s₀ ums' event

theorem storesSound_exit (s₀ ums : UmState) (context : String) : StoresSound s₀ ums (.error (.exit context)) := by
  refine ⟨isExit_exit context, fun event ums' hr => ?_⟩
  cases hr

theorem storesSound_ok (hext : Extends s₀ ums none) (h : EventSound s₀ ums event) :
    StoresSound s₀ ums (.ok (event, ums)) := by
  refine ⟨Results.errorsIn_ok _, fun event' ums' hr => ?_⟩
  cases hr
  exact ⟨hext, .refl ums, h⟩

/-- A field that is parsed on its own. -/
theorem storesSound_map {α : Type} {r : Except UmStop α} {f : α → OpEvent} (hext : Extends s₀ ums none)
    (hr : ErrorsIn IsExit r) (h : ∀ a, EventSound s₀ ums (f a)) : StoresSound s₀ ums (r.map fun a => (f a, ums)) := by
  refine ⟨hr.map, fun event ums' hok => ?_⟩
  obtain ⟨a, -, ha⟩ := Results.map_ok hok
  cases ha
  exact ⟨hext, .refl ums, h a⟩

/-- The other fields do not matter. -/
theorem EventSound.same {event' : OpEvent} (h : EventSound s₀ ums event) (hname : event'.name = event.name)
    (hunit : event'.unit = event.unit) : EventSound s₀ ums event' := by
  refine ⟨?_, ?_⟩
  · rw [hname]
    exact h.name
  · rw [hunit]
    exact h.unit

theorem storeTag_sound (archCounterMask : UInt32) (tag : EventTag) (value : Text) (hext : Extends s₀ ums none)
    (hevent : EventSound s₀ ums event) : StoresSound s₀ ums (storeTag archCounterMask tag value event ums) := by
  cases tag with
  | name =>
    rw [storeTag]
    split_ifs with hslash hdot
    · exact storesSound_exit _ _ _
    · exact storesSound_exit _ _ _
    · refine storesSound_ok hext ⟨fun name hname => ?_, hevent.unit⟩
      cases hname
      exact ⟨hslash, hdot⟩
  | event => exact storesSound_map hext (parseHex_exits value) fun _ => hevent.same rfl rfl
  | counters =>
    rw [storeTag]
    split_ifs with hcpuid
    · exact storesSound_ok hext (hevent.same rfl rfl)
    · exact storesSound_map hext (parseCounterMaskLoop_exits _ 0 value) fun _ => hevent.same rfl rfl
  | ext => exact storesSound_ok hext (hevent.same rfl rfl)
  | um =>
    rw [storeTag]
    rcases hext.unitFor value with ⟨addr, ums', hok, hext', hframe, hmem, hunit⟩ | ⟨-, context, herror⟩
    · rw [hok]
      refine ⟨Results.errorsIn_ok _, fun event' ums'' hr => ?_⟩
      cases hr
      refine ⟨hext', hframe, (hevent.frame hframe).name, fun a ha => ?_⟩
      cases ha
      exact ⟨hmem, value, hunit⟩
    · rw [herror]
      exact storesSound_exit _ _ context
  | minimum => exact storesSound_map hext (parseInt_exits value) fun _ => hevent.same rfl rfl
  | desc => exact storesSound_ok hext (hevent.same rfl rfl)
  | filter => exact storesSound_map hext (parseInt_exits value) fun _ => hevent.same rfl rfl
  | includes => exact storesSound_ok hext hevent

/-- The tokens of a line. -/
theorem readTags_sound (archCounterMask : UInt32) {included : Text → EventState → Except UmStop EventState}
    (hincluded : ∀ value s, ListsSound s₀ s → LeavesSound s₀ (included value s)) (rounds : Nat) :
    ∀ (tags : List EventTag) (event : OpEvent) (c : Text) (s : EventState), ListsSound s₀ s → EventSound s₀ s.ums event →
      LeavesSound s₀ (readTags archCounterMask included rounds tags event c s) := by
  induction rounds with
  | zero => exact fun tags event c s h hevent => leavesSound_ok (h.add hevent)
  | succ rounds ih =>
    intro tags event c s h hevent
    rw [readTags]
    cases hnext : nextToken c with
    | error stop => exact leavesSound_error (nextToken_exits c stop hnext)
    | ok found =>
      cases found with
      | none => exact leavesSound_ok (h.add hevent)
      | some found =>
        obtain ⟨name, value, c'⟩ := found
        dsimp only
        cases EventTag.ofText name with
        | none => exact leavesSound_exit _ _
        | some tag =>
          dsimp only
          split_ifs with honce hincludes hbefore hends
          · exact leavesSound_exit _ _
          · exact leavesSound_exit _ _
          · have hfile := hincluded value s h
            cases hread : included value s with
            | error stop => exact leavesSound_error (hfile.1 stop hread)
            | ok s' => exact leavesSound_ok (hfile.2 s' hread)
          · have hfile := hincluded value s h
            cases hread : included value s with
            | error stop => exact leavesSound_error (hfile.1 stop hread)
            | ok s' => exact leavesSound_exit _ _
          · have hstore := storeTag_sound archCounterMask tag value h.table hevent
            cases hstored : storeTag archCounterMask tag value event s.ums with
            | error stop => exact leavesSound_error (hstore.1 stop hstored)
            | ok stored =>
              obtain ⟨event', ums'⟩ := stored
              obtain ⟨hext, hframe, hevent'⟩ := hstore.2 event' ums' hstored
              exact ih _ _ _ _ (h.withUms hext hframe) hevent'

theorem readLines_sound (archCounterMask : UInt32) {included : Text → EventState → Except UmStop EventState}
    (hincluded : ∀ value s, ListsSound s₀ s → LeavesSound s₀ (included value s)) (lines : List Text) :
    ∀ s : EventState, ListsSound s₀ s → LeavesSound s₀ (readLines archCounterMask included lines s) := by
  induction lines with
  | nil => exact fun s h => leavesSound_ok h
  | cons line lines ih =>
    intro s h
    rw [readLines]
    split_ifs with hskip
    · exact ih s h
    · have hline := readTags_sound archCounterMask hincluded (line.length + 1) [] newEvent line s h eventSound_new
      cases hread : readTags archCounterMask included (line.length + 1) [] newEvent line s with
      | error stop => exact leavesSound_error (hline.1 stop hread)
      | ok s' => exact ih s' (hline.2 s' hread)

/-- The files, through all they include. -/
theorem readEvents_sound (archCounterMask : UInt32) (eventFiles : Text → Option (List Text)) (depth : Nat) :
    ∀ (cpu : Text) (s : EventState), ListsSound s₀ s →
      LeavesSound s₀ (readEvents archCounterMask eventFiles depth cpu s) := by
  induction depth with
  | zero => exact fun cpu s _ => leavesSound_exit _ _
  | succ depth ih =>
    intro cpu s h
    rw [readEvents]
    cases eventFiles cpu with
    | none => exact leavesSound_exit _ _
    | some lines => exact readLines_sound archCounterMask ih lines s h

/-- Whatever the files say, a table is written outside its bounds only where the unit mask files do not fit; and when
all are read, every event has a name that a sample file can have, and the unit mask of the list that its tag stands for
among those of the files. -/
theorem loadEventsName_sound (archCounterMask : UInt32) (umFiles eventFiles : Text → Option (List Text)) (depth : Nat)
    (cpu : Text) :
    (loadEventsName archCounterMask umFiles eventFiles depth cpu = .error .fault ↔ ¬Fits umFiles depth cpu) ∧
      ∀ s, loadEventsName archCounterMask umFiles eventFiles depth cpu = .ok s →
        ∃ ums, readUnitMasks umFiles depth cpu init = .ok ums ∧ ListsSound ums s := by
  have hreads := readUnitMasks_reads umFiles depth cpu init bounded_init
  unfold EventsFile.loadEventsName
  cases hread : readUnitMasks umFiles depth cpu init with
  | error stop =>
    dsimp only
    rw [← hread, ← hreads.fault_iff, hread]
    refine ⟨⟨fun h => ?_, fun h => ?_⟩, fun s hs => ?_⟩
    · cases h
      rfl
    · cases h
      rfl
    · cases hs
  | ok ums =>
    have hstart : ListsSound ums ⟨ums, []⟩ := ⟨Extends.refl (hreads.bounded ums hread), List.forall_mem_nil _⟩
    have hevents := readEvents_sound archCounterMask eventFiles depth cpu ⟨ums, []⟩ hstart
    refine ⟨⟨fun hfault => ?_, fun hn => ?_⟩, fun s hs => ⟨ums, rfl, hevents.2 s hs⟩⟩
    · obtain ⟨context, hcontext⟩ := hevents.1 _ hfault
      cases hcontext
    · have hfault := hreads.fault_iff.mpr hn
      rw [hread] at hfault
      cases hfault

/-! ### What all tags keep -/

section

variable {I : UmState → Prop} (hunit : ∀ ums value addr ums', I ums → unitFor ums value = .ok (addr, ums') → I ums')

include hunit

theorem storeTag_keeps {tag : EventTag} {value : Text} {event' : OpEvent} (h : I ums)
    (hok : storeTag archCounterMask tag value event ums = .ok (event', ums')) : I ums' := by
  cases tag with
  | name =>
    rw [storeTag] at hok
    split_ifs at hok with hslash hdot
    cases hok
    exact h
  | counters =>
    rw [storeTag] at hok
    split_ifs at hok with hcpuid
    · cases hok
      exact h
    · obtain ⟨mask, -, heq⟩ := Results.map_ok hok
      cases heq
      exact h
  | um =>
    obtain ⟨⟨addr, ums₁⟩, hfound, heq⟩ := Results.map_ok hok
    cases heq
    exact hunit _ _ _ _ h hfound
  | event =>
    obtain ⟨val, -, heq⟩ := Results.map_ok hok
    cases heq
    exact h
  | minimum =>
    obtain ⟨n, -, heq⟩ := Results.map_ok hok
    cases heq
    exact h
  | filter =>
    obtain ⟨n, -, heq⟩ := Results.map_ok hok
    cases heq
    exact h
  | ext =>
    cases hok
    exact h
  | desc =>
    cases hok
    exact h
  | includes =>
    cases hok
    exact h

theorem readTags_keeps {included : Text → EventState → Except UmStop EventState}
    (hincluded : ∀ value s s', I s.ums → included value s = .ok s' → I s'.ums) (rounds : Nat) :
    ∀ (tags : List EventTag) (event : OpEvent) (c : Text) (s s' : EventState), I s.ums →
      readTags archCounterMask included rounds tags event c s = .ok s' → I s'.ums := by
  induction rounds with
  | zero =>
    intro tags event c s s' h hok
    cases hok
    exact h
  | succ rounds ih =>
    intro tags event c s s' h hok
    rw [readTags] at hok
    cases hnext : nextToken c with
    | error stop =>
      rw [hnext] at hok
      cases hok
    | ok found =>
      rw [hnext] at hok
      cases found with
      | none =>
        cases hok
        exact h
      | some found =>
        obtain ⟨name, value, c'⟩ := found
        dsimp only at hok
        cases htag : EventTag.ofText name with
        | none =>
          rw [htag] at hok
          cases hok
        | some tag =>
          rw [htag] at hok
          dsimp only at hok
          split_ifs at hok with honce hincludes hbefore hends
          · cases hread : included value s with
            | error stop =>
              rw [hread] at hok
              cases hok
            | ok s₁ =>
              rw [hread] at hok
              cases hok
              exact hincluded value s _ h hread
          · cases hread : included value s with
            | error stop =>
              rw [hread] at hok
              cases hok
            | ok s₁ =>
              rw [hread] at hok
              cases hok
          · cases hstored : storeTag archCounterMask tag value event s.ums with
            | error stop =>
              rw [hstored] at hok
              cases hok
            | ok stored =>
              obtain ⟨event', ums₁⟩ := stored
              rw [hstored] at hok
              exact ih _ _ _ { s with ums := ums₁ } _ (storeTag_keeps hunit h hstored) hok

theorem readLines_keeps {included : Text → EventState → Except UmStop EventState}
    (hincluded : ∀ value s s', I s.ums → included value s = .ok s' → I s'.ums) (lines : List Text) :
    ∀ s s' : EventState, I s.ums → readLines archCounterMask included lines s = .ok s' → I s'.ums := by
  induction lines with
  | nil =>
    intro s s' h hok
    cases hok
    exact h
  | cons line lines ih =>
    intro s s' h hok
    rw [readLines] at hok
    split_ifs at hok with hskip
    · exact ih s s' h hok
    · cases hread : readTags archCounterMask included (line.length + 1) [] newEvent line s with
      | error stop =>
        rw [hread] at hok
        cases hok
      | ok s₁ =>
        rw [hread] at hok
        exact ih s₁ s' (readTags_keeps hunit hincluded _ _ _ _ _ _ h hread) hok

/-- What every tag `um:` keeps, the events files keep. -/
theorem readEvents_keeps (eventFiles : Text → Option (List Text)) (depth : Nat) :
    ∀ (cpu : Text) (s s' : EventState), I s.ums → readEvents archCounterMask eventFiles depth cpu s = .ok s' →
      I s'.ums := by
  induction depth with
  | zero =>
    intro cpu s s' _ hok
    cases hok
  | succ depth ih =>
    intro cpu s s' h hok
    rw [readEvents] at hok
    cases hfile : eventFiles cpu with
    | none =>
      rw [hfile] at hok
      cases hok
    | some lines =>
      rw [hfile] at hok
      exact readLines_keeps hunit (fun value => ih value) lines s s' h hok

end

/-! ### The calls -/

/-- Why a call does not return: reading stops, the checks end the program, or a null pointer is compared. -/
inductive LoadStop
  | reading (stop : UmStop)
  | checks
  | noName

/-- The loop of `check_unit_mask` over the entries of an exclusive unit mask: whether one is the default. -/
def hasDefault (um : OpUnitMask) : List DescribedUm → Except LoadStop Bool
  | [] => .ok false
  | entry :: entries =>
    match um.defaultMaskName with
    | none => if um.defaultMask = entry.value then .ok true else hasDefault um entries
    | some wanted =>
      match entry.name with
      | none => .error .noName
      | some name => if wanted = name then .ok true else hasDefault um entries

/-- `check_unit_mask`: whether there is an error. -/
def checkUnitMask (um : OpUnitMask) : Except LoadStop Bool :=
  let entries := um.um.take um.num
  match um.unitTypeMask with
  | .mandatory => .ok (!um.used || um.num ≠ 1)
  | .bitmask => .ok (!um.used || entries.foldl (fun mask entry => mask &&& ~~~entry.value) um.defaultMask ≠ 0)
  | .exclusive => (hasDefault um entries).map fun found => !um.used || !found

/-- `arch_filter_events` -/
def archFilterEvents (filter : UInt32) (events : List OpEvent) : List OpEvent :=
  if filter = 0 then events
  else events.filter fun event => ¬(0 ≤ event.filter ∧ counterBit event.filter &&& filter ≠ 0)

/-- What the processor and the kernel answer. -/
structure Host where
  archCounterMask : UInt32
  filter : UInt32
  hasTimerFs : Bool
  nrCounters : Int32

def timerEventName : Text := ['T', 'I', 'M', 'E', 'R']

def timerEventUnitMaskName : Text := ['t', 'i', 'm', 'e', 'r', '_', 'u', 'n', 'i', 't', '_', 'm', 'a', 's', 'k']

def timerEventValue : UInt32 := 0xffffffff

/-- The first loop of `load_events` that looks for the predefined event. -/
def checkTimerEvents : List OpEvent → Except LoadStop Unit
  | [] => .ok ()
  | event :: events =>
    match event.name with
    | none => .error .noName
    | some name =>
      if name = timerEventName ∨ event.val = timerEventValue then .error .checks else checkTimerEvents events

/-- The second, which looks for its unit mask. -/
def checkTimerNames : List (Option Text) → Except LoadStop Unit
  | [] => .ok ()
  | none :: _ => .error .noName
  | some name :: names => if name = timerEventUnitMaskName then .error .checks else checkTimerNames names

def timerUnitMask : OpUnitMask :=
  ⟨some timerEventUnitMaskName, 1, .mandatory, 0, none, [⟨0, 0, some [], "No unit mask".toList⟩], true⟩

def timerEvent (host : Host) (unit : Nat) : OpEvent :=
  ⟨counterBit (host.nrCounters - 1), timerEventValue, some unit, some timerEventName,
    some "Timer based sampling".toList, 0, -1, none⟩

/-- The predefined event and its unit mask. -/
def EventState.addTimer (host : Host) (s : EventState) : EventState :=
  ⟨s.ums.newUnitMask.set s.ums.next timerUnitMask, s.events ++ [timerEvent host s.ums.next]⟩

/-- What `load_events` does when the files are read. -/
def finishLoad (host : Host) (s : EventState) : Except LoadStop EventState :=
  let s := { s with events := archFilterEvents host.filter s.events }
  match s.ums.umList.mapM fun addr => checkUnitMask (s.ums.ums addr) with
  | .error stop => .error stop
  | .ok errs =>
    if true ∈ errs then .error .checks
    else if host.hasTimerFs = false then .ok s
    else
      match checkTimerEvents s.events with
      | .error stop => .error stop
      | .ok () =>
        match checkTimerNames (s.ums.umList.map fun addr => (s.ums.ums addr).name) with
        | .error stop => .error stop
        | .ok () => .ok (s.addTimer host)

/-- `load_events`; the files are read as in `load_events_name`, with the list of unit masks as it is. -/
def loadEvents (host : Host) (umFiles eventFiles : Text → Option (List Text)) (depth : Nat) (cpu : Text)
    (s : EventState) : Except LoadStop EventState :=
  if s.events ≠ [] then .ok s
  else
    match readUnitMasks umFiles depth cpu s.ums with
    | .error stop => .error (.reading stop)
    | .ok ums =>
      match readEvents host.archCounterMask eventFiles depth cpu ⟨ums, []⟩ with
      | .error stop => .error (.reading stop)
      | .ok s => finishLoad host s

/-- The calls that load or free the lists: `op_events`, those that look an event up, and `op_free_events`. -/
inductive Call
  | events (cpu : Text)
  | find (cpu : Text)
  | free

def Call.run (hosts : Text → Host) (umFiles eventFiles : Text → Option (List Text)) (depth : Nat) (s : EventState) :
    Call → Except LoadStop EventState
  | events cpu => (loadEvents (hosts cpu) umFiles eventFiles depth cpu s).map fun s =>
      { s with events := archFilterEvents (hosts cpu).filter s.events }
  | find cpu => loadEvents (hosts cpu) umFiles eventFiles depth cpu s
  | free => .ok ⟨{ s.ums with umList := [] }, []⟩

/-! ### The lists between the calls -/

/-- What holds between the calls. -/
structure ListsChecked (s : EventState) : Prop where
  bounded : Bounded s.ums
  first : UsedFirst s.ums
  checked : ∀ addr ∈ s.ums.umList, checkUnitMask (s.ums.ums addr) = .ok false
  unit : ∀ event ∈ s.events, ∀ addr ∈ event.unit, addr ∈ s.ums.umList
  name : ∀ event ∈ s.events, ∀ name ∈ event.name, '/' ∉ name ∧ '.' ∉ name

theorem used_of_checked {um : OpUnitMask} (h : checkUnitMask um = .ok false) : um.used = true := by
  unfold checkUnitMask at h
  dsimp only at h
  split at h
  · simp_all
  · simp_all
  · obtain ⟨found, -, heq⟩ := Results.map_ok h
    simp_all

/-- No two unit masks have one name. -/
theorem ListsChecked.names_nodup (h : ListsChecked s) : (s.ums.umList.map fun addr => (s.ums.ums addr).name).Nodup := by
  refine h.first.nodup.map_on fun a ha b hb hname => ?_
  have hfirst := h.first.first a ha (used_of_checked (h.checked a ha))
  rw [hname, h.first.first b hb (used_of_checked (h.checked b hb))] at hfirst
  exact (Option.some.inj hfirst).symm

theorem mem_archFilterEvents {filter : UInt32} {events : List OpEvent} (h : event ∈ archFilterEvents filter events) :
    event ∈ events := by
  unfold archFilterEvents at h
  split_ifs at h with hzero
  · exact h
  · exact List.mem_of_mem_filter h

theorem ListsChecked.filtered (h : ListsChecked s) (filter : UInt32) :
    ListsChecked { s with events := archFilterEvents filter s.events } :=
  ⟨h.bounded, h.first, h.checked, fun event hevent => h.unit event (mem_archFilterEvents hevent),
    fun event hevent => h.name event (mem_archFilterEvents hevent)⟩

theorem mapM_checks {addrs : List Nat} {f : Nat → Except LoadStop Bool} {errs : List Bool} (h : addrs.mapM f = .ok errs)
    (herrs : true ∉ errs) : ∀ addr ∈ addrs, f addr = .ok false := by
  induction addrs generalizing errs with
  | nil => simp
  | cons addr addrs ih =>
    rw [List.mapM_cons] at h
    obtain ⟨err, herr, h⟩ := Results.bind_ok h
    obtain ⟨rest, hrest, h⟩ := Results.bind_ok h
    cases h
    rw [List.mem_cons, not_or] at herrs
    intro a ha
    rcases List.mem_cons.mp ha with rfl | hin
    · rw [herr, Bool.eq_false_of_not_eq_true fun htrue => herrs.1 htrue.symm]
    · exact ih hrest herrs.2 a hin

theorem checkTimerNames_free {names : List (Option Text)} (h : checkTimerNames names = .ok ()) :
    some timerEventUnitMaskName ∉ names := by
  induction names with
  | nil => simp
  | cons name names ih =>
    cases name with
    | none => cases h
    | some name =>
      rw [checkTimerNames] at h
      split_ifs at h with htaken
      rw [List.mem_cons, not_or]
      exact ⟨fun heq => htaken (Option.some.inj heq).symm, ih h⟩

theorem ListsChecked.addTimer (h : ListsChecked s) (host : Host)
    (hfree : some timerEventUnitMaskName ∉ s.ums.umList.map fun addr => (s.ums.ums addr).name) :
    ListsChecked (s.addTimer host) := by
  have hold : ∀ a ∈ s.ums.umList, (s.addTimer host).ums.ums a = s.ums.ums a := by
    intro a ha
    have hne : a ≠ s.ums.next := (h.bounded.allocated a ha).ne
    exact (set_other timerUnitMask hne).trans (if_neg hne)
  have hself : (s.addTimer host).ums.ums s.ums.next = timerUnitMask := set_self _ _ _
  refine ⟨h.bounded.newUnitMask.set rfl (by decide), h.first.added fun _ => ?_, fun a ha => ?_,
    fun event hevent addr haddr => ?_, fun event hevent => ?_⟩
  · rw [List.find?_eq_none]
    intro a ha hname
    exact hfree (List.mem_map.mpr ⟨a, ha, of_decide_eq_true hname⟩)
  · rcases List.mem_append.mp ha with hin | hlast
    · rw [hold a hin]
      exact h.checked a hin
    · rw [List.mem_singleton.mp hlast, hself]
      rfl
  · rcases List.mem_append.mp hevent with hin | hlast
    · exact List.mem_append_left _ (h.unit event hin addr haddr)
    · rw [List.mem_singleton.mp hlast] at haddr
      cases haddr
      exact mem_newUnitMask s.ums
  · rcases List.mem_append.mp hevent with hin | hlast
    · exact h.name event hin
    · rw [List.mem_singleton.mp hlast]
      intro name hname
      cases hname
      simp [timerEventName]

theorem finishLoad_checked {host : Host} (hbounded : Bounded s.ums) (hfirst : UsedFirst s.ums)
    (hunit : ∀ event ∈ s.events, ∀ addr ∈ event.unit, addr ∈ s.ums.umList)
    (hname : ∀ event ∈ s.events, ∀ name ∈ event.name, '/' ∉ name ∧ '.' ∉ name) (hok : finishLoad host s = .ok s') :
    ListsChecked s' := by
  unfold finishLoad at hok
  dsimp only at hok
  cases hchecks : s.ums.umList.mapM fun addr => checkUnitMask (s.ums.ums addr) with
  | error stop =>
    rw [hchecks] at hok
    cases hok
  | ok errs =>
    rw [hchecks] at hok
    dsimp only at hok
    split_ifs at hok with herrs htimer
    all_goals
      have hlists : ListsChecked s := ⟨hbounded, hfirst, mapM_checks hchecks herrs, hunit, hname⟩
    · cases hok
      exact hlists.filtered host.filter
    · split at hok
      · cases hok
      · split at hok
        · cases hok
        · next hnames =>
          cases hok
          exact (hlists.filtered host.filter).addTimer host (checkTimerNames_free hnames)

theorem loadEvents_checked {host : Host} {umFiles eventFiles : Text → Option (List Text)} {depth : Nat} {cpu : Text}
    (h : ListsChecked s) (hok : loadEvents host umFiles eventFiles depth cpu s = .ok s') : ListsChecked s' := by
  unfold loadEvents at hok
  split_ifs at hok with hloaded
  · cases hok
    exact h
  · cases hread : readUnitMasks umFiles depth cpu s.ums with
    | error stop =>
      rw [hread] at hok
      cases hok
    | ok ums =>
      rw [hread] at hok
      dsimp only at hok
      have hbounded := (readUnitMasks_reads umFiles depth cpu s.ums h.bounded).bounded ums hread
      have hfirst := readUnitMasks_usedFirst umFiles depth cpu s.ums ums h.first hread
      have hsound := readEvents_sound host.archCounterMask eventFiles depth cpu ⟨ums, []⟩
        ⟨Extends.refl hbounded, List.forall_mem_nil _⟩
      cases hevents : readEvents host.archCounterMask eventFiles depth cpu ⟨ums, []⟩ with
      | error stop =>
        rw [hevents] at hok
        cases hok
      | ok s₁ =>
        rw [hevents] at hok
        have hlists := hsound.2 s₁ hevents
        have hfirst₁ := readEvents_keeps (fun _ _ _ _ => unitFor_usedFirst) eventFiles depth cpu ⟨ums, []⟩ s₁ hfirst
          hevents
        have hunit : ∀ event ∈ s₁.events, ∀ addr ∈ event.unit, addr ∈ s₁.ums.umList := fun event hevent addr haddr =>
          ((hlists.events event hevent).unit addr haddr).1
        have hname : ∀ event ∈ s₁.events, ∀ name ∈ event.name, '/' ∉ name ∧ '.' ∉ name := fun event hevent =>
          (hlists.events event hevent).name
        exact finishLoad_checked hlists.table.bounded hfirst₁ hunit hname hok

variable {hosts : Text → Host} {umFiles eventFiles : Text → Option (List Text)} {depth : Nat}

theorem call_checked {call : Call} (h : ListsChecked s) (hok : call.run hosts umFiles eventFiles depth s = .ok s') :
    ListsChecked s' := by
  cases call with
  | events cpu =>
    obtain ⟨s₁, hload, heq⟩ := Results.map_ok hok
    cases heq
    exact (loadEvents_checked h hload).filtered _
  | find cpu => exact loadEvents_checked h hok
  | free =>
    cases hok
    exact ⟨⟨by simp, by simp, by simp⟩, ⟨List.nodup_nil, by simp, by simp⟩, by simp, by simp, by simp⟩

/-- The lists after some calls. -/
def runCalls (hosts : Text → Host) (umFiles eventFiles : Text → Option (List Text)) (depth : Nat) (calls : List Call) :
    Except LoadStop EventState :=
  calls.foldlM (Call.run hosts umFiles eventFiles depth) ⟨init, []⟩

theorem runCalls_checked (calls : List Call) :
    ∀ {s s' : EventState}, ListsChecked s → calls.foldlM (Call.run hosts umFiles eventFiles depth) s = .ok s' →
      ListsChecked s' := by
  induction calls with
  | nil =>
    intro s s' h hok
    cases hok
    exact h
  | cons call calls ih =>
    intro s s' h hok
    rw [List.foldlM_cons] at hok
    obtain ⟨s₁, hcall, hrest⟩ := Results.bind_ok hok
    exact ih (call_checked h hcall) hrest

theorem listsChecked_init : ListsChecked ⟨init, []⟩ :=
  ⟨bounded_init, usedFirst_init, by simp [init], by simp, by simp⟩

/-- After any calls no two unit masks have one name, each has passed its checks and is within its table, and every event
has a unit mask of the list, if any. -/
theorem runCalls_sound {calls : List Call} (hrun : runCalls hosts umFiles eventFiles depth calls = .ok s) :
    (s.ums.umList.map fun addr => (s.ums.ums addr).name).Nodup ∧
      (∀ addr ∈ s.ums.umList, checkUnitMask (s.ums.ums addr) = .ok false ∧ (s.ums.ums addr).used = true) ∧
      TablesSafe (.ok s.ums) ∧
      ∀ event ∈ s.events, (∀ addr ∈ event.unit, addr ∈ s.ums.umList) ∧ ∀ name ∈ event.name, '/' ∉ name ∧ '.' ∉ name := by
  have h := runCalls_checked calls listsChecked_init hrun
  refine ⟨h.names_nodup, fun addr haddr => ⟨h.checked addr haddr, used_of_checked (h.checked addr haddr)⟩,
    fun addr haddr => ⟨h.bounded.num_eq addr haddr, h.bounded.num_le addr haddr⟩,
    fun event hevent => ⟨h.unit event hevent, h.name event hevent⟩⟩

def pairHost (_ : Text) : Host := ⟨0xf, 0, false, 4⟩

theorem runCalls_sound_pair :
    ∃ s, runCalls pairHost pairUmFiles (filesOf pairDocs) 2 [.events ['c'], .find ['c'], .free, .find ['c']] = .ok s ∧
      (s.ums.umList.map fun addr => (s.ums.ums addr).name).Nodup := by
  have hok : (runCalls pairHost pairUmFiles (filesOf pairDocs) 2 [.events ['c'], .find ['c'], .free, .find ['c']]).toBool =
      true := by decide +kernel
  cases hrun : runCalls pairHost pairUmFiles (filesOf pairDocs) 2 [.events ['c'], .find ['c'], .free, .find ['c']] with
  | error stop =>
    rw [hrun] at hok
    cases hok
  | ok s => exact ⟨s, rfl, (runCalls_sound hrun).1⟩

end Oprofile.Libop.EventsFile
