import Oprofile.Libop.UnitMaskBounds
import Oprofile.SampleNames.Mangle

/-! Reading the events files (`op_events.c`). -/
namespace Oprofile.Libop.EventsFile

open SampleNames (Text printD)
open CNumbers
open UnitMasks (UnitMaskType maxUnitMask)
open UnitMaskFiles UnitMaskFiles.UmState

/-! ### Numbers and tokens -/

/-- `parse_int` -/
def parseInt (str : Text) : Except UmStop Int32 :=
  if (splitSign (str.dropWhile isSpace)).2.takeWhile (isDigitOf 10) = [] then
    .error (.exit "expected decimal value")
  else .ok (atoi str)

/-- The bit of a counter. The count of the shift is taken modulo 32. -/
def counterBit (n : Int32) : UInt32 := (1 : UInt32) <<< n.toUInt32

/-- The loop of `parse_counter_mask`, whose rounds are at most as many as the characters. -/
def parseCounterMaskLoop : Nat → UInt32 → Text → Except UmStop UInt32
  | 0, mask, _ => .ok mask
  | _, mask, [] => .ok mask
  | rounds + 1, mask, c :: numstart =>
    match parseInt (c :: numstart) with
    | .error stop => .error stop
    | .ok n =>
      parseCounterMaskLoop rounds (mask ||| counterBit n) (skipWs (((c :: numstart).dropWhile (· ≠ ',')).drop 1))

/-- `parse_counter_mask` -/
def parseCounterMask (str : Text) : Except UmStop UInt32 := parseCounterMaskLoop (str.length + 1) 0 str

/-- The tags that `read_events` knows. -/
inductive EventTag
  | name | event | counters | ext | um | minimum | desc | filter | includes
  deriving DecidableEq

namespace EventTag

def text : EventTag → Text
  | name => ['n', 'a', 'm', 'e']
  | event => ['e', 'v', 'e', 'n', 't']
  | counters => ['c', 'o', 'u', 'n', 't', 'e', 'r', 's']
  | ext => ['e', 'x', 't']
  | um => ['u', 'm']
  | minimum => ['m', 'i', 'n', 'i', 'm', 'u', 'm']
  | desc => ['d', 'e', 's', 'c']
  | filter => ['f', 'i', 'l', 't', 'e', 'r']
  | includes => ['i', 'n', 'c', 'l', 'u', 'd', 'e']

/-- In the order in which `read_events` compares with them. -/
def all : List EventTag := [name, event, counters, ext, um, minimum, desc, filter, includes]

def ofText (name : Text) : Option EventTag := all.find? fun tag => tag.text = name

/-- The tags that have a flag `seen_…`. -/
def once : EventTag → Bool
  | desc | filter | includes => false
  | _ => true

end EventTag

/-- `next_token`: name, value and what is behind them, or nothing at the end of the line. -/
def nextToken (cp : Text) : Except UmStop (Option (Text × Text × Text)) :=
  let c := skipWs cp
  let stop := skipNonws c
  let colon := c.dropWhile (· ≠ ':')
  if colon = [] then
    if c = [] then .ok none else .error (.exit "next_token(): garbage at end of line")
  else if colon.length ≤ stop.length then .error (.exit "next_token() expected ':'")
  else
    let tagLen := c.length - colon.length
    let valLen := colon.length - 1 - stop.length
    if tagLen = 0 then .ok (some (EventTag.desc.text, skipWs stop, []))
    else .ok (some (c.take tagLen, (colon.drop 1).take valLen, skipWs stop))

/-! ### Events -/

/-- `op_event`; the unit mask is given by its address. -/
structure OpEvent where
  counterMask : UInt32
  val : UInt32
  unit : Option Nat
  name : Option Text
  desc : Option Text
  minCount : Int32
  filter : Int32
  ext : Option Text
  deriving DecidableEq

/-- `new_event`, and what `read_events` sets at once. -/
def newEvent : OpEvent := ⟨0, 0, none, none, none, 0, -1, none⟩

/-- `um_list` and `events_list`. -/
structure EventState where
  ums : UmState
  events : List OpEvent

/-- An event is on the list from its first tag on; what is read of its line does not look at the list. -/
def EventState.add (s : EventState) (event : OpEvent) : EventState := { s with events := s.events ++ [event] }

/-- The unit mask for a tag `um:`. -/
def unitFor (ums : UmState) (value : Text) : Except UmStop (Nat × UmState) :=
  if ',' ∈ value then ums.mergeUm value else ums.findUm value

/-- What a tag stores, but for `include:`. -/
def storeTag (archCounterMask : UInt32) (tag : EventTag) (value : Text) (event : OpEvent) (ums : UmState) :
    Except UmStop (OpEvent × UmState) :=
  match tag with
  | .name =>
    if '/' ∈ value then .error (.exit "invalid event name")
    else if '.' ∈ value then .error (.exit "invalid event name")
    else .ok ({ event with name := some value }, ums)
  | .event => (parseHex value).map fun val => ({ event with val }, ums)
  | .counters =>
    if value = ['c', 'p', 'u', 'i', 'd'] then .ok ({ event with counterMask := archCounterMask }, ums)
    else (parseCounterMask value).map fun counterMask => ({ event with counterMask }, ums)
  | .ext => .ok ({ event with ext := some value }, ums)
  | .um => (unitFor ums value).map fun found => ({ event with unit := some found.1 }, found.2)
  | .minimum => (parseInt value).map fun minCount => ({ event with minCount }, ums)
  | .desc => .ok ({ event with desc := some value }, ums)
  | .filter => (parseInt value).map fun filter => ({ event with filter }, ums)
  | .includes => .ok (event, ums)

/-- The text behind an `include:` is blank, or a comment. -/
def endsInclude (c : Text) : Bool := (skipWs c).head?.all (· = '#')

/-- The loop of `read_events` over the tokens of a line; `tags` are those before, for `seen_…` and `tags`. The event of
an include line is freed, the others are kept. -/
def readTags (archCounterMask : UInt32) (included : Text → EventState → Except UmStop EventState) :
    Nat → List EventTag → OpEvent → Text → EventState → Except UmStop EventState
  | 0, _, event, _, s => .ok (s.add event)
  | rounds + 1, tags, event, c, s =>
    match nextToken c with
    | .error stop => .error stop
    | .ok none => .ok (s.add event)
    | .ok (some (name, value, c)) =>
      match EventTag.ofText name with
      | none => .error (.exit "unknown tag")
      | some tag =>
        if tag.once ∧ tag ∈ tags then .error (.exit ("duplicate " ++ String.ofList tag.text ++ ": tag"))
        else if tag = .includes then
          if tags ≠ [] then .error (.exit "tags before include:")
          else
            match included value s with
            | .error stop => .error stop
            | .ok s => if endsInclude c then .ok s else .error (.exit "non whitespace after include:")
        else
          match storeTag archCounterMask tag value event s.ums with
          | .error stop => .error stop
          | .ok (event, ums) => readTags archCounterMask included rounds (tag :: tags) event c { s with ums }

/-- The loop of `read_events` over the lines; `included` reads the file of an include line. -/
def readLines (archCounterMask : UInt32) (included : Text → EventState → Except UmStop EventState) :
    List Text → EventState → Except UmStop EventState
  | [], s => .ok s
  | line :: lines, s =>
    if emptyLine line || commentLine line then readLines archCounterMask included lines s
    else
      match readTags archCounterMask included (line.length + 1) [] newEvent line s with
      | .error stop => .error stop
      | .ok s => readLines archCounterMask included lines s

/-- `read_events`, for the lines that `op_get_line` returns of the file of a processor; so many more files can be
opened. -/
def readEvents (archCounterMask : UInt32) (files : Text → Option (List Text)) :
    Nat → Text → EventState → Except UmStop EventState
  | 0, _, _ => .error (.exit "could not open event description file")
  | depth + 1, cpu, s =>
    match files cpu with
    | none => .error (.exit "could not open event description file")
    | some lines => readLines archCounterMask (readEvents archCounterMask files depth) lines s

/-- `load_events_name` -/
def loadEventsName (archCounterMask : UInt32) (umFiles eventFiles : Text → Option (List Text)) (depth : Nat) (cpu : Text) :
    Except UmStop EventState :=
  match readUnitMasks umFiles depth cpu init with
  | .error stop => .error stop
  | .ok ums => readEvents archCounterMask eventFiles depth cpu ⟨ums, []⟩

/-! ### Descriptions of events files -/

/-- Text without blanks. -/
abbrev Word := { w : Text // ∀ c ∈ w, isBlank c = false }

abbrev Blanks := { w : Text // ∀ c ∈ w, isBlank c = true }

/-- The counters of an event: those of the processor, or some. -/
inductive Counters
  | cpuid
  | numbers (numbers : List (Fin 32))

/-- Numbers with commas between them. -/
def numbersText : List (Fin 32) → Text
  | [] => []
  | [n] => Nat.toDigits 10 n
  | n :: m :: numbers => Nat.toDigits 10 n ++ ',' :: numbersText (m :: numbers)

def numberBit (n : Fin 32) : UInt32 := (1 : UInt32) <<< UInt32.ofNat n.val

def numbersMask (numbers : List (Fin 32)) : UInt32 := numbers.foldl (fun mask n => mask ||| numberBit n) 0

def Counters.text : Counters → Text
  | cpuid => ['c', 'p', 'u', 'i', 'd']
  | numbers ns => numbersText ns

def Counters.mask (archCounterMask : UInt32) : Counters → UInt32
  | cpuid => archCounterMask
  | numbers ns => numbersMask ns

/-- What a line says of an event. -/
structure EventSpec where
  name : Option { w : Word // '/' ∉ w.1 ∧ '.' ∉ w.1 }
  val : Option UInt32
  counters : Option Counters
  ext : Option Word
  um : Option Word
  minimum : Option Int32
  filter : Option Int32
  desc : Option { d : Text // d.head?.all (!isBlank ·) = true }

namespace EventSpec

/-- The value of a tag, if the line has it. -/
def value (spec : EventSpec) : EventTag → Option Text
  | .name => spec.name.map fun name => name.1.1
  | .event => spec.val.map fun val => '0' :: 'x' :: Nat.toDigits 16 val.toNat
  | .counters => spec.counters.map Counters.text
  | .ext => spec.ext.map Subtype.val
  | .um => spec.um.map Subtype.val
  | .minimum => spec.minimum.map printD
  | .filter => spec.filter.map printD
  | .desc => none
  | .includes => none

/-- The event with its unit mask. -/
def event (archCounterMask : UInt32) (spec : EventSpec) (unit : Option Nat) : OpEvent where
  counterMask := (spec.counters.map (Counters.mask archCounterMask)).getD 0
  val := spec.val.getD 0
  unit
  name := spec.name.map fun name => name.1.1
  desc := spec.desc.map Subtype.val
  minCount := spec.minimum.getD 0
  filter := spec.filter.getD (-1)
  ext := spec.ext.map Subtype.val

end EventSpec

/-- Blanks separate the tags from each other, and from the description if there is one. -/
def Separated (undescribed : Bool) : List (EventTag × Blanks) → Prop
  | [] => True
  | (_, gap) :: order => (gap.1 ≠ [] ∨ order = [] ∧ undescribed = true) ∧ Separated undescribed order

/-- A line for an event: its tags in some order, with the blanks behind each, and the description. -/
structure EventLine where
  spec : EventSpec
  lead : Blanks
  order : List (EventTag × Blanks)
  descLead : Blanks
  nodup : (order.map Prod.fst).Nodup
  complete : ∀ tag, tag ∈ order.map Prod.fst ↔ (spec.value tag).isSome = true
  separated : Separated spec.desc.isNone order
  nonempty : order ≠ [] ∨ spec.desc.isSome = true

/-- The text of tags in an order, and what is behind them. -/
def orderText (spec : EventSpec) (tail : Text) : List (EventTag × Blanks) → Text
  | [] => tail
  | (tag, gap) :: order => tag.text ++ ':' :: ((spec.value tag).getD [] ++ (gap.1 ++ orderText spec tail order))

def EventLine.descText (line : EventLine) : Text :=
  (line.spec.desc.map fun desc => ':' :: ' ' :: (line.descLead.1 ++ desc.1)).getD []

def EventLine.text (line : EventLine) : Text := line.lead.1 ++ orderText line.spec line.descText line.order

/-- A line of an events file. -/
inductive Item
  | skipped (line : { l : Text // (emptyLine l || commentLine l) = true })
  | event (line : EventLine)
  | includes (lead : Blanks) (cpu : Word) (trail : { t : Text // t.head?.all isBlank = true ∧ endsInclude t = true })

def Item.text : Item → Text
  | skipped line => line.1
  | event line => line.text
  | includes lead cpu trail => lead.1 ++ (EventTag.includes.text ++ ':' :: (cpu.1 ++ trail.1))

/-- The events of a file, when those of the files it includes are known. -/
def specsIn (included : Text → Option (List EventSpec)) : List Item → Option (List EventSpec)
  | [] => some []
  | .skipped _ :: items => specsIn included items
  | .event line :: items => (specsIn included items).map (line.spec :: ·)
  | .includes _ cpu _ :: items =>
    (included cpu.1).bind fun specs => (specsIn included items).map (specs ++ ·)

/-- The events of the file of a processor, where files are opened no deeper than this. -/
def specsOf (docs : Text → Option (List Item)) : Nat → Text → Option (List EventSpec)
  | 0, _ => none
  | depth + 1, cpu => (docs cpu).bind (specsIn (specsOf docs depth))

/-- The files as they are read. -/
def filesOf (docs : Text → Option (List Item)) (cpu : Text) : Option (List Text) := (docs cpu).map (List.map Item.text)

/-- An event whose unit mask has still to be found. -/
def EventSpec.resolve (archCounterMask : UInt32) (spec : EventSpec) (unit : Option Nat) (s : EventState) :
    Option Word → Except UmStop EventState
  | none => .ok (s.add (spec.event archCounterMask unit))
  | some value => (unitFor s.ums value.1).map fun found =>
      EventState.add { s with ums := found.2 } (spec.event archCounterMask (some found.1))

/-- Events one after the other, each with its unit mask. -/
def addEvents (archCounterMask : UInt32) : List EventSpec → EventState → Except UmStop EventState
  | [], s => .ok s
  | spec :: specs, s => (spec.resolve archCounterMask none s spec.um).bind (addEvents archCounterMask specs)

end Oprofile.Libop.EventsFile
