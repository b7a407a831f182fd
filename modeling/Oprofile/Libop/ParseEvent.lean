import Oprofile.Library.CNumbers
import Oprofile.SampleNames.Mangle

/-! The event specifications that `ophelp` checks (`op_parse_event.c`). -/
namespace Oprofile.Libop

open CNumbers
open SampleNames (Text)

/-- `next_part`: the part, if there is one, and where `*str` points after it. -/
def nextPart (str : Text) : Option Text × Text :=
  match str with
  | [] => (none, [])
  | c :: cs =>
    let str := if c = ':' then cs else c :: cs
    let part := str.takeWhile (· ≠ ':')
    if part = [] then (none, str) else (some part, str.dropWhile (· ≠ ':'))

structure ParsedEvent where
  name : Text
  count : Int32
  unitMask : Int32
  unitMaskName : Option Text
  kernel : Int32
  user : Int32
  unitMaskValid : Bool
  deriving DecidableEq

/-- `parse_ulong`; the message stands for the exit. -/
def parseUlong (str : Text) : Except String Int32 :=
  let (value, rest) := strtoul str
  if rest ≠ [] then .error ("Invalid event part " ++ String.ofList str) else .ok (Int32.ofNat value)

/-- An optional number: its default when there is no part. -/
def parseOptional (part : Option Text) (default : Int32) : Except String Int32 :=
  match part with
  | none => .ok default
  | some part => parseUlong part

/-- The unit mask by number or by name; only the first character decides which. -/
def parseUnitMask : Option Text → Except String (Int32 × Option Text × Bool)
  | none => .ok (0, none, false)
  | some part =>
    if (part.head?.any isDecimal) = true then
      match parseUlong part with
      | .ok mask => .ok (mask, none, true)
      | .error message => .error message
    else .ok (0, some part, true)

/-- The count, which is read only when it is checked. -/
def parseCount (event : Text) (checkCount : Bool) (cp : Text) : Except String (Int32 × Text) :=
  if checkCount then
    match nextPart cp with
    | (none, _) => .error ("Invalid count for event " ++ String.ofList event)
    | (some part, cp) =>
      match parseUlong part with
      | .ok count => .ok (count, cp)
      | .error message => .error message
  else .ok (0, cp)

/-- One round of `parse_events`. -/
def parseEvent (checkCount : Bool) (event : Text) : Except String ParsedEvent :=
  match nextPart event with
  | (none, cp) => .error ("Invalid event " ++ String.ofList cp)
  | (some name, cp) => do
    let (count, cp) ← parseCount event checkCount cp
    let (part, cp) := nextPart cp
    let (unitMask, unitMaskName, unitMaskValid) ← parseUnitMask part
    let (part, cp) := nextPart cp
    let kernel ← parseOptional part 1
    let (part, _) := nextPart cp
    let user ← parseOptional part 1
    return { name, count, unitMask, unitMaskName, kernel, user, unitMaskValid }

def timerEventName : Text := ['T', 'I', 'M', 'E', 'R']

/-- The loop of `parse_events` from event `i` on. -/
def parseLoop (maxEvents : Nat) (checkCount : Bool) : Nat → List Text → Except String (List ParsedEvent)
  | _, [] => .ok []
  | i, event :: events =>
    if maxEvents ≤ i then
      .error ("Too many events specified: CPU only has " ++ toString maxEvents ++ " counters.")
    else do
      let parsed ← parseEvent checkCount event
      let rest ← parseLoop maxEvents checkCount (i + 1) events
      return parsed :: rest

/-- `parse_events` -/
def parseEvents (maxEvents : Nat) (events : List Text) (checkCount : Bool) : Except String (List ParsedEvent) := do
  let parsed ← parseLoop maxEvents checkCount 0 events
  if 1 < parsed.length ∧ timerEventName ∈ parsed.map (·.name) then
    .error "TIMER event cannot be used in combination with hardware counters."
  else .ok parsed

end Oprofile.Libop
