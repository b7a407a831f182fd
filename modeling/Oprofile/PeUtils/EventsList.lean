import Oprofile.Library.CNumbers
import Oprofile.Library.Words
import Oprofile.SampleNames.Mangle

/-! The event specifications that `operf` and `ocount` use (`op_pe_utils.cpp`). -/
namespace Oprofile.PeUtils

open CNumbers
open SampleNames (Text)

def opMaxEvents : Nat := 24

def opMaxEvtNameLen : Nat := 64

def opMaxUmNameLen : Nat := 64

def opMaxUmNameStrLen : Nat := 17

/-- What `op_process_events_list` itself sets of `operf_event_t`. -/
structure OperfEvent where
  name : Text
  count : UInt64
  evtUm : UInt64
  umName : Text
  umNumericValAsStr : Text
  noKernel : Bool
  noUser : Bool
  throttled : Bool
  modeSpecified : Bool
  umaskSpecified : Bool
  deriving DecidableEq

/-- `strncpy(event.name, token, OP_MAX_EVT_NAME_LEN - 1)` into an array that nothing has cleared: `junk` is the
string that begins in its last byte. -/
def copyName (token junk : Text) : Text :=
  if token.length < opMaxEvtNameLen - 1 then token else token.take (opMaxEvtNameLen - 1) ++ junk

/-- One case of the `switch` over the place of an optional part. -/
def optionalPart (event : OperfEvent) (info : Text) (place : Nat) : OperfEvent :=
  match place with
  | 1 =>
    let (value, rest) := strtoul info
    if rest ≠ [] then
      { event with evtUm := 0, umaskSpecified := true, umName := info.take (opMaxUmNameLen - 1) }
    else
      let text := '0' :: 'x' :: Nat.toDigits 16 value
      -- an eighteenth character lands in `throttled`, which lies behind the array
      { event with
        evtUm := UInt64.ofNat value, umaskSpecified := true, umNumericValAsStr := text
        throttled := event.throttled || opMaxUmNameStrLen < text.length }
  | 2 => { event with modeSpecified := true, noKernel := event.noKernel || atoi info = 0 }
  | 3 => { event with modeSpecified := true, noUser := event.noUser || atoi info = 0 }
  | _ => event

/-- The loop over the parts that are left, with `place` counting up from `_OP_UM`. -/
def optionalParts (event : OperfEvent) : List Text → Nat → OperfEvent
  | [], _ => event
  | info :: parts, place => optionalParts (optionalPart event info place) parts (place + 1)

/-- An event before its optional parts. -/
def freshEvent (name : Text) (count : UInt64) : OperfEvent :=
  { name, count, evtUm := 0, umName := [], umNumericValAsStr := [], noKernel := false, noUser := false
    throttled := false, modeSpecified := false, umaskSpecified := false }

/-- What a round of `op_process_events_list` makes of a specification that `ophelp` has let pass. The words are what
`strtok` returns call after call; without one, a call of `strncpy` or `atoi` faults. -/
def opProcessEvent (doProfiling : Bool) (junk eventSpec : Text) : Option OperfEvent :=
  match Words.words ':' eventSpec, doProfiling with
  | [], _ => none
  | [_], true => none
  | name :: count :: parts, true =>
    some (optionalParts (freshEvent (copyName name junk) (atoi count).toInt64.toUInt64) parts 1)
  | name :: parts, false => some (optionalParts (freshEvent (copyName name junk) 0) parts 1)

/-- `op_process_events_list`: `ophelp` tells whether the command printed anything. -/
def opProcessEventsList (ophelp : Text → Bool) (junk : Text) (passedEvts : List Text) (doProfiling doCallgraph : Bool) :
    Except String (List OperfEvent) :=
  if opMaxEvents < passedEvts.length then
    .error ("Number of events specified is greater than allowed maximum of " ++ toString opMaxEvents ++ ".")
  else
    passedEvts.mapM fun eventSpec =>
      let command := "/ophelp --check-events ".toList ++ (if doProfiling then [] else "--ignore-count ".toList) ++
        (if doCallgraph then " --callgraph=1 ".toList else []) ++ eventSpec
      if ophelp command = false then .error ("Error retrieving info for event " ++ String.ofList eventSpec)
      else
        match opProcessEvent doProfiling junk eventSpec with
        | some event => .ok event
        | none => .error "Segmentation fault"

end Oprofile.PeUtils
