import Oprofile.Library.Occurrences
import Oprofile.Library.Results
import Oprofile.SampleNames.ParseFilename

/-! The codes that perf_events has for the events of a ppc64 processor, asked from libpfm. -/
namespace Oprofile.PeUtils.EventCodes

open Occurrences
open SampleNames (Text)

def opMaxEvtNameLen : Nat := 64

/-- `NIL_CODE`. -/
def nilCode : UInt64 := 0xffffffff

/-- `operf_event_t`, its name and its code for perf_events. -/
structure OperfEvent where
  name : Text
  evtCode : UInt64
  fits : name.length < opMaxEvtNameLen

def cycles : Text := ['C', 'Y', 'C', 'L', 'E', 'S']
def pmCyc : Text := ['P', 'M', '_', 'C', 'Y', 'C']
def grp : Text := ['_', 'G', 'R', 'P']
def edgeCount : Text := ['_', 'E', 'D', 'G', 'E', '_', 'C', 'O', 'U', 'N', 'T']
def pmRunCyc : Text := ['P', 'M', '_', 'R', 'U', 'N', '_', 'C', 'Y', 'C']
def pmRunInstCmpl : Text := ['P', 'M', '_', 'R', 'U', 'N', '_', 'I', 'N', 'S', 'T', '_', 'C', 'M', 'P', 'L']

/-- `evt_name`, before the suffix of a pseudo event is looked for. -/
def groupName (name : Text) : Text :=
  if name = cycles then pmCyc else (beforeLast grp name).getD name

/-- Whether `edge_suffix_pos` is a position. -/
def isEdge (name : Text) : Bool := (beforeLast edgeCount (groupName name)).isSome

/-- `evt_name`, as libpfm is asked for it. -/
def evtName (name : Text) : Text := (beforeLast edgeCount (groupName name)).getD (groupName name)

/-- The message of the `runtime_error`. -/
def cannotFind (name : Text) : Text :=
  ['l', 'i', 'b', 'p', 'f', 'm', ' ', 'c', 'a', 'n', 'n', 'o', 't', ' ', 'f', 'i', 'n', 'd', ' ', 'e', 'v', 'e', 'n', 't',
    ' ', 'c', 'o', 'd', 'e', ' ', 'f', 'o', 'r', ' '] ++ name ++
  [';', ' ', 'c', 'a', 'n', 'n', 'o', 't', ' ', 'c', 'o', 'n', 't', 'i', 'n', 'u', 'e']

def unableToInitialize : Text :=
  ['U', 'n', 'a', 'b', 'l', 'e', ' ', 't', 'o', ' ', 'i', 'n', 'i', 't', 'i', 'a', 'l', 'i', 'z', 'e', ' ', 'l', 'i', 'b',
    'p', 'f', 'm', ';', ' ', 'c', 'a', 'n', 'n', 'o', 't', ' ', 'c', 'o', 'n', 't', 'i', 'n', 'u', 'e']

def unableToUse : Text :=
  ['U', 'n', 'a', 'b', 'l', 'e', ' ', 't', 'o', ' ', 'u', 's', 'e', ' ', 'l', 'i', 'b', 'p', 'f', 'm', ' ', 't', 'o', ' ',
    'o', 'b', 't', 'a', 'i', 'n', ' ', 'e', 'v', 'e', 'n', 't', ' ', 'c', 'o', 'd', 'e', ';', ' ', 'c', 'a', 'n', 'n',
    'o', 't', ' ', 'c', 'o', 'n', 't', 'i', 'n', 'u', 'e']

/-- The code, with the LSB for a rising edge. -/
def withEdge (edgeDetect : Bool) (code : UInt64) : UInt64 := if edgeDetect then code ||| 1 else code

/-- libpfm4, by what is called of it: `pfm_initialize` and `pfm_get_os_event_encoding`. -/
structure Libpfm4 where
  initialized : Bool
  osEventEncoding : Text → Option UInt64

/-- `_op_get_event_codes`, from the events of one round on. Every event that does not throw is counted as converted. -/
def opGetEventCodes (osEventEncoding : Text → Option UInt64) :
    Bool → List OperfEvent → Except Text (List OperfEvent)
  | _, [] => .ok []
  | edgeDetect, event :: events =>
    if event.evtCode ≠ nilCode then
      (opGetEventCodes osEventEncoding edgeDetect events).map (event :: ·)
    else
      match osEventEncoding (evtName event.name) with
      | none => .error (cannotFind event.name)
      | some code =>
        (opGetEventCodes osEventEncoding (edgeDetect || isEdge event.name) events).map
          ({ event with evtCode := withEdge (edgeDetect || isEdge event.name) code } :: ·)

/-- An event of libpfm3's table: what `pfm_get_event_name` and `pfm_get_event_code` have for its index. -/
structure PfmEvent where
  name : Option Text
  code : Option Int32

structure Libpfm3 where
  initialized : Bool
  /-- `pfm_get_num_events` and the events. -/
  events : Option (List PfmEvent)

/-- `event.evt_code = tmp_code`. -/
def widen (code : Int32) : UInt64 := code.toInt64.toUInt64

/-- `_get_codes_for_match`, from the events of one round on, and how many are converted. -/
def getCodesForMatch (name : Text) (code : Option Int32) :
    Bool → List OperfEvent → Except Text (List OperfEvent × Nat)
  | _, [] => .ok ([], 0)
  | edgeDetect, event :: events =>
    if event.evtCode ≠ nilCode then
      (getCodesForMatch name code edgeDetect events).map fun r => (event :: r.1, r.2 + 1)
    else if name.take opMaxEvtNameLen ≠ (evtName event.name).take opMaxEvtNameLen then
      (getCodesForMatch name code (edgeDetect || isEdge event.name) events).map fun r => (event :: r.1, r.2)
    else
      match code with
      | none => .error (cannotFind event.name)
      | some tmpCode =>
        (getCodesForMatch name code (edgeDetect || isEdge event.name) events).map fun r =>
          ({ event with evtCode := withEdge (edgeDetect || isEdge event.name) (widen tmpCode) } :: r.1, r.2 + 1)

/-- The loop over libpfm3's table; it is left early when all events are converted. -/
def matchTable : List PfmEvent → List OperfEvent → Except Text (List OperfEvent × Bool)
  | [], events => .ok (events, false)
  | pfmEvent :: table, events =>
    match pfmEvent.name with
    | none => matchTable table events
    | some name =>
      match getCodesForMatch name pfmEvent.code false events with
      | .error msg => .error msg
      | .ok (events', converted) =>
        if converted = events.length then .ok (events', true) else matchTable table events'

/-- The code of a POWER7 run latch event. -/
def runLatchCode (power7 : Bool) (name : Text) : Option UInt64 :=
  if power7 then
    if pmRunCyc <+: name then some 0x600f4
    else if pmRunInstCmpl <+: name then some 0x500fa
    else none
  else none

def presetCode (power7 : Bool) (event : OperfEvent) : OperfEvent :=
  { event with evtCode := (runLatchCode power7 event.name).getD nilCode }

/-- `convert_event_vals` with libpfm4. -/
def convertEventVals (pfm : Libpfm4) (power7 : Bool) (evtVec : List OperfEvent) : Except Text (List OperfEvent) :=
  if pfm.initialized then opGetEventCodes pfm.osEventEncoding false (evtVec.map (presetCode power7))
  else .error unableToInitialize

/-- `convert_event_vals` with libpfm3, and what it returns. -/
def convertEventVals3 (pfm : Libpfm3) (power7 : Bool) (evtVec : List OperfEvent) :
    Except Text (List OperfEvent × Bool) :=
  if pfm.initialized then
    match pfm.events with
    | none => .error unableToUse
    | some table => matchTable table (evtVec.map (presetCode power7))
  else .error unableToInitialize

end Oprofile.PeUtils.EventCodes
