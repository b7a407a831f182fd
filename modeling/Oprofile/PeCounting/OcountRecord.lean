import Oprofile.PeUtils.EventsList
import Mathlib.Data.Rat.Defs
import Mathlib.Logic.Function.Basic

/-! The counters of `ocount` and its reports (`ocount_counter.cpp`). A vector is a function of its index. -/
namespace Oprofile.PeCounting

open PeUtils (OperfEvent)
open SampleNames (Text)

/-- `ocount_accum_t` -/
structure OcountAccum where
  count : UInt64
  enabledTime : UInt64
  runningTime : UInt64
  deriving DecidableEq

/-- An open `ocount_counter`. -/
structure OcountCounter where
  event : OperfEvent
  cpu : Int32
  pid : Int32
  deriving DecidableEq

/-- The fields of an `ocount_record` that the reports read or change. -/
structure OcountRecord where
  evts : List OperfEvent
  perfCounters : List OcountCounter
  cpusToCount : List Int32
  accumCounts : Nat → OcountAccum
  prevAccumCounts : Nat → UInt64
  withTimeInterval : Bool

/-- `do_counting_per_task`, every counter opened. -/
def doCountingPerTask (evts : List OperfEvent) (tasksToCount : List Int32) (withTimeInterval : Bool) :
    OcountRecord where
  evts := evts
  perfCounters := tasksToCount.flatMap fun pid => evts.map fun event => ⟨event, -1, pid⟩
  cpusToCount := []
  accumCounts := fun _ => ⟨0, 0, 0⟩
  prevAccumCounts := fun _ => 0
  withTimeInterval := withTimeInterval

/-- `do_counting_per_cpu`, every counter opened. -/
def doCountingPerCpu (evts : List OperfEvent) (cpusToCount : List Int32) (withTimeInterval : Bool) :
    OcountRecord where
  evts := evts
  perfCounters := cpusToCount.flatMap fun cpu => evts.map fun event => ⟨event, cpu, -1⟩
  cpusToCount := cpusToCount
  accumCounts := fun _ => ⟨0, 0, 0⟩
  prevAccumCounts := fun _ => 0
  withTimeInterval := withTimeInterval

/-- `print_mask_modes` -/
def printMaskModes (modeSpecified umSpecified noKernel noUser : Bool) (umNumericAsStr umaskValue : Text) : Text :=
  (if umSpecified then ':' :: (if umaskValue.length = 0 then umNumericAsStr else umaskValue) else []) ++
    if modeSpecified then
      (if noKernel then [':', '0'] else [':', '1']) ++ (if noUser then [':', '0'] else [':', '1'])
    else []

/-- What a counter has printed behind its event name. -/
def OcountCounter.qualifier (c : OcountCounter) : Text :=
  printMaskModes c.event.modeSpecified c.event.umaskSpecified c.event.noKernel c.event.noUser
    c.event.umNumericValAsStr c.event.umName

/-- A line of a report, before the count is scaled. -/
structure Line where
  element : Option Int32
  eventName : Text
  qualifier : Text
  count : UInt64
  fractionTimeRunning : ℚ
  counted : Bool
  deriving DecidableEq

/-- `scaled ? (double)running_time/enabled_time : 1` -/
def fractionTimeRunning (scaled : Bool) (accum : OcountAccum) : ℚ :=
  if scaled then accum.runningTime.toNat / accum.enabledTime.toNat else 1

section

variable (aboveOnePercent : UInt64 → UInt64 → Bool)

/-- Whether the readings of one counter ask for scaling; the quotient of doubles is a parameter. -/
def needsScaling (accum : OcountAccum) : Bool :=
  accum.enabledTime ≠ accum.runningTime &&
    aboveOnePercent (accum.enabledTime - accum.runningTime) accum.enabledTime

/-- The loop that resets the counts at the start of an interval. -/
def resetCounts (r : OcountRecord) : OcountRecord :=
  (List.range r.evts.length).foldl (fun r i =>
    { r with accumCounts := Function.update r.accumCounts i { r.accumCounts i with count := 0 } }) r

/-- One round of the loop over the counters. -/
def collect (readings : Nat → OcountAccum) (useSeparation : Bool) (s : OcountRecord × Bool) (ocounter : Nat) :
    OcountRecord × Bool :=
  let (r, scaled) := s
  let evtKey := ocounter % r.evts.length
  let tmpAccum := readings ocounter
  let r :=
    if !useSeparation then
      let realAccum := r.accumCounts evtKey
      { r with
        accumCounts := Function.update r.accumCounts evtKey
          { count := realAccum.count + tmpAccum.count
            enabledTime := realAccum.enabledTime + tmpAccum.enabledTime
            runningTime := realAccum.runningTime + tmpAccum.runningTime } }
    else r
  (r, scaled || needsScaling aboveOnePercent tmpAccum)

/-- The loop that turns the sums into differences to the report before. -/
def takeDifferences (r : OcountRecord) : OcountRecord :=
  (List.range r.evts.length).foldl (fun r i =>
    let realAccum := r.accumCounts i
    { r with
      prevAccumCounts := Function.update r.prevAccumCounts i realAccum.count
      accumCounts := Function.update r.accumCounts i
        { realAccum with count := realAccum.count - r.prevAccumCounts i } }) r

/-- One round of the loop that `output_short_results` and `output_long_results` share. -/
def resultLine (readings : Nat → OcountAccum) (useSeparation scaled : Bool) (r : OcountRecord) (num : Nat)
    (counter : OcountCounter) : OcountRecord × Line :=
  if useSeparation then
    let tmpAccum := readings num
    let element := if r.cpusToCount.length ≠ 0 then counter.cpu else counter.pid
    let (r, count) :=
      if r.withTimeInterval then
        ({ r with prevAccumCounts := Function.update r.prevAccumCounts num tmpAccum.count },
          tmpAccum.count - r.prevAccumCounts num)
      else (r, tmpAccum.count)
    (r, ⟨some element, counter.event.name, counter.qualifier, count, fractionTimeRunning scaled tmpAccum,
      tmpAccum.enabledTime ≠ 0⟩)
  else
    let accum := r.accumCounts num
    (r, ⟨none, counter.event.name, counter.qualifier, accum.count, fractionTimeRunning scaled accum,
      accum.enabledTime ≠ 0⟩)

/-- A round of that loop, with what is printed so far. -/
def addLine (readings : Nat → OcountAccum) (useSeparation scaled : Bool) (s : OcountRecord × List Line)
    (c : OcountCounter × Nat) : OcountRecord × List Line :=
  let round := resultLine readings useSeparation scaled s.1 c.2 c.1
  (round.1, s.2 ++ [round.2])

/-- The lines of `output_short_results` and `output_long_results`. -/
def resultLines (readings : Nat → OcountAccum) (useSeparation scaled : Bool) (r : OcountRecord) :
    OcountRecord × List Line :=
  let numIterations := if useSeparation then r.perfCounters.length else r.evts.length
  (r.perfCounters.take numIterations).zipIdx.foldl (addLine readings useSeparation scaled) (r, [])

/-- `output_results` -/
def outputResults (readings : Nat → OcountAccum) (useSeparation : Bool) (r : OcountRecord) :
    OcountRecord × List Line :=
  let r := if r.withTimeInterval then resetCounts r else r
  let (r, scaled) :=
    (List.range r.perfCounters.length).foldl (collect aboveOnePercent readings useSeparation) (r, false)
  let r := if r.withTimeInterval && !useSeparation then takeDifferences r else r
  resultLines readings useSeparation scaled r

end

end Oprofile.PeCounting
