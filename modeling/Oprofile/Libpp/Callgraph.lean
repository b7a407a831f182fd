import Oprofile.Library.Sorting
import Oprofile.Libpp.ProfileContainer

/-! Arcs between callers and callees (`callgraph_container.cpp`). -/
namespace Oprofile.Libpp

open SampleNames Libutilpp

/-- A key holds the offset of the caller over that of the callee. -/
def callerToKey (value : UInt32) : UInt64 := value.toUInt64 <<< 32

def keyToCallee (key : UInt64) : UInt32 := key.toUInt32

/-- What `callee_sym` finds for an offset. -/
inductive CalleeSym
  /-- There are no symbols at all. -/
  | abort
  | dropped
  | found (i : Nat) (calleeEnd : UInt32)
  deriving DecidableEq

/-- `upper_bound` over sorted symbols: how many start at or before an offset. -/
def upperBound (syms : List OpBfdSymbol) (offset : UInt64) : Nat :=
  (syms.takeWhile fun s => s.filepos ≤ offset).length

/-- `get_symbol_by_filepos` and `callee_end`. -/
def calleeSym (bfd : OpBfd) (boffset off : UInt32) : CalleeSym :=
  let offset := off.toUInt64 + boffset.toUInt64
  let i := upperBound bfd.syms offset - 1
  match bfd.syms[i]? with
  | none => .abort
  | some it =>
    if (it.symbSize + it.filepos).toUInt32.toUInt64 ≤ offset then .dropped
    else .found i (it.symbSize + it.filepos - boffset.toUInt64).toUInt32

/-- `accumulate_callee`: the samples it counts, and those behind; nothing when it aborts because it counts
none. -/
def accumulateCallee (calleeEnd : UInt32) (samples : List Sample) : Option (List Sample × List Sample) :=
  let (taken, rest) := samples.span fun s => keyToCallee s.1 < calleeEnd
  if taken = [] then none else some (taken, rest)

theorem accumulateCallee_some {calleeEnd : UInt32} {samples taken rest : List Sample}
    (h : accumulateCallee calleeEnd samples = some (taken, rest)) :
    taken = samples.takeWhile (fun s => keyToCallee s.1 < calleeEnd) ∧
    rest = samples.dropWhile (fun s => keyToCallee s.1 < calleeEnd) ∧ taken ≠ [] := by
  rw [accumulateCallee, List.span_eq_takeWhile_dropWhile] at h
  simp only at h
  split_ifs at h with hnil
  cases h
  exact ⟨rfl, rfl, hnil⟩

theorem accumulateCallee_length {calleeEnd : UInt32} {it : Sample} {samples taken rest : List Sample}
    (h : accumulateCallee calleeEnd (it :: samples) = some (taken, rest)) : rest.length < samples.length + 1 := by
  obtain ⟨htaken, hrest, hne⟩ := accumulateCallee_some h
  have hboth := congrArg List.length
    (List.takeWhile_append_dropWhile (p := fun s => keyToCallee s.1 < calleeEnd) (l := it :: samples))
  rw [List.length_append, ← htaken, ← hrest, List.length_cons] at hboth
  have hpos := List.length_pos_iff.mpr hne
  omega

/-- The inner loop of `add`: each callee with the samples counted for it. -/
def arcsOf (bfd : OpBfd) (boffset : UInt32) : List Sample → Option (List (Nat × List Sample))
  | [] => some []
  | it :: samples =>
    match calleeSym bfd boffset (keyToCallee it.1) with
    | .abort => none
    | .dropped => arcsOf bfd boffset samples
    | .found i calleeEnd =>
      match _h : accumulateCallee calleeEnd (it :: samples) with
      | none => none
      | some (taken, rest) => (arcsOf bfd boffset rest).map ((i, taken) :: ·)
termination_by samples => samples.length
decreasing_by
  · exact Nat.lt_succ_self _
  · exact accumulateCallee_length _h

/-- The order in which `caller_sym` puts the samples. -/
abbrev CalleeSort := Sorting.QSort fun a b : Sample => keyToCallee a.1 ≤ keyToCallee b.1

/-- The samples that `caller_sym` selects for a symbol; nothing when `samples_range` throws. -/
def callerSamples (sort : CalleeSort) (profile : Profile) (bfd : OpBfd) (boffset : UInt32) (sym : OpBfdSymbol) :
    Option (List Sample) :=
  let (start, last) := bfd.getSymbolRange sym
  if boffset.toUInt64 < start then
    (profile.samplesRange (callerToKey (start - boffset.toUInt64).toUInt32)
      (callerToKey (last - boffset.toUInt64).toUInt32)).map sort.sort
  else some []

/-- One call of the recorder: the places of caller and callee among the symbols, and the samples whose
counts the arc gets. -/
structure ArcCall where
  caller : Nat
  callee : Nat
  samples : List Sample
  deriving DecidableEq

/-- The loop of `add` over the symbols of the caller from `i` on. -/
def callerArcs (sort : CalleeSort) (profile : Profile) (callerBfd calleeBfd : OpBfd)
    (callerOffset calleeOffset : UInt32) : Nat → List OpBfdSymbol → Option (List ArcCall)
  | _, [] => some []
  | i, sym :: syms => do
    let samples ← callerSamples sort profile callerBfd callerOffset sym
    let arcs ← arcsOf calleeBfd calleeOffset samples
    let rest ← callerArcs sort profile callerBfd calleeBfd callerOffset calleeOffset (i + 1) syms
    some (arcs.map (fun arc => ⟨i, arc.1, arc.2⟩) ++ rest)

/-- The start offset of the caller and that of the callee. -/
def callerOffset (profile : Profile) (bfd : OpBfd) : UInt32 :=
  if profile.fileHeader.isKernel ≠ 0 then bfd.startOffset.toUInt32 else profile.fileHeader.anonStart.toUInt32

def calleeOffset (profile : Profile) (bfd : OpBfd) : UInt32 :=
  if profile.fileHeader.cgToIsKernel ≠ 0 then bfd.startOffset.toUInt32
  else profile.fileHeader.cgToAnonStart.toUInt32

/-- `callgraph_container::add` up to what it calls the recorder with; nothing when it aborts or throws. -/
def arcCalls (sort : CalleeSort) (profile : Profile) (callerBfd : OpBfd) (callerBfdOk : Bool) (calleeBfd : OpBfd) :
    Option (List ArcCall) :=
  if profile.fileHeader.isKernel ≠ 0 ∧ callerBfdOk = false then some []
  else
    callerArcs sort profile callerBfd calleeBfd (callerOffset profile callerBfd) (calleeOffset profile calleeBfd)
      0 callerBfd.syms

/-! The recorder. -/

/-- A symbol's entry in a map ordered by `less_symbol`, changed or made. -/
def updateSymbol {V : Type} (symbol : SymbolEntry) (f : V → V) (init : V) :
    List (SymbolEntry × V) → List (SymbolEntry × V)
  | [] => [(symbol, f init)]
  | (s, v) :: map => if SameSymbol s symbol then (s, f v) :: map else (s, v) :: updateSymbol symbol f init map

def findSymbol {V : Type} (symbol : SymbolEntry) (map : List (SymbolEntry × V)) : Option V :=
  (map.find? fun e => SameSymbol e.1 symbol).map Prod.snd

structure CgData where
  callers : List (SymbolEntry × CountArray)
  callees : List (SymbolEntry × CountArray)
  deriving DecidableEq

abbrev SymMap := List (SymbolEntry × CgData)

/-- `arc_recorder::add` with a callee. -/
def recordArc (symMap : SymMap) (caller callee : SymbolEntry) (arcCount : CountArray) : SymMap :=
  let symMap := updateSymbol caller
    (fun data => { data with callees := updateSymbol callee (CountArray.add · arcCount) .empty data.callees })
    ⟨[], []⟩ symMap
  updateSymbol callee
    (fun data => { data with callers := updateSymbol caller (CountArray.add · arcCount) .empty data.callers })
    ⟨[], []⟩ symMap

/-- `callgraph_container::add`: the recorder's map after the calls, the symbols given by their entries. -/
def callgraphAdd (sort : CalleeSort) (profile : Profile) (callerBfd : OpBfd) (callerBfdOk : Bool)
    (calleeBfd : OpBfd) (pclass : UInt32) (callers callees : Nat → SymbolEntry) (symMap : SymMap) :
    Option SymMap :=
  (arcCalls sort profile callerBfd callerBfdOk calleeBfd).map fun calls =>
    calls.foldl (fun symMap call =>
      recordArc symMap (callers call.caller) (callees call.callee)
        (CountArray.empty.set pclass (accumulate call.samples))) symMap

end Oprofile.Libpp
