import Oprofile.JitDump.Agent

/-! The JIT dump as the converter reads it (`parse_dump.c`, and the loop over the entries of a line
table in `debug_line.c`). A pointer into the mapped file is the distance from its start. -/
namespace Oprofile.JitDump

open Records

/-- The structure at a place, if the file has all of it. -/
def structAt {α : Type} (c : Format α) (file : List UInt8) (ptr : Nat) : Option α :=
  if ptr + c.width ≤ file.length then some (c.decode (file.drop ptr)) else none

/-- The characters of the string at a place, if it ends in the file. -/
def stringAt (file : List UInt8) (ptr : Nat) : Option (List UInt8) :=
  if 0 ∈ file.drop ptr then some ((file.drop ptr).takeWhile (· ≠ 0)) else none

structure JitEntry where
  vma : UInt64
  code : Option Nat
  codeSize : Int32
  symbolName : Nat
  lifeStart : UInt64
  lifeEnd : UInt64
  deriving DecidableEq

structure JitEntryDebugLine where
  data : Nat
  lifeStart : UInt64
  lifeEnd : UInt64
  stop : Nat
  deriving DecidableEq

inductive ConvResult
  | ok | fail
  deriving DecidableEq

/-- `jitentry_list`, `jitentry_debug_line_list` and the return code so far. -/
structure Parsed where
  entries : List JitEntry
  debugLines : List JitEntryDebugLine
  rc : ConvResult
  deriving DecidableEq

/-- The padding that `parse_code_load` expects behind the code. -/
def expectedPadding (nameLen : Nat) (codeSize : Int32) : UInt64 :=
  ((UInt64.ofNat (loadFormat.width + nameLen + 1) + codeSize.toInt64.toUInt64 + 7) &&& 7) ^^^ 7

/-- `parse_code_load`: whether the sizes agree, and the new entry. -/
def parseCodeLoad (file : List UInt8) (ptr : Nat) (size : Int32) (endTime : UInt64) :
    Option (ConvResult × JitEntry) := do
  let rec' ← structAt loadFormat file ptr
  let name ← stringAt file (ptr + loadFormat.width)
  let code := ptr + loadFormat.width + name.length + 1
  let entry : JitEntry :=
    { vma := rec'.vma, code := if rec'.codeAddr ≠ 0 then some code else none
      codeSize := rec'.codeSize.toInt32, symbolName := ptr + loadFormat.width
      lifeStart := rec'.timestamp, lifeEnd := endTime }
  let paddingCount := expectedPadding name.length entry.codeSize
  if rec'.codeAddr ≠ 0 ∧ (code : Int) + entry.codeSize.toInt + paddingCount.toNat ≠ ptr + size.toInt then
    some (.fail, entry)
  else some (.ok, entry)

/-- The search of `parse_code_unload`. -/
def closeEntry (vma timestamp endTime : UInt64) : List JitEntry → List JitEntry
  | [] => []
  | entry :: entries =>
    if entry.vma = vma ∧ entry.lifeEnd = endTime then { entry with lifeEnd := timestamp } :: entries
    else entry :: closeEntry vma timestamp endTime entries

/-- `parse_code_unload`. -/
def parseCodeUnload (file : List UInt8) (ptr : Nat) (endTime : UInt64) (entries : List JitEntry) :
    Option (List JitEntry) :=
  (structAt unloadFormat file ptr).map fun rec' =>
    if 0 < rec'.timestamp ∧ rec'.vma ≠ 0 then closeEntry rec'.vma rec'.timestamp endTime entries
    else entries

/-- `parse_code_debug_info`, which reads no further than the time stamp. -/
def parseCodeDebugInfo (file : List UInt8) (ptr : Nat) (endTime : UInt64) : Option JitEntryDebugLine :=
  (structAt (prefixFormat.pair u64) file ptr).map fun (_, timestamp) =>
    { data := ptr, lifeStart := timestamp, lifeEnd := endTime, stop := file.length }

/-- The `switch` of `parse_entries`. -/
def parseRecord (file : List UInt8) (ptr : Nat) (rec' : JrPrefix) (endTime : UInt64) (st : Parsed) :
    Option Parsed :=
  if rec'.id = jitCodeLoad then
    (parseCodeLoad file ptr rec'.totalSize.toInt32 endTime).map fun (rc, entry) =>
      { st with
        entries := entry :: st.entries
        rc := if rc = .fail then .fail else st.rc }
  else if rec'.id = jitCodeUnload then
    (parseCodeUnload file ptr endTime st.entries).map fun entries => { st with entries := entries }
  else if rec'.id = jitCodeClose then some st
  else if rec'.id = jitCodeDebugInfo then
    if rec'.totalSize = 0 then some { st with rc := .fail }
    else
      (parseCodeDebugInfo file ptr endTime).map fun line =>
        { st with debugLines := line :: st.debugLines }
  else some { st with rc := .fail }

/-- The loop of `parse_entries`; nothing when it takes more than `fuel` rounds. -/
def parseEntries (file : List UInt8) (endTime : UInt64) : Nat → Nat → Parsed → Option Parsed
  | 0, _, _ => none
  | fuel + 1, ptr, st =>
    if ptr + prefixFormat.width < file.length then do
      let rec' ← structAt prefixFormat file ptr
      if file.length < ptr + rec'.totalSize.toNat then some { st with rc := .fail }
      else
        let st ← parseRecord file ptr rec' endTime st
        parseEntries file endTime fuel (ptr + rec'.totalSize.toNat) st
    else some st

/-- `parse_header`: where the records start, if the header is accepted. -/
def parseHeader (file : List UInt8) : Option Nat :=
  if file.length ≤ headerFormat.width then none
  else
    let header := headerFormat.decode file
    if header.magic ≠ jitheaderMagic ∨ header.version ≠ jitheaderVersion ∨
        file.length < header.totalsize.toNat then none
    else some header.totalsize.toNat

/-- `parse_all`; a round of the loop reads a record that is not empty, or the loop never ends. -/
def parseAll (file : List UInt8) (endTime : UInt64) : Option Parsed :=
  match parseHeader file with
  | none => some { entries := [], debugLines := [], rc := .fail }
  | some ptr =>
    parseEntries file endTime (file.length + 1) ptr { entries := [], debugLines := [], rc := .ok }

/-! What the lists point to. -/

/-- A line of a table: address, line number and file name. -/
abbrev LineEntry := UInt64 × UInt32 × List UInt8

/-- The loop of `init_debug_line_info` over the entries of a table. -/
def readLines (file : List UInt8) : Nat → Nat → Option (List LineEntry)
  | 0, _ => some []
  | n + 1, data => do
    let vma ← structAt u64 file data
    let lineno ← structAt u32 file (data + u64.width)
    let filename ← stringAt file (data + u64.width + u32.width)
    let rest ← readLines file n (data + u64.width + u32.width + filename.length + 1)
    some ((vma, lineno, filename) :: rest)

/-- The table of a debug-line element. -/
def JitEntryDebugLine.lines (file : List UInt8) (line : JitEntryDebugLine) : Option (List LineEntry) := do
  let rec' ← structAt debugFormat file line.data
  readLines file rec'.nrEntry.toNat (line.data + debugFormat.width)

/-- What an entry says about a piece of code. -/
structure JitCode where
  symbolName : List UInt8
  vma : UInt64
  codeSize : Int
  code : Option (List UInt8)
  lifeStart : UInt64
  lifeEnd : UInt64
  deriving DecidableEq

/-- The entry, with what its pointers lead to. -/
def JitEntry.shows (file : List UInt8) (entry : JitEntry) : Option JitCode :=
  (stringAt file entry.symbolName).map fun name =>
    { symbolName := name, vma := entry.vma, codeSize := entry.codeSize.toInt
      code := entry.code.map fun code => (file.drop code).take entry.codeSize.toInt.toNat
      lifeStart := entry.lifeStart, lifeEnd := entry.lifeEnd }

end Oprofile.JitDump
