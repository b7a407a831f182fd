import Oprofile.JitDump.ParseDump

/-! The dump as `parse_all` finds it in memory: what it reads, also behind the end of the mapped file, and
how many rounds its loop takes. -/
namespace Oprofile.JitDump

open Records

/-- A mapped file, and the bytes behind it that can be read. -/
structure Mapping where
  file : List UInt8
  beyond : List UInt8

def Mapping.memory (m : Mapping) : List UInt8 := m.file ++ m.beyond

/-- A computation that reads memory: its value, or nothing after a fault, and the blocks it read. -/
structure Reading (α : Type) where
  value : Option α
  reads : List (Nat × Nat)

def Reading.bind {α β : Type} (x : Reading α) (f : α → Reading β) : Reading β :=
  match x.value with
  | none => ⟨none, x.reads⟩
  | some a => ⟨(f a).value, x.reads ++ (f a).reads⟩

instance : Monad Reading where
  pure a := ⟨some a, []⟩
  bind := Reading.bind

def Mapping.readStruct {α : Type} (c : Format α) (m : Mapping) (ptr : Nat) : Reading α :=
  ⟨structAt c m.memory ptr, [(ptr, c.width)]⟩

/-- `strlen`. -/
def Mapping.readString (m : Mapping) (ptr : Nat) : Reading (List UInt8) :=
  ⟨stringAt m.memory ptr, [(ptr, ((m.memory.drop ptr).takeWhile (· ≠ 0)).length + 1)]⟩

/-- `parse_code_load`. -/
def readCodeLoad (m : Mapping) (ptr : Nat) (size : Int32) (endTime : UInt64) :
    Reading (ConvResult × JitEntry) := do
  let rec' ← m.readStruct loadFormat ptr
  let name ← m.readString (ptr + loadFormat.width)
  let code := ptr + loadFormat.width + name.length + 1
  let entry : JitEntry :=
    { vma := rec'.vma, code := if rec'.codeAddr ≠ 0 then some code else none
      codeSize := rec'.codeSize.toInt32, symbolName := ptr + loadFormat.width
      lifeStart := rec'.timestamp, lifeEnd := endTime }
  let paddingCount := expectedPadding name.length entry.codeSize
  if rec'.codeAddr ≠ 0 ∧ (code : Int) + entry.codeSize.toInt + paddingCount.toNat ≠ ptr + size.toInt then
    pure (.fail, entry)
  else pure (.ok, entry)

/-- `parse_code_unload`. -/
def readCodeUnload (m : Mapping) (ptr : Nat) (endTime : UInt64) (entries : List JitEntry) :
    Reading (List JitEntry) := do
  let rec' ← m.readStruct unloadFormat ptr
  if 0 < rec'.timestamp ∧ rec'.vma ≠ 0 then pure (closeEntry rec'.vma rec'.timestamp endTime entries)
  else pure entries

/-- `parse_code_debug_info`. -/
def readCodeDebugInfo (m : Mapping) (ptr : Nat) (endTime : UInt64) : Reading JitEntryDebugLine := do
  let rec' ← m.readStruct (prefixFormat.pair u64) ptr
  pure { data := ptr, lifeStart := rec'.2, lifeEnd := endTime, stop := m.file.length }

/-- The `switch` of `parse_entries`. -/
def readRecord (m : Mapping) (ptr : Nat) (rec' : JrPrefix) (endTime : UInt64) (st : Parsed) :
    Reading Parsed :=
  if rec'.id = jitCodeLoad then do
    let (rc, entry) ← readCodeLoad m ptr rec'.totalSize.toInt32 endTime
    pure { st with
      entries := entry :: st.entries
      rc := if rc = .fail then .fail else st.rc }
  else if rec'.id = jitCodeUnload then do
    let entries ← readCodeUnload m ptr endTime st.entries
    pure { st with entries := entries }
  else if rec'.id = jitCodeClose then pure st
  else if rec'.id = jitCodeDebugInfo then
    if rec'.totalSize = 0 then pure { st with rc := .fail }
    else do
      let line ← readCodeDebugInfo m ptr endTime
      pure { st with debugLines := line :: st.debugLines }
  else pure { st with rc := .fail }

/-- Where the loop of `parse_entries` stands after a round. -/
inductive Loop
  | stops (st : Parsed)
  | goesOn (ptr : Nat) (st : Parsed)

/-- A round of the loop. -/
def parseRound (m : Mapping) (endTime : UInt64) (ptr : Nat) (st : Parsed) : Reading Loop :=
  if ptr + prefixFormat.width < m.file.length then do
    let rec' ← m.readStruct prefixFormat ptr
    if m.file.length < ptr + rec'.totalSize.toNat then pure (.stops { st with rc := .fail })
    else do
      let st ← readRecord m ptr rec' endTime st
      pure (.goesOn (ptr + rec'.totalSize.toNat) st)
  else pure (.stops st)

/-- The first `n` rounds of the loop, from the place where the records start. -/
def rounds (m : Mapping) (endTime : UInt64) (start : Nat) : Nat → Reading Loop
  | 0 => pure (.goesOn start { entries := [], debugLines := [], rc := .ok })
  | n + 1 => do
    match ← rounds m endTime start n with
    | .stops st => pure (.stops st)
    | .goesOn ptr st => parseRound m endTime ptr st

/-- The loop comes to an end, or a fault ends the program. -/
def Ends (m : Mapping) (endTime : UInt64) (start : Nat) : Prop :=
  ∃ n, ∀ ptr st, (rounds m endTime start n).value ≠ some (.goesOn ptr st)

/-- `parse_entries` returns `OP_JIT_CONV_FAIL`. -/
def ReportsFail (m : Mapping) (endTime : UInt64) (start : Nat) : Prop :=
  ∃ n st, (rounds m endTime start n).value = some (.stops st) ∧ st.rc = .fail

/-- The format of a debug record up to `nr_entry`. -/
def debugHeadFormat : Format (JrPrefix × UInt64 × UInt64 × UInt32) :=
  prefixFormat.pair (u64.pair (u64.pair u32))

/-- The loop of `init_debug_line_info` over the entries of a table. -/
def readTable (m : Mapping) : Nat → Nat → Reading (List LineEntry)
  | 0, _ => pure []
  | n + 1, data => do
    let vma ← m.readStruct u64 data
    let lineno ← m.readStruct u32 (data + u64.width)
    let filename ← m.readString (data + u64.width + u32.width)
    let rest ← readTable m n (data + u64.width + u32.width + filename.length + 1)
    pure ((vma, lineno, filename) :: rest)

/-- What `init_debug_line_info` reads of a retained record. -/
def JitEntryDebugLine.read (m : Mapping) (line : JitEntryDebugLine) : Reading (List LineEntry) := do
  let rec' ← m.readStruct debugHeadFormat line.data
  readTable m rec'.2.2.2.toNat (line.data + debugFormat.width)

/-! The records of a file, one behind the other by their total sizes. -/

/-- The prefix of the record at a place, if the loop looks at it. -/
def recordAt (file : List UInt8) (ptr : Nat) : Option JrPrefix :=
  if ptr + prefixFormat.width < file.length then structAt prefixFormat file ptr else none

/-- The places that the loop gets to. -/
inductive Place (file : List UInt8) (start : Nat) : Nat → Prop
  | start : Place file start start
  | next {ptr : Nat} {rec' : JrPrefix} (h : Place file start ptr) (hrec : recordAt file ptr = some rec')
      (hle : ptr + rec'.totalSize.toNat ≤ file.length) : Place file start (ptr + rec'.totalSize.toNat)

end Oprofile.JitDump
