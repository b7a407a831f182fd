import Oprofile.JitDump.Agent
import Oprofile.Opjitconv.Leb128Codec

/-! The line program that the converter generates for JIT code (`debug_line.c`). A function that adds
data to a buffer is modelled by the bytes that it adds. -/
namespace Oprofile.Opjitconv

open Records JitDump

def dwLnsCopy : UInt8 := 1

def dwLnsAdvancePc : UInt8 := 2

def dwLnsAdvanceLine : UInt8 := 3

def dwLnsSetFile : UInt8 := 4

def dwLnsMaxOpcode : UInt8 := 10

def dwLneEndSequence : UInt8 := 1

def dwLneSetAddress : UInt8 := 2

def dwLneDefineFile : UInt8 := 3

structure DebugLineHeader where
  totalLength : UInt32
  version : UInt16
  prologLength : UInt32
  minimumInstructionLength : UInt8
  defaultIsStmt : UInt8
  lineBase : Int8
  lineRange : UInt8
  opcodeBase : UInt8

def defaultDebugLineHeader : DebugLineHeader where
  totalLength := -1
  version := 2
  prologLength := -1
  minimumInstructionLength := 1
  defaultIsStmt := 1
  lineBase := -5
  lineRange := 14
  opcodeBase := dwLnsMaxOpcode

/-- The packed structure in memory. -/
def DebugLineHeader.bytes (h : DebugLineHeader) : List UInt8 :=
  u32.encode h.totalLength ++ [h.version.toUInt8, (h.version >>> 8).toUInt8] ++
  u32.encode h.prologLength ++
  [h.minimumInstructionLength, h.defaultIsStmt, h.lineBase.toUInt8, h.lineRange, h.opcodeBase]

def standardOpcodeLength : List UInt8 := [0, 1, 1, 1, 1, 0, 0, 0, 1]

def emitExtendedOpcode (opcode : UInt8) (data : List UInt8) : List UInt8 :=
  [0] ++ emitUnsignedLEB128 (UInt64.ofNat data.length + 1) ++ [opcode] ++ data

def emitAdvancePc (deltaPc : UInt64) : List UInt8 := dwLnsAdvancePc :: emitUnsignedLEB128 deltaPc

/-- `emit_advance_lineno`, of a step whose bytes are defined. -/
def emitAdvanceLineno (deltaLineno : Int64) (h : (emitSignedLEB128 deltaLineno).isSome) : List UInt8 :=
  dwLnsAdvanceLine :: (emitSignedLEB128 deltaLineno).get h

def emitLneEndOfSequence : List UInt8 := emitExtendedOpcode dwLneEndSequence []

def emitSetFile (index : UInt64) : List UInt8 := dwLnsSetFile :: emitUnsignedLEB128 index

def emitLneDefineFilename (filename : CName) : List UInt8 :=
  [0] ++ emitUnsignedLEB128 (UInt64.ofNat filename.chars.length + 5) ++ [dwLneDefineFile] ++
  filename.bytes ++ [0, 0, 0]

def emitLneSetAddress (address : UInt64) : List UInt8 :=
  emitExtendedOpcode dwLneSetAddress (u64.encode address)

/-- `get_special_opcode`; zero if there is none. -/
def getSpecialOpcode (line : DebugLineInfo) (lastLineno : UInt32) (lastVma : UInt64) : UInt8 :=
  let temp := (line.lineno - lastLineno) - defaultDebugLineHeader.lineBase.toInt32.toUInt32
  if defaultDebugLineHeader.lineRange.toUInt32 ≤ temp then 0
  else
    let deltaAddr := (line.vma - lastVma) / defaultDebugLineHeader.minimumInstructionLength.toUInt64
    if deltaAddr ≤ 256 / defaultDebugLineHeader.lineRange.toUInt64 then
      let opcode := temp.toUInt64 + deltaAddr * defaultDebugLineHeader.lineRange.toUInt64 +
        defaultDebugLineHeader.opcodeBase.toUInt64
      if opcode ≤ 255 then opcode.toUInt8 else 0
    else 0

/-- The local variables of `emit_lineno_info`. -/
structure LineState where
  lastVma : UInt64
  lastLineno : UInt32
  curFilename : Option CName
  curFileIndex : UInt64

/-- Whether the file changes. -/
def LineState.fileChanges (st : LineState) (line : DebugLineInfo) : Bool :=
  match st.curFilename with
  | none => true
  | some cur => cur.chars ≠ line.filename.chars

/-- The change of file in a round of the loop. -/
def emitFile (st : LineState) (line : DebugLineInfo) : List UInt8 × LineState :=
  if st.fileChanges line then
    (emitLneDefineFilename line.filename ++ emitSetFile (st.curFileIndex + 1),
      { st with curFilename := some line.filename, curFileIndex := st.curFileIndex + 1 })
  else ([], st)

/-- The steps to a line that has no special opcode. -/
def emitSteps (needCopy : Bool) (st : LineState) (line : DebugLineInfo) : List UInt8 × LineState :=
  let (lineno, needCopy, st) :=
    if st.lastLineno ≠ line.lineno then
      (emitAdvanceLineno (line.lineno - st.lastLineno).toUInt64.toInt64 (lineno_defined _), true,
        { st with lastLineno := line.lineno })
    else ([], needCopy, st)
  let (pc, needCopy, st) :=
    if st.lastVma ≠ line.vma then
      (emitAdvancePc (line.vma - st.lastVma), true, { st with lastVma := line.vma })
    else ([], needCopy, st)
  (lineno ++ pc ++ (if needCopy then [dwLnsCopy] else []), st)

/-- One round of the loop: the bytes that it adds and the variables after it. -/
def emitLine (st : LineState) (line : DebugLineInfo) : List UInt8 × LineState :=
  let needCopy := st.fileChanges line
  let (file, st) := emitFile st line
  let specialOpcode := getSpecialOpcode line st.lastLineno st.lastVma
  if specialOpcode ≠ 0 then
    (file ++ [specialOpcode], { st with lastLineno := line.lineno, lastVma := line.vma })
  else
    let (steps, st) := emitSteps needCopy st line
    (file ++ steps, st)

def emitLines (st : LineState) : List DebugLineInfo → List UInt8
  | [] => []
  | line :: lines => (emitLine st line).1 ++ emitLines (emitLine st line).2 lines

/-- `emit_lineno_info`, which is called with one line at least. -/
def emitLinenoInfo (line : List DebugLineInfo) (codeAddr : UInt64) : List UInt8 :=
  match line with
  | [] => []
  | first :: _ =>
    emitLneSetAddress codeAddr ++ emitAdvanceLineno (first.lineno - 1).toUInt64.toInt64 (lineno_defined _) ++
    emitLneDefineFilename first.filename ++ emitSetFile 1 ++ [dwLnsCopy] ++
    emitLines ⟨codeAddr, first.lineno, some first.filename, 1⟩ line

/-- Bytes put over others. -/
def patch (b : List UInt8) (pos : Nat) (bs : List UInt8) : List UInt8 :=
  b.take pos ++ bs ++ b.drop (pos + bs.length)

/-- `add_debug_line`: the buffer after it. -/
def addDebugLine (b : List UInt8) (line : List DebugLineInfo) (codeAddr : UInt64) : List UInt8 :=
  let oldSize := b.length
  let b := b ++ defaultDebugLineHeader.bytes ++ standardOpcodeLength ++ [0] ++ [0]
  let b := patch b (oldSize + 6) (u32.encode (UInt32.ofNat (b.length - oldSize - 10)))
  let b := b ++ emitLinenoInfo line codeAddr ++ emitLneEndOfSequence
  patch b oldSize (u32.encode (UInt32.ofNat (b.length - oldSize - 4)))

end Oprofile.Opjitconv
