import Oprofile.Library.Records

/-! The JIT dump as the agent library writes it (`opagent.c`, `jitdump.h`). -/
namespace Oprofile.JitDump

open Records

/-- A string without its terminating zero. -/
structure CName where
  chars : List UInt8
  noNul : 0 ∉ chars

theorem noNul_a : (0 : UInt8) ∉ [97] := by decide

def CName.bytes (s : CName) : List UInt8 := s.chars ++ [0]

def jitheaderMagic : UInt32 := 0x4F74496A

def jitheaderVersion : UInt32 := 1

/-- `PADDING_8ALIGNED`. -/
def padding8Aligned (x : UInt32) : UInt32 := ((x + 7) &&& 7) ^^^ 7

def jitCodeLoad : UInt32 := 0

def jitCodeUnload : UInt32 := 1

def jitCodeClose : UInt32 := 2

def jitCodeDebugInfo : UInt32 := 3

/-- A `jitheader`; `hole` stands for the bytes that align its time stamp. -/
structure JitHeader where
  magic : UInt32
  version : UInt32
  totalsize : UInt32
  bfdArch : UInt32
  bfdMach : UInt32
  hole : UInt32
  timestamp : UInt64

structure JrPrefix where
  id : UInt32
  totalSize : UInt32

structure JrCodeLoad extends JrPrefix where
  timestamp : UInt64
  vma : UInt64
  codeAddr : UInt64
  codeSize : UInt32
  align : UInt32

structure JrCodeUnload extends JrPrefix where
  timestamp : UInt64
  vma : UInt64

structure JrCodeClose extends JrPrefix where
  timestamp : UInt64

structure JrCodeDebugInfo extends JrPrefix where
  timestamp : UInt64
  codeAddr : UInt64
  nrEntry : UInt32
  align : UInt32

/-! The structures as they lie in memory. -/

def headerFormat : Format JitHeader :=
  (u32.pair (u32.pair (u32.pair (u32.pair (u32.pair (u32.pair u64)))))).map
    (fun p => ⟨p.1, p.2.1, p.2.2.1, p.2.2.2.1, p.2.2.2.2.1, p.2.2.2.2.2.1, p.2.2.2.2.2.2⟩)
    (fun h => (h.magic, h.version, h.totalsize, h.bfdArch, h.bfdMach, h.hole, h.timestamp)) fun _ => rfl

def prefixFormat : Format JrPrefix :=
  (u32.pair u32).map (fun p => ⟨p.1, p.2⟩) (fun r => (r.id, r.totalSize)) fun _ => rfl

def loadFormat : Format JrCodeLoad :=
  (prefixFormat.pair (u64.pair (u64.pair (u64.pair (u32.pair u32))))).map
    (fun p => ⟨p.1, p.2.1, p.2.2.1, p.2.2.2.1, p.2.2.2.2.1, p.2.2.2.2.2⟩)
    (fun r => (r.toJrPrefix, r.timestamp, r.vma, r.codeAddr, r.codeSize, r.align)) fun _ => rfl

def unloadFormat : Format JrCodeUnload :=
  (prefixFormat.pair (u64.pair u64)).map (fun p => ⟨p.1, p.2.1, p.2.2⟩)
    (fun r => (r.toJrPrefix, r.timestamp, r.vma)) fun _ => rfl

def closeFormat : Format JrCodeClose :=
  (prefixFormat.pair u64).map (fun p => ⟨p.1, p.2⟩) (fun r => (r.toJrPrefix, r.timestamp)) fun _ => rfl

def debugFormat : Format JrCodeDebugInfo :=
  (prefixFormat.pair (u64.pair (u64.pair (u32.pair u32)))).map
    (fun p => ⟨p.1, p.2.1, p.2.2.1, p.2.2.2.1, p.2.2.2.2⟩)
    (fun r => (r.toJrPrefix, r.timestamp, r.codeAddr, r.nrEntry, r.align)) fun _ => rfl

/-- The dump file and the position of its stream. -/
structure DumpFile where
  bytes : List UInt8
  pos : Nat
  deriving DecidableEq

def DumpFile.put (d : DumpFile) (bs : List UInt8) : DumpFile where
  bytes := d.bytes.take d.pos ++ bs ++ d.bytes.drop (d.pos + bs.length)
  pos := d.pos + bs.length

/-- How the surroundings of one call behave: `gettimeofday`, the descriptor and its lock, what the
stack holds in the fields never set, how many bytes a write stops after if it falls short, and which
calls of `ftell` and `fseek` fail. -/
structure CallEnv where
  timeofday : Option UInt64
  locked : Bool
  junk : UInt32
  short : Nat → Option Nat
  tellFails : Nat → Bool
  seekFails : Nat → Bool

/-- A call where everything works. -/
def CallEnv.fine (time : UInt64) : CallEnv where
  timeofday := some time
  locked := true
  junk := 0
  short := fun _ => none
  tellFails := fun _ => false
  seekFails := fun _ => false

/-- The `i`-th `fwrite` of a call; it fails with what it has left in the file. -/
def fwrite (env : CallEnv) (i : Nat) (bs : List UInt8) (d : DumpFile) : Except DumpFile DumpFile :=
  match env.short i with
  | none => .ok (d.put bs)
  | some k => .error (d.put (bs.take k))

/-- A write whose result is not looked at. -/
def fwriteUnchecked (env : CallEnv) (i : Nat) (bs : List UInt8) (d : DumpFile) : DumpFile :=
  match fwrite env i bs d with
  | .ok d => d
  | .error d => d

def ftell (env : CallEnv) (i : Nat) (d : DumpFile) : Except DumpFile Nat :=
  if env.tellFails i then .error d else .ok d.pos

def fseek (env : CallEnv) (i : Nat) (pos : Nat) (d : DumpFile) : Except DumpFile DumpFile :=
  if env.seekFails i then .error d else .ok { d with pos := pos }

/-- The value returned: zero when nothing went wrong. -/
def returned : Except DumpFile DumpFile → Int × DumpFile
  | .ok d => (0, d)
  | .error d => (-1, d)

/-- Bytes of padding. -/
def padBytes (count : UInt32) : List UInt8 := List.replicate count.toNat 0

/-- The header that `op_open_agent` writes, from what it asks BFD for. -/
structure AgentTarget where
  bfdTargetName : CName
  bfdArch : Int32
  bfdMach : UInt32

def AgentTarget.totalsize (target : AgentTarget) : UInt32 :=
  UInt32.ofNat (headerFormat.width + target.bfdTargetName.bytes.length)

def AgentTarget.padCnt (target : AgentTarget) : UInt32 := padding8Aligned target.totalsize

def AgentTarget.header (target : AgentTarget) (time : UInt64) (junk : UInt32) : JitHeader where
  magic := jitheaderMagic
  version := jitheaderVersion
  totalsize := target.totalsize + target.padCnt
  bfdArch := target.bfdArch.toUInt32
  bfdMach := target.bfdMach
  hole := junk
  timestamp := time

/-- `op_open_agent` from the new, locked file on; nothing where it returns `NULL`. -/
def opOpenAgent (env : CallEnv) (target : AgentTarget) : Option DumpFile :=
  match env.timeofday with
  | none => none
  | some time =>
    let written := do
      let d ← fwrite env 0 (headerFormat.encode (target.header time env.junk)) { bytes := [], pos := 0 }
      let d ← fwrite env 1 target.bfdTargetName.bytes d
      if target.padCnt ≠ 0 then fwrite env 2 (padBytes target.padCnt) d else .ok d
    written.toOption

def closeRecord (time : UInt64) : JrCodeClose where
  id := jitCodeClose
  totalSize := UInt32.ofNat closeFormat.width
  timestamp := time

/-- `op_close_agent`. -/
def opCloseAgent (env : CallEnv) (d : DumpFile) : Int × DumpFile :=
  match env.timeofday with
  | none => (-1, d)
  | some time =>
    if ¬ env.locked then (-1, d)
    else
      returned (fwrite env 0 (closeFormat.encode (closeRecord time)) d)

/-- A non-null pointer to code, and what it points to. -/
structure CodePtr where
  addr : UInt64
  addr_ne : addr ≠ 0
  mem : Nat → UInt8

structure NativeCode where
  symbolName : CName
  vma : UInt64
  code : Option CodePtr
  size : UInt32

/-- The code written, if there is any. -/
def NativeCode.codeBytes (nc : NativeCode) : Option (List UInt8) :=
  nc.code.map fun code => (List.range nc.size.toNat).map code.mem

/-- The size of the record before padding. -/
def NativeCode.recSize (nc : NativeCode) : Nat :=
  loadFormat.width + nc.symbolName.bytes.length + (if nc.code.isSome then nc.size.toNat else 0)

def NativeCode.totalSize (nc : NativeCode) : UInt32 := UInt32.ofNat nc.recSize

def NativeCode.paddingCount (nc : NativeCode) : UInt32 := padding8Aligned nc.totalSize

def NativeCode.record (nc : NativeCode) (time : UInt64) (junk : UInt32) : JrCodeLoad where
  id := jitCodeLoad
  totalSize := nc.totalSize + nc.paddingCount
  timestamp := time
  vma := nc.vma
  codeAddr := (nc.code.map CodePtr.addr).getD 0
  codeSize := nc.size
  align := junk

/-- `op_write_native_code`; the writes of code and padding are not checked. -/
def opWriteNativeCode (env : CallEnv) (nc : NativeCode) (d : DumpFile) : Int × DumpFile :=
  match env.timeofday with
  | none => (-1, d)
  | some time =>
    if ¬ env.locked then (-1, d)
    else
      returned do
        let d ← fwrite env 0 (loadFormat.encode (nc.record time env.junk)) d
        let d ← fwrite env 1 nc.symbolName.bytes d
        let d := match nc.codeBytes with
          | some code => fwriteUnchecked env 2 code d
          | none => d
        .ok (if nc.paddingCount ≠ 0 then fwriteUnchecked env 3 (padBytes nc.paddingCount) d else d)

structure DebugLineInfo where
  vma : UInt64
  lineno : UInt32
  filename : CName

/-- The three writes of the loop over the entries, from the `i`-th write on. -/
def writeEntries (env : CallEnv) : Nat → List DebugLineInfo → DumpFile → Except DumpFile DumpFile
  | _, [], d => .ok d
  | i, entry :: entries, d => do
    let d ← fwrite env i (u64.encode entry.vma) d
    let d ← fwrite env (i + 1) (u32.encode entry.lineno) d
    let d ← fwrite env (i + 2) entry.filename.bytes d
    writeEntries env (i + 3) entries d

def debugRecord (codeAddr : UInt64) (compileMap : List DebugLineInfo) (time : UInt64) (junk : UInt32)
    (totalSize : UInt32) : JrCodeDebugInfo where
  id := jitCodeDebugInfo
  totalSize := totalSize
  timestamp := time
  codeAddr := codeAddr
  nrEntry := UInt32.ofNat compileMap.length
  align := junk

/-- What `op_write_debug_line_info` does with the stream; the total size is put into the record once all is
written. -/
def writeDebugRecord (env : CallEnv) (codeAddr : UInt64) (compileMap : List DebugLineInfo) (time : UInt64)
    (d : DumpFile) : Except DumpFile DumpFile := do
  let rec' := debugRecord codeAddr compileMap time env.junk
  let done := 1 + 3 * compileMap.length
  let curPos ← ftell env 0 d
  let d ← fwrite env 0 (debugFormat.encode (rec' 0)) d
  let d ← writeEntries env 1 compileMap d
  let lastPos ← ftell env 1 d
  let totalSize := UInt32.ofNat (lastPos - curPos)
  let paddingCount := padding8Aligned totalSize
  let d ← if paddingCount ≠ 0 then fwrite env done (padBytes paddingCount) d else .ok d
  let d ← fseek env 0 curPos d
  let d ← fwrite env (done + 1) (debugFormat.encode (rec' (totalSize + paddingCount))) d
  fseek env 1 (lastPos + paddingCount.toNat) d

/-- `op_write_debug_line_info`; a failure returns the zero that `flock` has left in `rc`. -/
def opWriteDebugLineInfo (env : CallEnv) (codeAddr : UInt64) (compileMap : List DebugLineInfo)
    (d : DumpFile) : Int × DumpFile :=
  if compileMap = [] then (0, d)
  else
    match env.timeofday with
    | none => (-1, d)
    | some time =>
      if ¬ env.locked then (-1, d)
      else
        match writeDebugRecord env codeAddr compileMap time d with
        | .ok d => (0, d)
        | .error d => (0, d)

def unloadRecord (vma time : UInt64) : JrCodeUnload where
  id := jitCodeUnload
  totalSize := UInt32.ofNat unloadFormat.width
  timestamp := time
  vma := vma

/-- `op_unload_native_code`. -/
def opUnloadNativeCode (env : CallEnv) (vma : UInt64) (d : DumpFile) : Int × DumpFile :=
  match env.timeofday with
  | none => (-1, d)
  | some time =>
    if ¬ env.locked then (-1, d)
    else
      returned (fwrite env 0 (unloadFormat.encode (unloadRecord vma time)) d)

inductive AgentCall
  | writeNativeCode (nc : NativeCode)
  | unloadNativeCode (vma : UInt64)
  | writeDebugLineInfo (codeAddr : UInt64) (compileMap : List DebugLineInfo)

def AgentCall.run (env : CallEnv) : AgentCall → DumpFile → Int × DumpFile
  | .writeNativeCode nc => opWriteNativeCode env nc
  | .unloadNativeCode vma => opUnloadNativeCode env vma
  | .writeDebugLineInfo codeAddr compileMap => opWriteDebugLineInfo env codeAddr compileMap

/-- The file after a call that succeeds. -/
def succeeded (r : Int × DumpFile) : Option DumpFile := if r.1 = 0 then some r.2 else none

/-- The file after calls that all succeed. -/
def runCalls : List (CallEnv × AgentCall) → DumpFile → Option DumpFile
  | [], d => some d
  | (env, call) :: calls, d => (succeeded (call.run env d)).bind (runCalls calls)

/-- A whole dump, from `op_open_agent` to `op_close_agent`, where every call succeeds. -/
def writeDump (openEnv : CallEnv) (target : AgentTarget) (calls : List (CallEnv × AgentCall))
    (closeEnv : CallEnv) : Option DumpFile := do
  let d ← opOpenAgent openEnv target
  let d ← runCalls calls d
  succeeded (opCloseAgent closeEnv d)

end Oprofile.JitDump
