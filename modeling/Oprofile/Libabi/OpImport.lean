import Oprofile.Library.ByteOrder
import Oprofile.Libdb.Odb

/-! `opimport`: a sample file of another machine, read by the description of its ABI (`op_abi.c`, `abi.cpp`,
`opimport.cpp`). -/
namespace Oprofile.Libabi

open ByteMem ByteOrder Libdb

/-- The entries of an ABI description. -/
inductive AbiKey
  | sizeofDouble
  | sizeofU64
  | sizeofU8
  | sizeofU32
  | sizeofInt
  | sizeofUnsignedInt
  | sizeofOdbKeyT
  | sizeofOdbIndexT
  | sizeofOdbValueT
  | sizeofOdbNodeNrT
  | sizeofOdbDescrT
  | sizeofOdbNodeT
  | sizeofStructOpdHeader
  | offsetofNodeKey
  | offsetofNodeValue
  | offsetofNodeNext
  | offsetofDescrSize
  | offsetofDescrCurrentSize
  | offsetofHeaderMagic
  | offsetofHeaderVersion
  | offsetofHeaderCpuType
  | offsetofHeaderCtrEvent
  | offsetofHeaderCtrUm
  | offsetofHeaderCtrCount
  | offsetofHeaderIsKernel
  | offsetofHeaderCpuSpeed
  | offsetofHeaderMtime
  | offsetofHeaderCgToIsKernel
  | offsetofHeaderAnonStart
  | offsetofHeaderCgToAnonStart
  | littleEndian
  deriving DecidableEq

def AbiKey.name : AbiKey → String
  | .sizeofDouble => "sizeof_double"
  | .sizeofU64 => "sizeof_u64"
  | .sizeofU8 => "sizeof_u8"
  | .sizeofU32 => "sizeof_u32"
  | .sizeofInt => "sizeof_int"
  | .sizeofUnsignedInt => "sizeof_unsigned_int"
  | .sizeofOdbKeyT => "sizeof_odb_key_t"
  | .sizeofOdbIndexT => "sizeof_odb_index_t"
  | .sizeofOdbValueT => "sizeof_odb_value_t"
  | .sizeofOdbNodeNrT => "sizeof_odb_node_nr_t"
  | .sizeofOdbDescrT => "sizeof_odb_descr_t"
  | .sizeofOdbNodeT => "sizeof_odb_node_t"
  | .sizeofStructOpdHeader => "sizeof_struct_opd_header"
  | .offsetofNodeKey => "offsetof_node_key"
  | .offsetofNodeValue => "offsetof_node_value"
  | .offsetofNodeNext => "offsetof_node_next"
  | .offsetofDescrSize => "offsetof_descr_size"
  | .offsetofDescrCurrentSize => "offsetof_descr_current_size"
  | .offsetofHeaderMagic => "offsetof_header_magic"
  | .offsetofHeaderVersion => "offsetof_header_version"
  | .offsetofHeaderCpuType => "offsetof_header_cpu_type"
  | .offsetofHeaderCtrEvent => "offsetof_header_ctr_event"
  | .offsetofHeaderCtrUm => "offsetof_header_ctr_um"
  | .offsetofHeaderCtrCount => "offsetof_header_ctr_count"
  | .offsetofHeaderIsKernel => "offsetof_header_is_kernel"
  | .offsetofHeaderCpuSpeed => "offsetof_header_cpu_speed"
  | .offsetofHeaderMtime => "offsetof_header_mtime"
  | .offsetofHeaderCgToIsKernel => "offsetof_header_cg_to_is_kernel"
  | .offsetofHeaderAnonStart => "offsetof_header_anon_start"
  | .offsetofHeaderCgToAnonStart => "offsetof_header_cg_to_anon_start"
  | .littleEndian => "little_endian"

/-- `abi_entries` and the byte order, as compiled for x86-64. -/
def abiEntries : AbiKey → Nat
  | .sizeofDouble => 8
  | .sizeofU64 => 8
  | .sizeofU8 => 1
  | .sizeofU32 => 4
  | .sizeofInt => 4
  | .sizeofUnsignedInt => 4
  | .sizeofOdbKeyT => 8
  | .sizeofOdbIndexT => sizeofIndex
  | .sizeofOdbValueT => 4
  | .sizeofOdbNodeNrT => 4
  | .sizeofOdbDescrT => sizeofDescr
  | .sizeofOdbNodeT => sizeofNode
  | .sizeofStructOpdHeader => 88
  | .offsetofNodeKey => 0
  | .offsetofNodeValue => 8
  | .offsetofNodeNext => 12
  | .offsetofDescrSize => 0
  | .offsetofDescrCurrentSize => 4
  | .offsetofHeaderMagic => 0
  | .offsetofHeaderVersion => 4
  | .offsetofHeaderCpuType => 8
  | .offsetofHeaderCtrEvent => 12
  | .offsetofHeaderCtrUm => 16
  | .offsetofHeaderCtrCount => 20
  | .offsetofHeaderIsKernel => 24
  | .offsetofHeaderCpuSpeed => 32
  | .offsetofHeaderMtime => 40
  | .offsetofHeaderCgToIsKernel => 48
  | .offsetofHeaderAnonStart => 64
  | .offsetofHeaderCgToAnonStart => 72
  | .littleEndian => 1

/-- `class abi`: the slots that the description file has set. -/
abbrev Abi := AbiKey → Option Int

/-- How an import can stop. -/
inductive ImportStop
  | abiException (desc : String)
  | assertFailed
  /-- An access outside of a mapping. -/
  | fault
  /-- `exit(EXIT_FAILURE)` -/
  | exitFailure

def Abi.need (abi : Abi) (key : AbiKey) : Except ImportStop Int :=
  match abi key with
  | some value => .ok value
  | none => .error (.abiException ("missing ABI key: " ++ key.name))

/-- `struct opd_header` without its reserve; `cpu_speed` by its bits. -/
structure OpdHeader where
  magic : List UInt8
  version : UInt32
  cpuType : UInt32
  ctrEvent : UInt32
  ctrUm : UInt32
  ctrCount : UInt32
  isKernel : UInt32
  cpuSpeed : UInt64
  mtime : UInt64
  cgToIsKernel : UInt32
  spuProfile : UInt32
  embeddedOffset : UInt64
  anonStart : UInt64
  cgToAnonStart : UInt64

/-- `extractor::extract` into a type of `width` bytes. -/
def extract (abi : Abi) (order : Order) (file : File) (width : Nat) (src : Int) (sz off : AbiKey) :
    Except ImportStop Nat := do
  let offset ← abi.need off
  let src := src + offset
  let size ← abi.need sz
  let nbytes := (size % 2 ^ 64).toNat
  if nbytes = 0 then .ok 0
  else if nbytes ≤ width ∧ 0 ≤ src ∧ src + nbytes ≤ file.size then
    .ok (order.gather width (load file.byte src.toNat nbytes))
  else .error .assertFailed

def extractU32 (abi : Abi) (order : Order) (file : File) (src : Int) (sz off : AbiKey) : Except ImportStop UInt32 := do
  let targ ← extract abi order file 4 src sz off
  return UInt32.ofNat targ

def extractU64 (abi : Abi) (order : Order) (file : File) (src : Int) (sz off : AbiKey) : Except ImportStop UInt64 := do
  let targ ← extract abi order file 8 src sz off
  return UInt64.ofNat targ

/-- `memcpy(head->magic, src + abi.need("offsetof_header_magic"), 4)` -/
def copyMagic (abi : Abi) (file : File) : Except ImportStop (List UInt8) := do
  let offset ← abi.need .offsetofHeaderMagic
  if 0 ≤ offset ∧ offset + 4 ≤ file.size then .ok (load file.byte offset.toNat 4) else .error .fault

/-- The first part of `import_from_abi`. -/
def importHeader (abi : Abi) (order : Order) (file : File) (head : OpdHeader) : Except ImportStop OpdHeader := do
  let magic ← copyMagic abi file
  let version ← extractU32 abi order file 0 .sizeofU32 .offsetofHeaderVersion
  let cpuType ← extractU32 abi order file 0 .sizeofU32 .offsetofHeaderCpuType
  let ctrEvent ← extractU32 abi order file 0 .sizeofU32 .offsetofHeaderCtrEvent
  let ctrUm ← extractU32 abi order file 0 .sizeofU32 .offsetofHeaderCtrUm
  let ctrCount ← extractU32 abi order file 0 .sizeofU32 .offsetofHeaderCtrCount
  let isKernel ← extractU32 abi order file 0 .sizeofU32 .offsetofHeaderIsKernel
  let mtime ← extractU64 abi order file 0 .sizeofU64 .offsetofHeaderMtime
  let cgToIsKernel ← extractU32 abi order file 0 .sizeofU32 .offsetofHeaderCgToIsKernel
  -- the two anonymous starts are 64 bits wide but are read with the size of a u32
  let anonStart ← extractU64 abi order file 0 .sizeofU32 .offsetofHeaderAnonStart
  let cgToAnonStart ← extractU64 abi order file 0 .sizeofU32 .offsetofHeaderCgToAnonStart
  return { head with
    magic, version, cpuType, ctrEvent, ctrUm, ctrCount, isKernel, cpuSpeed := 0, mtime, cgToIsKernel, anonStart,
    cgToAnonStart }

/-- A growth that leaves nodes in use behind the end of the mapping; the rebuild of the chains then reads them. -/
def GrowFaults (d : OdbData) : Prop := (odbRemap d).file.size < d.offsetNode + d.currentSize * sizeofNode

instance (d : OdbData) : Decidable (GrowFaults d) :=
  inferInstanceAs (Decidable ((odbRemap d).file.size < d.offsetNode + d.currentSize * sizeofNode))

/-- `odb_add_node`, with the reaction of its caller to a failure. -/
def odbAddNode (io : GrowOutcome) (d : OdbData) (key value : Nat) : Except ImportStop OdbData :=
  if d.size ≤ d.currentSize ∧ io = .ok ∧ GrowFaults d then .error .fault
  else
    match addNode io d key value with
    | (0, d) => .ok d
    | _ => .error .exitFailure

/-- The body of the loop over the nodes. -/
def importNode (abi : Abi) (order : Order) (file : File) (step : Nat) (grow : Nat → GrowOutcome)
    (s : Int × OdbData) (i : Nat) : Except ImportStop (Int × OdbData) := do
  let key ← extract abi order file 8 s.1 .sizeofOdbKeyT .offsetofNodeKey
  let val ← extract abi order file 4 s.1 .sizeofOdbValueT .offsetofNodeValue
  let d ← odbAddNode (grow i) s.2 key val
  return (s.1 + step, d)

/-- What `dest` maps: the header that `odb_get_data` gives and the tables behind it. -/
structure Destination where
  head : OpdHeader
  data : OdbData

/-- `import_from_abi`; `grow i` is how the system calls of a growth end when node `i` needs one. -/
def importFromAbi (abi : Abi) (file : File) (grow : Nat → GrowOutcome) (dest : Destination) :
    Except ImportStop Destination := do
  let endian ← abi.need .littleEndian
  let order := if endian = 1 then Order.little else Order.big
  let head ← importHeader abi order file dest.head
  let src ← abi.need .sizeofStructOpdHeader
  let nodeNr ← extract abi order file 4 src .sizeofOdbNodeNrT .offsetofDescrCurrentSize
  let descr ← abi.need .sizeofOdbDescrT
  let node ← abi.need .sizeofOdbNodeT
  -- node zero is reserved
  let src := src + descr + node
  let step := (node % 2 ^ 32).toNat
  if src + (nodeNr * step % 2 ^ 32 : Nat) ≤ file.size then
    let s ← (List.range' 1 (nodeNr - 1)).foldlM (importNode abi order file step grow) (src, dest.data)
    return { head, data := s.2 }
  else .error .assertFailed

/-- What `odb_open` makes of an output file that is not there yet: its header is zero. -/
def newDestination : Destination :=
  { head := ⟨[0, 0, 0, 0], 0, 0, 0, 0, 0, 0, 0, 0, 0, 0, 0, 0, 0⟩
    data := odbOpenNew (abiEntries .sizeofStructOpdHeader) }

end Oprofile.Libabi
