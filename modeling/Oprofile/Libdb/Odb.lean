import Oprofile.Library.ByteMem
import Oprofile.Library.IndexChain

/-! The sample store of libdb: one file holding a header, the descriptor, the node array and the
hash table (`odb.h`, `db_manage.c`, `db_insert.c`, `db_travel.c`). -/
namespace Oprofile.Libdb

open ByteMem IndexChain

def bucketFactor : Nat := 1

/-- `sizeof(odb_node_t)`: key (8), value (4), next (4). -/
def sizeofNode : Nat := 16

def sizeofIndex : Nat := 4

/-- `sizeof(odb_descr_t)`: size, current_size and six padding words. -/
def sizeofDescr : Nat := 32

/-- `odb_data_t`, with pointers kept as byte offsets from `base_memory`. -/
structure OdbData where
  /-- The file behind `fd`; `base_memory` is a shared mapping of all of it. -/
  file : File
  sizeofHeader : Nat
  offsetNode : Nat
  descr : Nat
  nodeBase : Nat
  hashBase : Nat
  hashMask : Nat

namespace OdbData

variable (d : OdbData)

def write32 (a v : Nat) : OdbData :=
  { d with file := { d.file with byte := put32 d.file.byte a v } }

def write64 (a v : Nat) : OdbData :=
  { d with file := { d.file with byte := put64 d.file.byte a v } }

/-- `data->descr->size` -/
def size : Nat := get32 d.file.byte d.descr

/-- `data->descr->current_size` -/
def currentSize : Nat := get32 d.file.byte (d.descr + 4)

def key (i : Nat) : Nat := get64 d.file.byte (d.nodeBase + i * sizeofNode)
def value (i : Nat) : Nat := get32 d.file.byte (d.nodeBase + i * sizeofNode + 8)
def next (i : Nat) : Nat := get32 d.file.byte (d.nodeBase + i * sizeofNode + 12)

/-- `data->hash_base[b]` -/
def bucket (b : Nat) : Nat := get32 d.file.byte (d.hashBase + b * sizeofIndex)

def setSize (v : Nat) : OdbData := d.write32 d.descr v
def setCurrentSize (v : Nat) : OdbData := d.write32 (d.descr + 4) v
def setKey (i v : Nat) : OdbData := d.write64 (d.nodeBase + i * sizeofNode) v
def setValue (i v : Nat) : OdbData := d.write32 (d.nodeBase + i * sizeofNode + 8) v
def setNext (i v : Nat) : OdbData := d.write32 (d.nodeBase + i * sizeofNode + 12) v
def setBucket (b v : Nat) : OdbData := d.write32 (d.hashBase + b * sizeofIndex) v

end OdbData

/-- `odb_do_hash`; `temp` is a `uint32_t`. -/
def odbDoHash (d : OdbData) (value : Nat) : Nat :=
  let temp := ((value >>> 32) ^^^ value) % 2 ^ 32
  ((temp <<< 0) ^^^ (temp >>> 8)) &&& d.hashMask

def odbToDescr (d : OdbData) : Nat := d.sizeofHeader

def odbToNodeBase (d : OdbData) : Nat := d.offsetNode

def odbToHashBase (d : OdbData) : Nat := d.offsetNode + d.size * sizeofNode

/-- `tables_size`: summed as `size_t`, returned as `unsigned int`. -/
def tablesSize (d : OdbData) (nodeNr : Nat) : Nat :=
  (nodeNr * (sizeofIndex * bucketFactor) + nodeNr * sizeofNode + d.offsetNode) % 2 ^ 64 % 2 ^ 32

/-- What the two system calls of `odb_grow_hashtable` answer. -/
inductive GrowOutcome
  | ok
  | ftruncateFails
  | mremapFails
  deriving DecidableEq

/-- The part of `odb_grow_hashtable` before the rebuild: the file is extended, mapped again, and
the descriptor and the pointers are set for twice as many nodes. -/
def odbRemap (d : OdbData) : OdbData :=
  let newFileSize := tablesSize d (d.size * 2 % 2 ^ 32)
  let d := { d with file := d.file.truncate newFileSize }
  let d := { d with descr := odbToDescr d }
  let d := d.setSize (d.size * 2 % 2 ^ 32)
  let d := { d with nodeBase := odbToNodeBase d }
  let d := { d with hashBase := odbToHashBase d }
  { d with hashMask := d.size * bucketFactor - 1 }

/-- The body of the rebuild loop: node `pos` becomes the head of its bucket. -/
def odbRelink (d : OdbData) (pos : Nat) : OdbData :=
  let index := odbDoHash d (d.key pos)
  let d := d.setNext pos (d.bucket index)
  d.setBucket index pos

/-- `for (pos = 1 ; pos < data->descr->current_size ; ++pos)`; the body leaves the descriptor
alone, so the bound is read once. -/
def odbRebuild (d : OdbData) : OdbData :=
  (List.range' 1 (d.currentSize - 1)).foldl odbRelink d

/-- `odb_grow_hashtable`: status 1 when a system call fails, else 0. -/
def odbGrowHashtable (io : GrowOutcome) (d : OdbData) : Nat × OdbData :=
  match io with
  | .ftruncateFails => (1, d)
  | .mremapFails =>
    (1, { d with file := d.file.truncate (tablesSize d (d.size * 2 % 2 ^ 32)) })
  | .ok => (0, odbRebuild (odbRemap d))

def odbCommitReservation (d : OdbData) : OdbData :=
  d.setCurrentSize ((d.currentSize + 1) % 2 ^ 32)

def EINVAL : Nat := 22

/-- `add_node`, from the free node on: fill it, link it, commit it. -/
def addFreeNode (d : OdbData) (key value : Nat) : OdbData :=
  let newNode := d.currentSize
  let d := d.setValue newNode value
  let d := d.setKey newNode key
  let index := odbDoHash d key
  let d := d.setNext newNode (d.bucket index)
  let d := d.setBucket index newNode
  odbCommitReservation d

/-- `add_node`; a full table is grown first. -/
def addNode (io : GrowOutcome) (d : OdbData) (key value : Nat) : Nat × OdbData :=
  if d.currentSize ≥ d.size then
    match odbGrowHashtable io d with
    | (0, d) => (0, addFreeNode d key value)
    | (_, d) => (EINVAL, d)
  else (0, addFreeNode d key value)

/-- Indices are 32 bits wide: a walk of more steps visits one twice and never ends. -/
def walkFuel : Nat := 2 ^ 32

/-- `odb_update_node_with_offset`. Nothing is returned when the walk along the bucket does not
end. The overflow test is made in `unsigned long`, the addition in `unsigned int`. -/
def odbUpdateNodeWithOffset (io : GrowOutcome) (d : OdbData) (key offset : UInt64) :
    Option (Nat × OdbData) :=
  let index := d.bucket (odbDoHash d key.toNat)
  match walk d.next (fun i => d.key i == key.toNat) walkFuel index with
  | none => none
  | some 0 => some (addNode io d key.toNat (offset.toNat % 2 ^ 32))
  | some (i + 1) =>
    if (d.value (i + 1) + offset.toNat) % 2 ^ 64 ≠ 0 then
      some (0, d.setValue (i + 1) ((d.value (i + 1) + offset.toNat) % 2 ^ 32))
    else some (0, d)

def odbUpdateNode (io : GrowOutcome) (d : OdbData) (key : UInt64) : Option (Nat × OdbData) :=
  odbUpdateNodeWithOffset io d key 1

def defaultNodeNr : Nat := 128

/-- `odb_open` for a file that does not exist yet (`st_size == 0`, opened for writing). -/
def odbOpenNew (sizeofHeader : Nat) : OdbData :=
  let d : OdbData :=
    { file := File.empty, sizeofHeader, offsetNode := sizeofHeader + sizeofDescr,
      descr := 0, nodeBase := 0, hashBase := 0, hashMask := 0 }
  let d := { d with file := d.file.truncate (tablesSize d defaultNodeNr) }
  let d := { d with descr := odbToDescr d }
  let d := d.setSize defaultNodeNr
  let d := d.setCurrentSize 1
  let d := { d with hashBase := odbToHashBase d }
  let d := { d with nodeBase := odbToNodeBase d }
  { d with hashMask := d.size * bucketFactor - 1 }

/-- `odb_get_iterator`: the first node to visit and how many there are. -/
def odbGetIterator (d : OdbData) : Nat × Nat := (1, d.currentSize - 1)

/-- What a caller of `odb_get_iterator` reads when it walks the array. -/
def odbEntries (d : OdbData) : List (Nat × Nat) :=
  let (node, nodeNr) := odbGetIterator d
  (List.range nodeNr).map fun pos => (d.key (node + pos), d.value (node + pos))

end Oprofile.Libdb
