import Oprofile.Library.BitFields
import Oprofile.SampleNames.Mangle

/-! The Pentium 4 events and their encoding (`op_netburst.h`, `op_netburst.c`). -/
namespace Oprofile.Libop

open BitFields
open SampleNames (Text)

def eventMaskBits : Nat := 16

/-- A `netburst_entry_t`: of `perf_code` the number, of each `event_masks` entry the bit. -/
structure NetburstEntry where
  name : Text
  eventSelect : Nat
  escrSelect : Nat
  perfCode : Nat
  eventMasks : List Nat
  deriving DecidableEq

/-- `op_netburst_events` -/
def opNetburstEvents : List NetburstEntry :=
  [ ⟨['T', 'C', '_', 'D', 'E', 'L', 'I', 'V', 'E', 'R', '_', 'M', 'O', 'D', 'E'],
      0x1, 0x1, 0, [0, 1, 2, 3, 4, 5, 6, 7]⟩
  , ⟨['B', 'P', 'U', '_', 'F', 'E', 'T', 'C', 'H', '_', 'R', 'E', 'Q', 'U', 'E', 'S', 'T'], 0x3, 0x0, 1, [0]⟩
  , ⟨['I', 'T', 'L', 'B', '_', 'R', 'E', 'F', 'E', 'R', 'E', 'N', 'C', 'E'], 0x18, 0x3, 2, [0, 1, 2]⟩
  , ⟨['M', 'E', 'M', 'O', 'R', 'Y', '_', 'C', 'A', 'N', 'C', 'E', 'L'], 0x2, 0x5, 3, [2, 3]⟩
  , ⟨['M', 'E', 'M', 'O', 'R', 'Y', '_', 'C', 'O', 'M', 'P', 'L', 'E', 'T', 'E'], 0x8, 0x2, 4, [0, 1]⟩
  , ⟨['L', 'O', 'A', 'D', '_', 'P', 'O', 'R', 'T', '_', 'R', 'E', 'P', 'L', 'A', 'Y'], 0x4, 0x2, 5, [1]⟩
  , ⟨['S', 'T', 'O', 'R', 'E', '_', 'P', 'O', 'R', 'T', '_', 'R', 'E', 'P', 'L', 'A', 'Y'], 0x5, 0x2, 6, [1]⟩
  , ⟨['M', 'O', 'B', '_', 'L', 'O', 'A', 'D', '_', 'R', 'E', 'P', 'L', 'A', 'Y'], 0x3, 0x2, 7, [1, 3, 4, 5]⟩
  , ⟨['P', 'A', 'G', 'E', '_', 'W', 'A', 'L', 'K', '_', 'T', 'Y', 'P', 'E'], 0x1, 0x4, 8, [0, 1]⟩
  , ⟨['B', 'S', 'Q', '_', 'C', 'A', 'C', 'H', 'E', '_', 'R', 'E', 'F', 'E', 'R', 'E', 'N', 'C', 'E'],
      0xc, 0x7, 9, [0, 1, 2, 3, 4, 5, 8, 9, 10]⟩
  , ⟨['I', 'O', 'Q', '_', 'A', 'L', 'L', 'O', 'C', 'A', 'T', 'I', 'O', 'N'],
      0x3, 0x6, 10, [0, 1, 2, 3, 4, 5, 6, 7, 8, 9, 10, 11, 13, 14, 15]⟩
  , ⟨['I', 'O', 'Q', '_', 'A', 'C', 'T', 'I', 'V', 'E', '_', 'E', 'N', 'T', 'R', 'I', 'E', 'S'],
      0x1a, 0x6, 11, [0, 1, 2, 3, 4, 5, 6, 7, 8, 9, 10, 11, 13, 14, 15]⟩
  , ⟨['F', 'S', 'B', '_', 'D', 'A', 'T', 'A', '_', 'A', 'C', 'T', 'I', 'V', 'I', 'T', 'Y'],
      0x17, 0x6, 12, [0, 1, 2, 3, 4, 5]⟩
  , ⟨['B', 'S', 'Q', '_', 'A', 'L', 'L', 'O', 'C', 'A', 'T', 'I', 'O', 'N'],
      0x5, 0x7, 13, [0, 1, 2, 3, 5, 6, 7, 8, 9, 10, 11, 12, 13]⟩
  , ⟨['B', 'S', 'Q', '_', 'A', 'C', 'T', 'I', 'V', 'E', '_', 'E', 'N', 'T', 'R', 'I', 'E', 'S'],
      0x6, 0x7, 14, [0, 1, 2, 3, 5, 6, 7, 8, 9, 10, 11, 12, 13]⟩
  , ⟨['S', 'S', 'E', '_', 'I', 'N', 'P', 'U', 'T', '_', 'A', 'S', 'S', 'I', 'S', 'T'], 0x34, 0x1, 15, [15]⟩
  , ⟨['P', 'A', 'C', 'K', 'E', 'D', '_', 'S', 'P', '_', 'U', 'O', 'P'], 0x8, 0x1, 16, [15, 16, 17, 18, 19]⟩
  , ⟨['P', 'A', 'C', 'K', 'E', 'D', '_', 'D', 'P', '_', 'U', 'O', 'P'], 0xc, 0x1, 17, [15, 16, 17, 18, 19]⟩
  , ⟨['S', 'C', 'A', 'L', 'A', 'R', '_', 'S', 'P', '_', 'U', 'O', 'P'], 0xa, 0x1, 18, [15, 16, 17, 18, 19]⟩
  , ⟨['S', 'C', 'A', 'L', 'A', 'R', '_', 'D', 'P', '_', 'U', 'O', 'P'], 0xe, 0x1, 19, [15, 16, 17, 18, 19]⟩
  , ⟨['6', '4', 'B', 'I', 'T', '_', 'M', 'M', 'X', '_', 'U', 'O', 'P'], 0x2, 0x1, 20, [15, 16, 17, 18, 19]⟩
  , ⟨['1', '2', '8', 'B', 'I', 'T', '_', 'M', 'M', 'X', '_', 'U', 'O', 'P'], 0x1a, 0x1, 21, [15, 16, 17, 18, 19]⟩
  , ⟨['X', '8', '7', '_', 'F', 'P', '_', 'U', 'O', 'P'], 0x4, 0x1, 22, [15, 16, 17, 18, 19]⟩
  , ⟨['T', 'C', '_', 'm', 'i', 's', 'c'], 0x6, 0x1, 23, [4]⟩
  , ⟨['G', 'L', 'O', 'B', 'A', 'L', '_', 'P', 'O', 'W', 'E', 'R', '_', 'E', 'V', 'E', 'N', 'T', 'S'],
      0x13, 0x6, 24, [0]⟩
  , ⟨['T', 'C', '_', 'M', 'S', '_', 'X', 'F', 'E', 'R'], 0x5, 0x0, 25, [0]⟩
  , ⟨['U', 'O', 'P', '_', 'Q', 'U', 'E', 'U', 'E', '_', 'W', 'R', 'I', 'T', 'E', 'S'], 0x9, 0x0, 26, [0, 1, 2]⟩
  , ⟨['R', 'E', 'T', 'I', 'R', 'E', 'D', '_', 'M', 'I', 'S', 'P', 'R',
      'E', 'D', '_', 'B', 'R', 'A', 'N', 'C', 'H', '_', 'T', 'Y', 'P', 'E'],
      0x5, 0x2, 27, [1, 2, 3, 4]⟩
  , ⟨['R', 'E', 'T', 'I', 'R', 'E', 'D', '_', 'B', 'R', 'A', 'N', 'C', 'H', '_', 'T', 'Y', 'P', 'E'],
      0x4, 0x2, 28, [1, 2, 3, 4]⟩
  , ⟨['r', 'e', 's', 'o', 'u', 'r', 'c', 'e', '_', 's', 't', 'a', 'l', 'l'], 0x1, 0x1, 29, [5]⟩
  , ⟨['W', 'C', '_', 'B', 'u', 'f', 'f', 'e', 'r'], 0x5, 0x5, 30, [0, 1]⟩
  , ⟨['b', '2', 'b', '_', 'c', 'y', 'c', 'l', 'e', 's'], 0x16, 0x3, 31, [1, 2, 3, 4, 4, 4]⟩
  , ⟨['b', 'n', 'r'], 0x8, 0x3, 32, [0, 1, 2]⟩
  , ⟨['s', 'n', 'o', 'o', 'p'], 0x6, 0x3, 33, [2, 6, 7]⟩
  , ⟨['r', 'e', 's', 'p', 'o', 'n', 's', 'e'], 0x4, 0x3, 34, [1, 2, 8, 9]⟩
  , ⟨['f', 'r', 'o', 'n', 't', '_', 'e', 'n', 'd', '_', 'e', 'v', 'e', 'n', 't'], 0x8, 0x5, 35, [0, 1]⟩
  , ⟨['e', 'x', 'e', 'c', 'u', 't', 'i', 'o', 'n', '_', 'e', 'v', 'e', 'n', 't'],
      0xc, 0x5, 36, [0, 1, 2, 3, 4, 5, 6, 7]⟩
  , ⟨['r', 'e', 'p', 'l', 'a', 'y', '_', 'e', 'v', 'e', 'n', 't'], 0x9, 0x5, 37, [0, 1, 2, 3, 4, 5, 6, 7, 8, 9, 10]⟩
  , ⟨['I', 'N', 'S', 'T', 'R', '_', 'R', 'E', 'T', 'I', 'R', 'E', 'D'], 0x2, 0x4, 38, [0, 1, 2, 3]⟩
  , ⟨['U', 'O', 'P', 'S', '_', 'R', 'E', 'T', 'I', 'R', 'E', 'D'], 0x1, 0x4, 39, [0, 1]⟩
  , ⟨['U', 'O', 'P', '_', 'T', 'Y', 'P', 'E'], 0x2, 0x2, 40, [1, 2]⟩
  , ⟨['B', 'R', 'A', 'N', 'C', 'H', '_', 'R', 'E', 'T', 'I', 'R', 'E', 'D'], 0x6, 0x5, 41, [0, 1, 2, 3]⟩
  , ⟨['M', 'I', 'S', 'P', 'R', 'E', 'D', '_', 'B', 'R', 'A', 'N', 'C', 'H', '_', 'R', 'E', 'T', 'I', 'R', 'E', 'D'],
      0x3, 0x4, 42, [0]⟩
  , ⟨['X', '8', '7', '_', 'A', 'S', 'S', 'I', 'S', 'T'], 0x3, 0x5, 43, [0, 1, 2, 3, 4]⟩
  , ⟨['M', 'A', 'C', 'H', 'I', 'N', 'E', '_', 'C', 'L', 'E', 'A', 'R'], 0x2, 0x5, 44, [0, 2, 6]⟩
  , ⟨['i', 'n', 's', 't', 'r', '_', 'c', 'o', 'm', 'p', 'l', 'e', 't', 'e', 'd'], 0x7, 0x4, 45, [0, 1]⟩ ]

/-- The fields of `netburst_escr_value_t` as assignments. -/
structure EscrBits where
  usr : Bool
  os : Bool
  tagEnable : Nat
  tagValue : Nat
  eventMask : Nat
  eventSelect : Nat

/-- The assignments to `escr.bits`; the mode bits of both threads are set, or left alone. -/
def assignEscr (escr : BitVec 64) (b : EscrBits) : BitVec 64 :=
  let escr := if b.usr then setField (setField escr 0 1 1) 2 1 1 else escr
  let escr := if b.os then setField (setField escr 1 1 1) 3 1 1 else escr
  let escr := setField escr 4 1 b.tagEnable
  let escr := setField escr 5 4 b.tagValue
  let escr := setField escr 9 eventMaskBits b.eventMask
  setField escr 25 6 b.eventSelect

/-- The assignments to `cccr.bits`. -/
def assignCccr (cccr : BitVec 64) (escrSelect : Nat) : BitVec 64 :=
  setField (setField (setField cccr 12 1 1) 13 3 escrSelect) 16 2 3

/-- `op_netburst_get_perf_encoding` from where the event and the bit of its unit mask are found; `escr` and `cccr`
are what the two unions hold before they are assigned. -/
def encodeEntry (e : NetburstEntry) (bit : Nat) (doKernel doUser : Bool) (escr cccr : BitVec 64) : BitVec 64 :=
  let evmask := if bit < eventMaskBits then 1 <<< bit else 0
  let tagValue := if bit ≥ eventMaskBits then 1 <<< (bit - eventMaskBits) else 0
  let tagEnable := if bit ≥ eventMaskBits then 1 else 0
  let escr := assignEscr escr ⟨doUser, doKernel, tagEnable, tagValue, evmask, e.eventSelect⟩
  let cccr := assignCccr cccr e.escrSelect
  let escrVal := escr &&& ~~~((0x3f : BitVec 64) <<< 25)
  let escrVal := escrVal ||| BitVec.ofNat 64 (e.perfCode <<< 25)
  (escrVal <<< 32) ||| cccr

/-- `op_netburst_get_perf_encoding`; nothing when it returns -1. -/
def opNetburstGetPerfEncoding (evtName : Text) (evtUm : BitVec 64) (doKernel doUser : Bool)
    (escr cccr : BitVec 64) : Option (BitVec 64) :=
  match opNetburstEvents.find? (·.name = evtName) with
  | none => none
  | some e =>
    match e.eventMasks.find? fun bit => evtUm = (1 : BitVec 64) <<< bit with
    | none => none
    | some bit => some (encodeEntry e bit doKernel doUser escr cccr)

end Oprofile.Libop
