import Oprofile.Library.Loops
import Oprofile.Library.Results
import Oprofile.Libabi.OpImport
import Oprofile.Libdb.Sequences

/-! What an import makes of a sample file laid out by a foreign ABI. -/
namespace Oprofile.Libabi

open ByteMem Records ByteOrder Results Libdb

/-- What a sample file says: its header and the pairs of its nodes, from node 1 on. -/
structure SampleFile where
  head : OpdHeader
  nodes : List (Nat × Nat)

/-- The fields of `struct opd_header` that are declared as `u32` and imported. -/
def SampleFile.u32Fields (s : SampleFile) : List (AbiKey × UInt32) :=
  [(.offsetofHeaderVersion, s.head.version), (.offsetofHeaderCpuType, s.head.cpuType),
    (.offsetofHeaderCtrEvent, s.head.ctrEvent), (.offsetofHeaderCtrUm, s.head.ctrUm),
    (.offsetofHeaderCtrCount, s.head.ctrCount), (.offsetofHeaderIsKernel, s.head.isKernel),
    (.offsetofHeaderCgToIsKernel, s.head.cgToIsKernel)]

/-- Those that are declared as `u64`. -/
def SampleFile.u64Fields (s : SampleFile) : List (AbiKey × UInt64) :=
  [(.offsetofHeaderMtime, s.head.mtime), (.offsetofHeaderAnonStart, s.head.anonStart),
    (.offsetofHeaderCgToAnonStart, s.head.cgToAnonStart)]

/-- A description whose integers are those of the declarations and whose database types are no larger than the
native ones. Its structures may have any size and its fields any place. -/
structure Consistent (abi : Abi) (a : AbiKey → Nat) : Prop where
  slots : ∀ k, abi k = some (a k : Int)
  int : ∀ k, a k < 2 ^ 31
  u32 : a .sizeofU32 = 4
  u64 : a .sizeofU64 = 8
  key : a .sizeofOdbKeyT ≤ 8
  value : a .sizeofOdbValueT ≤ 4
  index : a .sizeofOdbIndexT ≤ 4
  nodeNr : a .sizeofOdbNodeNrT ≤ 4

def orderOf (a : AbiKey → Nat) : Order := if a .littleEndian = 1 then .little else .big

/-- The number is in the file, in the width that the description gives its type. -/
structure StoredAs (a : AbiKey → Nat) (file : File) (pos : Nat) (sz : AbiKey) (v : Nat) : Prop where
  fits : v < 256 ^ a sz
  bytes : Holds file pos ((orderOf a).encode (a sz) v)

/-- Where node `i` of a foreign file begins. -/
def nodePos (a : AbiKey → Nat) (i : Nat) : Nat :=
  a .sizeofStructOpdHeader + a .sizeofOdbDescrT + a .sizeofOdbNodeT + (i - 1) * a .sizeofOdbNodeT

/-- The file has everything that an import reads, at the places of the description. -/
structure LaidOut (a : AbiKey → Nat) (s : SampleFile) (file : File) : Prop where
  magic_length : s.head.magic.length = 4
  magic : Holds file (a .offsetofHeaderMagic) s.head.magic
  u32 : ∀ f ∈ s.u32Fields, StoredAs a file (a f.1) .sizeofU32 f.2.toNat
  u64 : ∀ f ∈ s.u64Fields, StoredAs a file (a f.1) .sizeofU64 f.2.toNat
  currentSize : StoredAs a file (a .sizeofStructOpdHeader + a .offsetofDescrCurrentSize) .sizeofOdbNodeNrT
    (s.nodes.length + 1)
  keys : ∀ i, (hi : i < s.nodes.length) →
    StoredAs a file (nodePos a (i + 1) + a .offsetofNodeKey) .sizeofOdbKeyT s.nodes[i].1
  values : ∀ i, (hi : i < s.nodes.length) →
    StoredAs a file (nodePos a (i + 1) + a .offsetofNodeValue) .sizeofOdbValueT s.nodes[i].2

/-- The destination has the values of the source and its pairs. -/
structure Faithful (s : SampleFile) (dest : Destination) : Prop where
  magic : dest.head.magic = s.head.magic
  version : dest.head.version = s.head.version
  cpuType : dest.head.cpuType = s.head.cpuType
  ctrEvent : dest.head.ctrEvent = s.head.ctrEvent
  ctrUm : dest.head.ctrUm = s.head.ctrUm
  ctrCount : dest.head.ctrCount = s.head.ctrCount
  isKernel : dest.head.isKernel = s.head.isKernel
  mtime : dest.head.mtime = s.head.mtime
  cgToIsKernel : dest.head.cgToIsKernel = s.head.cgToIsKernel
  anonStart : dest.head.anonStart = s.head.anonStart
  cgToAnonStart : dest.head.cgToAnonStart = s.head.cgToAnonStart
  nodes : odbEntries dest.data = s.nodes

/-- The first four bytes of a 64-bit field have the whole value. -/
def FirstWordOnly (a : AbiKey → Nat) (v : UInt64) : Prop :=
  if a .littleEndian = 1 then v.toNat < 2 ^ 32 else v = 0

/-- The file goes on for `current_size` nodes behind node zero, by the sum that is asserted. -/
def RoomBehind (a : AbiKey → Nat) (s : SampleFile) (file : File) : Prop :=
  nodePos a 1 + (s.nodes.length + 1) * a .sizeofOdbNodeT % 2 ^ 32 ≤ file.size

variable {abi : Abi} {a : AbiKey → Nat} {s : SampleFile} {file : File} {sz : AbiKey} {pos v width : Nat}

/-! The reads of an import. -/

theorem Consistent.need (hc : Consistent abi a) (k : AbiKey) : abi.need k = .ok (a k : Int) := by
  rw [Abi.need, hc.slots k]

/-- A number in the file is what is extracted, in a type that is wide enough. -/
theorem extract_storedAs (hc : Consistent abi a) (src : Int) (off : AbiKey) (h : StoredAs a file pos sz v)
    (hpos : src + (a off : Int) = pos) (hw : a sz ≤ width) : extract abi (orderOf a) file width src sz off = .ok v := by
  have hint := hc.int sz
  have hbytes : ((a sz : Int) % 2 ^ 64).toNat = a sz := by omega
  simp only [extract, hc.need, ok_then, hbytes, hpos]
  by_cases hzero : a sz = 0
  · have hfits := h.fits
    rw [hzero, Nat.pow_zero, Nat.lt_one_iff] at hfits
    rw [if_pos hzero, hfits]
  · have hlen : ((orderOf a).encode (a sz) v).length = a sz := encode_length ..
    have hend := h.bytes.end_le (by omega)
    have hload := h.bytes.loaded
    rw [hlen] at hload hend
    have hcond : a sz ≤ width ∧ (0 : Int) ≤ pos ∧ (pos : Int) + a sz ≤ file.size := by omega
    rw [if_neg hzero, if_pos hcond, Int.toNat_natCast, hload, gather_encode hw, Nat.mod_eq_of_lt h.fits]

theorem extractU32_storedAs (hc : Consistent abi a) {f : AbiKey × UInt32}
    (h : StoredAs a file (a f.1) .sizeofU32 f.2.toNat) :
    extractU32 abi (orderOf a) file 0 .sizeofU32 f.1 = .ok f.2 := by
  rw [extractU32, extract_storedAs hc 0 f.1 h (Int.zero_add _) (le_of_eq hc.u32), ok_then, UInt32.ofNat_toNat]
  rfl

theorem extractU64_storedAs (hc : Consistent abi a) {f : AbiKey × UInt64}
    (h : StoredAs a file (a f.1) .sizeofU64 f.2.toNat) :
    extractU64 abi (orderOf a) file 0 .sizeofU64 f.1 = .ok f.2 := by
  rw [extractU64, extract_storedAs hc 0 f.1 h (Int.zero_add _) (le_of_eq hc.u64), ok_then, UInt64.ofNat_toNat]
  rfl

/-- What an import makes of an anonymous start. -/
def firstWord (a : AbiKey → Nat) (v : UInt64) : UInt64 := UInt64.ofNat ((orderOf a).first 4 4 v.toNat)

/-- Read with the size of a `u32`, a 64-bit field gives its first four bytes. -/
theorem extractU64_first (hc : Consistent abi a) {f : AbiKey × UInt64}
    (h : StoredAs a file (a f.1) .sizeofU64 f.2.toNat) :
    extractU64 abi (orderOf a) file 0 .sizeofU32 f.1 = .ok (firstWord a f.2) := by
  have hlt := f.2.toNat_lt
  have hbytes := h.bytes
  rw [hc.u64] at hbytes
  have hfits : (orderOf a).first 4 4 f.2.toNat < 256 ^ a .sizeofU32 := by
    rw [hc.u32]
    cases orderOf a with
    | little => exact Nat.mod_lt _ (by decide)
    | big => exact Nat.div_lt_of_lt_mul hlt
  have hstored : StoredAs a file (a f.1) .sizeofU32 ((orderOf a).first 4 4 f.2.toNat) := by
    refine ⟨hfits, ?_⟩
    rw [hc.u32]
    exact holds_first (m := 4) (n := 4) hbytes
  have hw : a .sizeofU32 ≤ 8 := by
    rw [hc.u32]
    decide
  rw [extractU64, extract_storedAs hc 0 f.1 hstored (Int.zero_add _) hw, ok_then]
  rfl

theorem firstWord_eq_iff (a : AbiKey → Nat) (v : UInt64) : firstWord a v = v ↔ FirstWordOnly a v := by
  have hlt := v.toNat_lt
  have hle : (orderOf a).first 4 4 v.toNat ≤ v.toNat := by
    cases orderOf a with
    | little => exact Nat.mod_le _ _
    | big => exact Nat.div_le_self _ _
  have hvalue : firstWord a v = v ↔ (orderOf a).first 4 4 v.toNat = v.toNat := by
    rw [firstWord, ← UInt64.toNat_inj, UInt64.toNat_ofNat', Nat.mod_eq_of_lt (by omega)]
  rw [hvalue, FirstWordOnly, orderOf]
  by_cases hlittle : a .littleEndian = 1
  · rw [if_pos hlittle, if_pos hlittle]
    change v.toNat % 256 ^ 4 = v.toNat ↔ _
    omega
  · rw [if_neg hlittle, if_neg hlittle, ← UInt64.toNat_inj]
    change v.toNat / 256 ^ 4 = v.toNat ↔ v.toNat = 0
    omega

theorem copyMagic_laidOut (hc : Consistent abi a) (hl : LaidOut a s file) : copyMagic abi file = .ok s.head.magic := by
  have hlen := hl.magic_length
  have hend := hl.magic.end_le (by omega)
  have hload := hl.magic.loaded
  rw [hlen] at hload
  have hcond : (0 : Int) ≤ a .offsetofHeaderMagic ∧ (a .offsetofHeaderMagic : Int) + 4 ≤ file.size := by omega
  rw [copyMagic, hc.need, ok_then, if_pos hcond, Int.toNat_natCast, hload]

/-- The header of the destination. -/
theorem importHeader_laidOut (hc : Consistent abi a) (hl : LaidOut a s file) (head : OpdHeader) :
    importHeader abi (orderOf a) file head = .ok
      { s.head with
        cpuSpeed := 0, spuProfile := head.spuProfile, embeddedOffset := head.embeddedOffset
        anonStart := firstWord a s.head.anonStart, cgToAnonStart := firstWord a s.head.cgToAnonStart } := by
  have hmagic := copyMagic_laidOut hc hl
  have h32 : ∀ f ∈ s.u32Fields, extractU32 abi (orderOf a) file 0 .sizeofU32 f.1 = .ok f.2 :=
    fun f hf => extractU32_storedAs hc (hl.u32 f hf)
  have hmtime := extractU64_storedAs hc (hl.u64 _ (List.mem_cons_self ..))
  have hanon := extractU64_first hc (hl.u64 (.offsetofHeaderAnonStart, s.head.anonStart) (by simp [SampleFile.u64Fields]))
  have hcg := extractU64_first hc
    (hl.u64 (.offsetofHeaderCgToAnonStart, s.head.cgToAnonStart) (by simp [SampleFile.u64Fields]))
  simp only [SampleFile.u32Fields, List.forall_mem_cons, List.not_mem_nil, false_imp_iff, implies_true, and_true] at h32
  obtain ⟨hversion, hcpuType, hctrEvent, hctrUm, hctrCount, hisKernel, hcgToIsKernel⟩ := h32
  dsimp only at hmtime hanon hcg
  simp only [importHeader, hmagic, hversion, hcpuType, hctrEvent, hctrUm, hctrCount, hisKernel, hmtime, hcgToIsKernel,
    hanon, hcg, ok_then]
  rfl

end Oprofile.Libabi
