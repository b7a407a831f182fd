import Oprofile.Libabi.ImportNodes

/-! When an import is faithful. -/
namespace Oprofile.Libabi

open ByteMem Records ByteOrder Results Libdb

variable {abi : Abi} {a : AbiKey → Nat} {s : SampleFile} {file : File} {grow : Nat → GrowOutcome}

/-- The header that an import gives the destination. -/
def importedHeader (a : AbiKey → Nat) (s : SampleFile) : OpdHeader :=
  { s.head with
    cpuSpeed := 0, spuProfile := 0, embeddedOffset := 0
    anonStart := firstWord a s.head.anonStart, cgToAnonStart := firstWord a s.head.cgToAnonStart }

instance (a : AbiKey → Nat) (s : SampleFile) (file : File) : Decidable (RoomBehind a s file) :=
  inferInstanceAs (Decidable (nodePos a 1 + (s.nodes.length + 1) * a .sizeofOdbNodeT % 2 ^ 32 ≤ file.size))

instance (a : AbiKey → Nat) (v : UInt64) : Decidable (FirstWordOnly a v) :=
  inferInstanceAs (Decidable (if a .littleEndian = 1 then v.toNat < 2 ^ 32 else v = 0))

/-- An import up to its loop. -/
theorem importFromAbi_eq (hc : Consistent abi a) (hl : LaidOut a s file) (grow : Nat → GrowOutcome) :
    importFromAbi abi file grow newDestination =
      if RoomBehind a s file then
        ((List.range' 1 s.nodes.length).foldlM (importNode abi (orderOf a) file (a .sizeofOdbNodeT) grow)
          ((nodePos a 1 : Nat), newDestination.data) >>= fun st => .ok { head := importedHeader a s, data := st.2 })
      else .error .assertFailed := by
  have horder : (if (a .littleEndian : Int) = 1 then Order.little else Order.big) = orderOf a := by
    rw [orderOf]
    exact if_congr Nat.cast_eq_one rfl rfl
  have hheader : importHeader abi (orderOf a) file newDestination.head = .ok (importedHeader a s) :=
    importHeader_laidOut hc hl newDestination.head
  have hnr := extract_storedAs hc (a .sizeofStructOpdHeader : Int) .offsetofDescrCurrentSize
    hl.currentSize (Nat.cast_add ..).symm hc.nodeNr
  have hint := hc.int .sizeofOdbNodeT
  have hstep : ((a .sizeofOdbNodeT : Int) % 2 ^ 32).toNat = a .sizeofOdbNodeT := by omega
  have hsrc : (a .sizeofStructOpdHeader : Int) + a .sizeofOdbDescrT + a .sizeofOdbNodeT = (nodePos a 1 : Nat) := by
    rw [nodePos, Nat.sub_self, Nat.zero_mul, Nat.add_zero]
    exact (by omega)
  have hroom : (nodePos a 1 : Int) + ((s.nodes.length + 1) * a .sizeofOdbNodeT % 2 ^ 32 : Nat) ≤ file.size ↔
      RoomBehind a s file := by
    rw [RoomBehind, ← Nat.cast_add, Nat.cast_le]
  simp only [importFromAbi, hc.need, ok_then, horder, hheader, hnr, hstep, hsrc, Nat.add_sub_cancel, hroom]
  rfl

/-- With the pairs in place, only the two anonymous starts can differ. -/
theorem faithful_imported_iff {d : OdbData} (hnodes : odbEntries d = s.nodes) :
    Faithful s { head := importedHeader a s, data := d } ↔
      FirstWordOnly a s.head.anonStart ∧ FirstWordOnly a s.head.cgToAnonStart := by
  rw [← firstWord_eq_iff, ← firstWord_eq_iff]
  constructor
  · intro h
    exact ⟨h.anonStart, h.cgToAnonStart⟩
  · rintro ⟨hanon, hcg⟩
    exact ⟨rfl, rfl, rfl, rfl, rfl, rfl, rfl, rfl, rfl, hanon, hcg, hnodes⟩

/-- An import is faithful if and only if the two anonymous starts have their value in their first four bytes, the
file passes the assertion and the nodes fit in the largest table that the destination can have. -/
theorem importFromAbi_faithful_iff (hc : Consistent abi a) (hl : LaidOut a s file) (hgrow : ∀ i, grow i = .ok) :
    (∃ dest, importFromAbi abi file grow newDestination = .ok dest ∧ Faithful s dest) ↔
      FirstWordOnly a s.head.anonStart ∧ FirstWordOnly a s.head.cgToAnonStart ∧ RoomBehind a s file ∧
        s.nodes.length < 2 ^ 27 := by
  rw [importFromAbi_eq hc hl grow]
  by_cases hroom : RoomBehind a s file
  · rw [if_pos hroom]
    by_cases hfew : s.nodes.length < 2 ^ 27
    · obtain ⟨st, hst, h⟩ := importNodes_ok (n := s.nodes.length) hc hl hgrow (Nat.le_refl _) hfew
      have hnodes : odbEntries st.2 = s.nodes := by
        rw [h.entries, Nat.add_sub_cancel_left, List.take_length]
      rw [hst, ok_then]
      constructor
      · rintro ⟨dest, hdest, hf⟩
        rw [← Except.ok.inj hdest, faithful_imported_iff hnodes] at hf
        exact ⟨hf.1, hf.2, hroom, hfew⟩
      · rintro ⟨hanon, hcg, -, -⟩
        exact ⟨_, rfl, (faithful_imported_iff hnodes).mpr ⟨hanon, hcg⟩⟩
    · rw [importNodes_fault hc hl hgrow (Nat.le_of_not_lt hfew)]
      constructor
      · rintro ⟨dest, hdest, -⟩
        cases hdest
      · rintro ⟨-, -, -, hlt⟩
        exact absurd hlt hfew
  · rw [if_neg hroom]
    constructor
    · rintro ⟨dest, hdest, -⟩
      cases hdest
    · rintro ⟨-, -, h, -⟩
      exact absurd h hroom

/-- A file as libdb writes it, with its hash table, has the room that is asserted, if a node is free or the hash
table is no shorter than a node. -/
theorem roomBehind_of_tables {size : Nat}
    (hsize : file.size = a .sizeofStructOpdHeader + a .sizeofOdbDescrT + size * a .sizeofOdbNodeT +
      size * a .sizeofOdbIndexT)
    (hcur : s.nodes.length + 1 ≤ size)
    (hfree : s.nodes.length + 1 < size ∨ a .sizeofOdbNodeT ≤ size * a .sizeofOdbIndexT) : RoomBehind a s file := by
  have hmod := Nat.mod_le ((s.nodes.length + 1) * a .sizeofOdbNodeT) (2 ^ 32)
  have hone : nodePos a 1 = a .sizeofStructOpdHeader + a .sizeofOdbDescrT + a .sizeofOdbNodeT := by
    rw [nodePos, Nat.sub_self, Nat.zero_mul, Nat.add_zero]
  rw [RoomBehind, hone, hsize]
  rcases hfree with hlt | hhash
  · have hmul : (s.nodes.length + 1 + 1) * a .sizeofOdbNodeT ≤ size * a .sizeofOdbNodeT :=
      Nat.mul_le_mul_right _ hlt
    rw [Nat.succ_mul] at hmul
    omega
  · have hmul : (s.nodes.length + 1) * a .sizeofOdbNodeT ≤ size * a .sizeofOdbNodeT := Nat.mul_le_mul_right _ hcur
    omega

/-! Files with the structures of x86-64, in either byte order. -/

/-- The description of a machine. -/
def describe (a : AbiKey → Nat) : Abi := fun k => some (a k : Int)

theorem abiEntries_consistent : Consistent (describe abiEntries) abiEntries := by
  refine ⟨fun _ => rfl, ?_, rfl, rfl, ?_, ?_, ?_, ?_⟩
  · intro k
    cases k <;> decide
  all_goals decide

/-- The same structures on a machine that stores the high byte first. -/
def bigEndianEntries (k : AbiKey) : Nat := if k = .littleEndian then 0 else abiEntries k

theorem bigEndianEntries_consistent : Consistent (describe bigEndianEntries) bigEndianEntries := by
  refine ⟨fun _ => rfl, ?_, rfl, rfl, ?_, ?_, ?_, ?_⟩
  · intro k
    cases k <;> decide
  all_goals decide

/-- A sample file with room for four nodes, without its chains: an import does not read them. -/
def sampleBytes (o : Order) (s : SampleFile) : List UInt8 :=
  s.head.magic ++ o.encode 4 s.head.version.toNat ++ o.encode 4 s.head.cpuType.toNat ++
    o.encode 4 s.head.ctrEvent.toNat ++ o.encode 4 s.head.ctrUm.toNat ++ o.encode 4 s.head.ctrCount.toNat ++
    o.encode 4 s.head.isKernel.toNat ++ o.encode 4 0 ++ o.encode 8 s.head.cpuSpeed.toNat ++
    o.encode 8 s.head.mtime.toNat ++ o.encode 4 s.head.cgToIsKernel.toNat ++ o.encode 4 s.head.spuProfile.toNat ++
    o.encode 8 s.head.embeddedOffset.toNat ++ o.encode 8 s.head.anonStart.toNat ++
    o.encode 8 s.head.cgToAnonStart.toNat ++ o.encode 8 0 ++
    o.encode 4 4 ++ o.encode 4 (s.nodes.length + 1) ++ List.replicate 24 0 ++
    List.replicate 16 0 ++ s.nodes.flatMap (fun n => o.encode 8 n.1 ++ o.encode 4 n.2 ++ o.encode 4 0) ++
    List.replicate (16 * (3 - s.nodes.length)) 0 ++ List.replicate 16 0

def sampleFile (o : Order) (s : SampleFile) : File :=
  ⟨(sampleBytes o s).length, fun x => (sampleBytes o s).getD x 0⟩

instance (f : File) (pos : Nat) (bs : List UInt8) : Decidable (Holds f pos bs) :=
  inferInstanceAs (Decidable (∀ i, (hi : i < bs.length) → f.byte (pos + i) = bs[i] ∧ pos + i < f.size))

instance (a : AbiKey → Nat) (file : File) (pos : Nat) (sz : AbiKey) (v : Nat) : Decidable (StoredAs a file pos sz v) :=
  decidable_of_iff (v < 256 ^ a sz ∧ Holds file pos ((orderOf a).encode (a sz) v))
    ⟨fun h => ⟨h.1, h.2⟩, fun h => ⟨h.fits, h.bytes⟩⟩

/-- Two nodes, and no anonymous mapping. -/
def plainSample : SampleFile :=
  { head := ⟨[68, 65, 69, 10], 0x11, 3, 0x76, 0x1234567, 100000, 0, 0, 0x5f00000000000001, 1, 0, 0, 0, 0⟩
    nodes := [(0x123456789a, 3), (7, 0xfffffffe)] }

theorem plainSample_laidOut : LaidOut bigEndianEntries plainSample (sampleFile .big plainSample) := by
  refine ⟨?_, ?_, ?_, ?_, ?_, ?_, ?_⟩ <;> decide +kernel

theorem importFromAbi_faithful_iff_big : ∃ dest,
    importFromAbi (describe bigEndianEntries) (sampleFile .big plainSample) (fun _ => .ok) newDestination = .ok dest ∧
      Faithful plainSample dest :=
  (importFromAbi_faithful_iff bigEndianEntries_consistent plainSample_laidOut (fun _ => rfl)).mpr
    ⟨by decide, by decide, by decide +kernel, by decide⟩

/-- Samples of an anonymous mapping above 4 GiB. -/
def anonSample : SampleFile :=
  { head := ⟨[68, 65, 69, 10], 0x11, 3, 0x76, 0, 100000, 0, 0, 0x5f000000, 0, 0, 0, 0x7f1234567000, 0⟩
    nodes := [] }

/-- Its start loses its upper half. -/
theorem anon_start_truncated : Consistent (describe abiEntries) abiEntries ∧
    LaidOut abiEntries anonSample (sampleFile .little anonSample) ∧
    ∃ dest, importFromAbi (describe abiEntries) (sampleFile .little anonSample) (fun _ => .ok) newDestination =
      .ok dest ∧ dest.head.anonStart = 0x34567000 ∧ ¬Faithful anonSample dest := by
  have hl : LaidOut abiEntries anonSample (sampleFile .little anonSample) := by
    refine ⟨?_, ?_, ?_, ?_, ?_, ?_, ?_⟩ <;> decide +kernel
  refine ⟨abiEntries_consistent, hl, ?_⟩
  have hroom : RoomBehind abiEntries anonSample (sampleFile .little anonSample) := by decide +kernel
  have hvalue : firstWord abiEntries anonSample.head.anonStart = 0x34567000 := by decide
  rw [importFromAbi_eq abiEntries_consistent hl, if_pos hroom]
  refine ⟨_, rfl, hvalue, ?_⟩
  intro hf
  have hsame : firstWord abiEntries anonSample.head.anonStart = anonSample.head.anonStart := hf.anonStart
  rw [hvalue] at hsame
  exact absurd hsame (by decide)

end Oprofile.Libabi
