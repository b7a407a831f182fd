import Oprofile.Libabi.ImportAbi

/-! The nodes of an import, and when the whole of it is faithful. -/
namespace Oprofile.Libabi

open ByteMem Records ByteOrder Results Libdb

variable {abi : Abi} {a : AbiKey → Nat} {s : SampleFile} {file : File} {i k v n : Nat} {d : OdbData}
  {grow : Nat → GrowOutcome}

/-- The database of the destination between two nodes. -/
structure Filling (d : OdbData) : Prop where
  tables : Tables d
  offset : d.offsetNode = 120
  doubled : ∃ j, d.size = 2 ^ j

theorem pow_le_of_lt {j m : Nat} (h : 2 ^ j < 2 ^ (m + 1)) : 2 ^ j ≤ 2 ^ m := by
  have hlt : j < m + 1 := (Nat.pow_lt_pow_iff_right (by omega)).mp h
  exact Nat.pow_le_pow_right (by omega) (by omega)

/-- While there are fewer than 2^27 nodes, a table that is full can be doubled. -/
theorem Filling.canGrow (h : Filling d) (hcur : d.currentSize < 2 ^ 27) (hfull : d.currentSize = d.size) :
    CanGrow d := by
  obtain ⟨j, hj⟩ := h.doubled
  have hle : 2 ^ j ≤ 2 ^ 26 := by
    apply pow_le_of_lt
    rw [← hj, ← hfull]
    exact hcur
  have ho := h.offset
  unfold CanGrow
  omega

theorem not_growFaults (ht : Tables d) (h : CanGrow d) : ¬GrowFaults d := by
  obtain ⟨hfile, -⟩ := odbRemap_file ht.layout h
  have hle := ht.cur_le
  have hpos := ht.cur_pos
  unfold GrowFaults
  rw [hfile, sizeofNode]
  omega

theorem odbAddNode_ok (h : Filling d) (hk : k < 2 ^ 64) (hcur : d.currentSize < 2 ^ 27) :
    ∃ d', odbAddNode .ok d k v = .ok d' ∧ Filling d' ∧ odbEntries d' = odbEntries d ++ [(k, v % 2 ^ 32)] := by
  have hle := h.tables.cur_le
  obtain ⟨d', hd', ht, hent, hoff, hsize⟩ := addNode_tables (v := v) h.tables hk (h.canGrow hcur)
  refine ⟨d', ?_, ⟨ht, hoff.trans h.offset, ?_⟩, hent⟩
  · have hfaults : ¬(d.size ≤ d.currentSize ∧ GrowOutcome.ok = .ok ∧ GrowFaults d) := by
      rintro ⟨hfull, -, hf⟩
      exact not_growFaults h.tables (h.canGrow hcur (le_antisymm hle hfull)) hf
    rw [odbAddNode, if_neg hfaults, hd']
    rfl
  · obtain ⟨j, hj⟩ := h.doubled
    rw [hsize, hj]
    split_ifs
    · exact ⟨j + 1, (Nat.pow_succ ..).symm⟩
    · exact ⟨j, rfl⟩

/-- The growth to 2^28 nodes asks for a file whose length wraps to a quarter of what is in use. -/
theorem odbAddNode_fault (h : Filling d) (hcur : d.currentSize = 2 ^ 27) : odbAddNode .ok d k v = .error .fault := by
  obtain ⟨j, hj⟩ := h.doubled
  have hle := h.tables.cur_le
  have hlim := h.tables.layout.limit
  have ho := h.offset
  have hsize : d.size = 2 ^ 27 := by
    have hup : 2 ^ j ≤ 2 ^ 27 := pow_le_of_lt (by omega)
    omega
  have hfile : (odbRemap d).file.size = tablesSize d (d.size * 2 % 2 ^ 32) := rfl
  have hfaults : GrowFaults d := by
    unfold GrowFaults
    rw [hfile, tablesSize, ho, hsize, hcur]
    decide
  rw [odbAddNode, if_pos ⟨by omega, rfl, hfaults⟩]

theorem StoredAs.lt {sz : AbiKey} {pos w : Nat} (h : StoredAs a file pos sz v) (hw : a sz ≤ w) : v < 2 ^ (8 * w) := by
  have hle : (256 : Nat) ^ a sz ≤ 256 ^ w := Nat.pow_le_pow_right (by omega) hw
  rw [Nat.pow_mul]
  exact Nat.lt_of_lt_of_le h.fits hle

/-- What the loop has done before node `i`. -/
structure Imported (a : AbiKey → Nat) (s : SampleFile) (i : Nat) (st : Int × OdbData) : Prop where
  src : st.1 = nodePos a i
  filling : Filling st.2
  entries : odbEntries st.2 = s.nodes.take (i - 1)

theorem Imported.currentSize {st : Int × OdbData} (h : Imported a s (i + 1) st) (hi : i ≤ s.nodes.length) :
    st.2.currentSize = i + 1 := by
  have hlen := congrArg List.length h.entries
  have hpos := h.filling.tables.cur_pos
  rw [odbEntries_length, List.length_take] at hlen
  omega

/-- The two reads of a round, and what is left of it. -/
theorem importNode_laidOut (hc : Consistent abi a) (hl : LaidOut a s file) {st : Int × OdbData}
    (h : Imported a s (i + 1) st) (hi : i < s.nodes.length) :
    importNode abi (orderOf a) file (a .sizeofOdbNodeT) grow st (i + 1) =
      (odbAddNode (grow (i + 1)) st.2 s.nodes[i].1 s.nodes[i].2 >>= fun d => .ok (st.1 + a .sizeofOdbNodeT, d)) := by
  have hkey := extract_storedAs hc st.1 .offsetofNodeKey (hl.keys i hi) (by rw [h.src]; rfl) hc.key
  have hval := extract_storedAs hc st.1 .offsetofNodeValue (hl.values i hi) (by rw [h.src]; rfl)
    hc.value
  rw [importNode, hkey, ok_then, hval, ok_then]
  rfl

/-- One node more. -/
theorem Imported.step (hc : Consistent abi a) (hl : LaidOut a s file) (hgrow : ∀ j, grow j = .ok)
    {st : Int × OdbData} (h : Imported a s (i + 1) st) (hi : i < s.nodes.length) (hfew : i + 1 < 2 ^ 27) :
    ∃ st', importNode abi (orderOf a) file (a .sizeofOdbNodeT) grow st (i + 1) = .ok st' ∧
      Imported a s (i + 2) st' := by
  have hcur := h.currentSize (Nat.le_of_lt hi)
  have hk := (hl.keys i hi).lt hc.key
  have hv := (hl.values i hi).lt hc.value
  obtain ⟨d', hd', hfilling, hent⟩ :=
    odbAddNode_ok (v := s.nodes[i].2) h.filling hk (by rw [hcur]; exact hfew)
  refine ⟨(st.1 + a .sizeofOdbNodeT, d'), ?_, ⟨?_, hfilling, ?_⟩⟩
  · rw [importNode_laidOut hc hl h hi, hgrow, hd', ok_then]
  · have hsrc := h.src
    have hnext : nodePos a (i + 2) = nodePos a (i + 1) + a .sizeofOdbNodeT := by
      simp only [nodePos, show i + 2 - 1 = i + 1 by omega, show i + 1 - 1 = i by omega, Nat.succ_mul]
      omega
    rw [hnext, hsrc]
    exact (Nat.cast_add ..).symm
  · rw [hent, h.entries, Nat.mod_eq_of_lt hv]
    exact (List.take_succ_eq_append_getElem hi).symm

theorem newDestination_imported (a : AbiKey → Nat) (s : SampleFile) :
    Imported a s 1 ((nodePos a 1 : Nat), newDestination.data) := by
  have hlim : abiEntries .sizeofStructOpdHeader + sizeofDescr + defaultNodeNr * 20 < 2 ^ 32 := by decide
  obtain ⟨hs, hcur, -⟩ := odbOpenNew_size hlim
  refine ⟨rfl, ⟨(odbOpenNew_rep hlim).tables, rfl, ⟨7, hs⟩⟩, ?_⟩
  exact List.eq_nil_of_length_eq_zero (by rw [odbEntries_length]; exact congrArg (· - 1) hcur)

/-- The first `n` rounds of the loop. -/
theorem importNodes_ok (hc : Consistent abi a) (hl : LaidOut a s file) (hgrow : ∀ j, grow j = .ok)
    (hn : n ≤ s.nodes.length) (hfew : n < 2 ^ 27) :
    ∃ st, (List.range' 1 n).foldlM (importNode abi (orderOf a) file (a .sizeofOdbNodeT) grow)
      ((nodePos a 1 : Nat), newDestination.data) = .ok st ∧ Imported a s (1 + n) st := by
  apply Loops.rounds_ok (I := Imported a s) n (newDestination_imported a s)
  intro j st hj hjn h
  obtain ⟨i, rfl⟩ := Nat.exists_eq_succ_of_ne_zero (show j ≠ 0 by omega)
  exact h.step hc hl hgrow (by omega) (by omega)

/-- The loop fails at the node that would make the table grow to 2^28. -/
theorem importNodes_fault (hc : Consistent abi a) (hl : LaidOut a s file) (hgrow : ∀ j, grow j = .ok)
    (hmany : 2 ^ 27 ≤ s.nodes.length) :
    (List.range' 1 s.nodes.length).foldlM (importNode abi (orderOf a) file (a .sizeofOdbNodeT) grow)
      ((nodePos a 1 : Nat), newDestination.data) = .error .fault := by
  obtain ⟨st, hst, h⟩ := importNodes_ok (n := 2 ^ 27 - 1) hc hl hgrow (by omega) (by omega)
  rw [show 1 + (2 ^ 27 - 1) = (2 ^ 27 - 1) + 1 by omega] at h
  have hcur := h.currentSize (by omega)
  apply Loops.round_fails hst _ (by omega)
  rw [show 1 + (2 ^ 27 - 1) = (2 ^ 27 - 1) + 1 by omega, importNode_laidOut hc hl h (by omega), hgrow,
    odbAddNode_fault h.filling (by omega)]
  rfl

end Oprofile.Libabi
