import Oprofile.Operf.Header

/-! What is written as a header is read back. -/
namespace Oprofile.Operf

open ByteMem Records Pipe

variable {n : Nat} {h h' : OpHeader n} {o o' : OutFd} {f : File} {p : ReadEnd}
  {opMagic : UInt64} {evtsSize k pos q : Nat} {bs L : List UInt8} {ids : List UInt64}

/-! Counts that pass through an `int`. -/

theorem intRounds_lt (v : Nat) : intRounds v < 2 ^ 31 := by
  unfold intRounds
  split_ifs with hv
  · exact hv
  · decide

theorem intRounds_eq (hv : k < 2 ^ 31) : intRounds k = k := by
  have hmod : k % 2 ^ 32 = k := Nat.mod_eq_of_lt (by omega)
  rw [intRounds, hmod, if_pos hv]

/-- The number of ids the decoder computes from the symSections size. -/
theorem idRounds_eq (hk : k < 2 ^ 31) :
    intRounds (UInt64.ofNat (k * 8) / 8).toNat = k := by
  have hdiv : (UInt64.ofNat (k * 8) / 8).toNat = k := by
    rw [UInt64.toNat_div, UInt64.toNat_ofNat_of_lt' (by omega : k * 8 < 2 ^ 64)]
    exact Nat.mul_div_cancel _ (by decide)
  rw [hdiv, intRounds_eq hk]

theorem sizeofFileAttr_eq (n : Nat) : sizeofFileAttr n = n + 16 := rfl

/-- The number of attributes the decoders compute from the header. -/
theorem numFattrs_eq (hn : n < 2 ^ 32) (hmax : evtsSize ≤ opMaxNumEvents) :
    intRounds (UInt64.ofNat (evtsSize * sizeofFileAttr n) /
      UInt64.ofNat (sizeofFileAttr n)).toNat = evtsSize := by
  rw [sizeofFileAttr_eq]
  have hmax' : evtsSize ≤ 512 := hmax
  have hmul : evtsSize * (n + 16) < 2 ^ 64 := by
    calc evtsSize * (n + 16) ≤ 512 * (n + 16) := Nat.mul_le_mul_right _ hmax'
      _ < 2 ^ 64 := by omega
  rw [UInt64.toNat_div, UInt64.toNat_ofNat_of_lt' hmul,
    UInt64.toNat_ofNat_of_lt' (by omega : n + 16 < 2 ^ 64), Nat.mul_div_cancel _ (by omega),
    intRounds_eq (by omega)]

/-! The writer. -/

/-- The block `L` has been written from `pos` up to the file position. -/
def Wrote (o : OutFd) (pos : Nat) (L : List UInt8) : Prop :=
  o.pos = pos + L.length ∧ Holds o.file pos L

theorem wrote_lseek (o : OutFd) (pos : Nat) : Wrote (lseek o pos) pos [] := ⟨rfl, holds_nil _ _⟩

theorem Wrote.write (hw : Wrote o pos L) (bs : List UInt8) :
    Wrote (opWriteOutput o bs) pos (L ++ bs) := by
  obtain ⟨hpos, hold⟩ := hw
  refine ⟨?_, holds_append.mpr ⟨hold.pwrite_disjoint (Or.inl (Nat.le_of_eq hpos.symm)), ?_⟩⟩
  · rw [List.length_append, ← Nat.add_assoc, ← hpos]
    rfl
  · rw [← hpos]
    exact holds_pwrite _ _ _

/-- The ids of the first `k` events. -/
def idsBytes (h : OpHeader n) (k : Nat) : List UInt8 :=
  (List.range k).flatMap fun i => u64.encodeAll (h.hAttrs i).ids

theorem idsBytes_succ (h : OpHeader n) (k : Nat) :
    idsBytes h (k + 1) = idsBytes h k ++ u64.encodeAll (h.hAttrs k).ids := by
  simp [idsBytes, List.range_succ]

/-- Same attributes and ids, and the first `k` id lists are where the offsets say. -/
structure OffsetsSet (h h' : OpHeader n) (pos k : Nat) : Prop where
  attr : ∀ i, (h'.hAttrs i).attr = (h.hAttrs i).attr
  ids : ∀ i, (h'.hAttrs i).ids = (h.hAttrs i).ids
  offset : ∀ i, i < k → (h'.hAttrs i).idOffset = pos + (idsBytes h i).length

theorem writeEventIds_range (h : OpHeader n) (hw : Wrote o pos []) (k : Nat) :
    OffsetsSet h ((List.range k).foldl writeEventIds (h, o)).1 pos k ∧
      Wrote ((List.range k).foldl writeEventIds (h, o)).2 pos (idsBytes h k) := by
  induction k with
  | zero => exact ⟨⟨fun _ => rfl, fun _ => rfl, fun i hi => (Nat.not_lt_zero i hi).elim⟩, hw⟩
  | succ k ih =>
    obtain ⟨hset, hwr⟩ := ih
    rw [List.range_succ, List.foldl_append, List.foldl_cons, List.foldl_nil]
    generalize (List.range k).foldl writeEventIds (h, o) = s at hset hwr ⊢
    refine ⟨⟨fun i => ?_, fun i => ?_, fun i hi => ?_⟩, ?_⟩
    · rw [← hset.attr i]
      simp only [writeEventIds]
      split_ifs <;> rfl
    · rw [← hset.ids i]
      simp only [writeEventIds]
      split_ifs <;> rfl
    · simp only [writeEventIds]
      split_ifs with hik
      · rw [hik]
        exact hwr.1
      · exact hset.offset i (by omega)
    · rw [idsBytes_succ, ← hset.ids k]
      exact hwr.write _

def attrsBytes (h : OpHeader n) (k : Nat) : List UInt8 :=
  (List.range k).flatMap fun i => (fileAttrFormat n).encode (fileAttr h i)

theorem attrsBytes_succ (h : OpHeader n) (k : Nat) :
    attrsBytes h (k + 1) = attrsBytes h k ++ (fileAttrFormat n).encode (fileAttr h k) := by
  simp [attrsBytes, List.range_succ]

theorem attrsBytes_length (h : OpHeader n) (k : Nat) :
    (attrsBytes h k).length = k * sizeofFileAttr n := by
  induction k with
  | zero => simp [attrsBytes]
  | succ k ih => simp [attrsBytes_succ, ih, Nat.succ_mul, sizeofFileAttr]

theorem writeEventAttr_range (hw : Wrote o pos L) (k : Nat) :
    Wrote ((List.range k).foldl (writeEventAttr h) o) pos (L ++ attrsBytes h k) := by
  induction k with
  | zero => simpa [attrsBytes] using hw
  | succ k ih =>
    rw [List.range_succ, List.foldl_append, attrsBytes_succ, ← List.append_assoc]
    exact ih.write _

/-- The header that ends up at the front of the file. -/
def fileHeader (opMagic : UInt64) (evtsSize : Nat) (h : OpHeader n) : OpFileHeader where
  magic := opMagic
  size := UInt64.ofNat sizeofFileHeader
  attrSize := UInt64.ofNat (sizeofFileAttr n)
  attrs :=
    { size := UInt64.ofNat (evtsSize * sizeofFileAttr n)
      offset := UInt64.ofNat h.attrOffset }
  data := { size := h.dataSize, offset := UInt64.ofNat h.dataOffset }

/-- The file written: header, ids and attributes lie where the header and the offsets say. -/
theorem writeHeaderToFile_holds (opMagic : UInt64) (evtsSize : Nat) (h : OpHeader n) (o : OutFd) :
    ∃ h', OffsetsSet h h' sizeofFileHeader evtsSize ∧
      h'.attrOffset = sizeofFileHeader + (idsBytes h evtsSize).length ∧
      Holds (writeHeaderToFile opMagic evtsSize h o).2.file 0
        (fileHeaderFormat.encode (fileHeader opMagic evtsSize h')) ∧
      Holds (writeHeaderToFile opMagic evtsSize h o).2.file sizeofFileHeader
        (idsBytes h evtsSize ++ attrsBytes h' evtsSize) := by
  obtain ⟨hset, hwr⟩ := writeEventIds_range h (wrote_lseek o sizeofFileHeader) evtsSize
  simp only [writeHeaderToFile]
  generalize (List.range evtsSize).foldl writeEventIds (h, lseek o sizeofFileHeader) = s at hset hwr ⊢
  obtain ⟨h₁, o₁⟩ := s
  have hattr := writeEventAttr_range (h := { h₁ with attrOffset := o₁.pos }) hwr evtsSize
  simp only at hattr ⊢
  generalize (List.range evtsSize).foldl (writeEventAttr { h₁ with attrOffset := o₁.pos }) o₁ = o₂
    at hattr ⊢
  have hold : Holds o₂.file sizeofFileHeader (idsBytes h evtsSize ++
      attrsBytes { h₁ with attrOffset := o₁.pos, dataOffset := o₂.pos } evtsSize) := hattr.2
  refine ⟨{ h₁ with attrOffset := o₁.pos, dataOffset := o₂.pos },
    ⟨hset.attr, hset.ids, hset.offset⟩, hwr.1, holds_pwrite _ _ _, ?_⟩
  change Holds (pwrite o₂.file 0 (fileHeaderFormat.encode _)) _ _
  refine hold.pwrite_disjoint (Or.inr ?_)
  rw [Format.length_encode, Nat.zero_add]
  rfl

/-! The file reader. -/

theorem readFileIds_eq (hold : Holds f pos (u64.encodeAll ids)) :
    readFileIds f ids.length pos = .ok ids := by
  induction ids generalizing pos with
  | nil => rfl
  | cons id ids ih =>
    rw [Format.encodeAll_cons] at hold
    obtain ⟨h1, h2⟩ := holds_append.mp hold
    have hids := ih h2
    have hread : pread f pos 8 = u64.encode id := by
      have hr := h1.pread
      rwa [Format.length_encode] at hr
    have hlen : (u64.encode id).length = 8 := u64.length_encode id
    rw [hlen] at hids
    simp only [List.length_cons, readFileIds, hread, hlen, ne_eq, not_true_eq_false, if_false, hids,
      Except.map, Format.decode_encode_self]

theorem readFileIds_length (hr : readFileIds f k pos = .ok ids) : ids.length = k := by
  induction k generalizing pos ids with
  | zero =>
    cases hr
    rfl
  | succ k ih =>
    simp only [readFileIds] at hr
    split_ifs at hr
    cases hk : readFileIds f k (pos + 8) with
    | error e =>
      rw [hk] at hr
      cases hr
    | ok ids' =>
      rw [hk] at hr
      cases hr
      rw [List.length_cons, ih hk]

/-- The first `k` events have been read, and nothing else. -/
structure ReadUpTo (h h₀ h' : OpHeader n) (k : Nat) : Prop where
  attr : ∀ i, i < k → (h'.hAttrs i).attr = (h.hAttrs i).attr
  ids : ∀ i, i < k → (h'.hAttrs i).ids = (h.hAttrs i).ids
  rest : ∀ i, k ≤ i → (h'.hAttrs i).ids = (h₀.hAttrs i).ids

/-- A round that sets the attribute and pushes the ids of the next event. -/
theorem ReadUpTo.push {h₀ : OpHeader n} (hu : ReadUpTo h h₀ h' k) (hf : h₀.Fresh) :
    ReadUpTo h h₀ (pushIds (setAttr h' k (h.hAttrs k).attr) k (h.hAttrs k).ids) (k + 1) := by
  refine ⟨fun i hi => ?_, fun i hi => ?_, fun i hi => ?_⟩
  · simp only [pushIds, setAttr]
    split_ifs with hik
    · rw [hik]
    · exact hu.attr i (by omega)
  · simp only [pushIds, setAttr]
    split_ifs with hik
    · simp only [hik, hu.rest k (Nat.le_refl k), hf k, List.nil_append]
    · exact hu.ids i (by omega)
  · have hik : i ≠ k := by omega
    simp only [pushIds, setAttr, if_neg hik]
    exact hu.rest i (by omega)

theorem holds_idsBytes (hold : Holds f pos (idsBytes h evtsSize)) (hk : k < evtsSize) :
    Holds f (pos + (idsBytes h k).length) (u64.encodeAll (h.hAttrs k).ids) := by
  induction evtsSize with
  | zero => exact (Nat.not_lt_zero k hk).elim
  | succ m ih =>
    rw [idsBytes_succ] at hold
    obtain ⟨h1, h2⟩ := holds_append.mp hold
    rcases Nat.lt_succ_iff_lt_or_eq.mp hk with hlt | rfl
    · exact ih h1 hlt
    · exact h2

theorem holds_attrsBytes (hold : Holds f pos (attrsBytes h evtsSize)) (hk : k < evtsSize) :
    Holds f (pos + k * sizeofFileAttr n) ((fileAttrFormat n).encode (fileAttr h k)) := by
  induction evtsSize with
  | zero => exact (Nat.not_lt_zero k hk).elim
  | succ m ih =>
    rw [attrsBytes_succ] at hold
    obtain ⟨h1, h2⟩ := holds_append.mp hold
    rcases Nat.lt_succ_iff_lt_or_eq.mp hk with hlt | rfl
    · exact ih h1 hlt
    · rwa [attrsBytes_length] at h2

theorem idsBytes_length_le (hlen : ∀ i, i < k → (h.hAttrs i).ids.length < 2 ^ 31) :
    (idsBytes h k).length ≤ k * (2 ^ 31 * 8) := by
  induction k with
  | zero => simp [idsBytes]
  | succ k ih =>
    have h1 := ih fun i hi => hlen i (by omega)
    have h2 := hlen k (by omega)
    have hw : (u64.encodeAll (h.hAttrs k).ids).length = (h.hAttrs k).ids.length * 8 :=
      Format.encodeAll_length
    rw [idsBytes_succ, List.length_append, hw, Nat.succ_mul]
    omega

theorem foldlM_range_succ {α ε : Type} (step : α → Nat → Except ε α) (s : α) (k : Nat) :
    (List.range (k + 1)).foldlM step s = (List.range k).foldlM step s >>= fun s' => step s' k := by
  rw [List.range_succ, List.foldlM_append]
  congr 1
  funext s'
  simp [List.foldlM]

/-- The loop over the attributes restores one event after the other. -/
theorem readFileAttr_range {h₀ h₁ : OpHeader n} (hset : OffsetsSet h h₁ sizeofFileHeader evtsSize)
    (hids : Holds f sizeofFileHeader (idsBytes h evtsSize))
    (hattrs : Holds f pos (attrsBytes h₁ evtsSize)) (hf : h₀.Fresh)
    (hmax : evtsSize ≤ opMaxNumEvents)
    (hlen : ∀ i, i < evtsSize → (h.hAttrs i).ids.length < 2 ^ 31) (hk : k ≤ evtsSize) :
    ∃ h', (List.range k).foldlM (readFileAttr f) (h₀, pos) =
        .ok (h', pos + k * sizeofFileAttr n) ∧ ReadUpTo h h₀ h' k := by
  induction k with
  | zero =>
    refine ⟨h₀, by simp [pure, Except.pure], ?_, ?_, fun _ _ => rfl⟩ <;>
      exact fun i hi => (Nat.not_lt_zero i hi).elim
  | succ k ih =>
    obtain ⟨h', hrun, hu⟩ := ih (by omega)
    have hlt : k < evtsSize := hk
    have hread : pread f (pos + k * sizeofFileAttr n) (sizeofFileAttr n) =
        (fileAttrFormat n).encode (fileAttr h₁ k) := by
      have hr := (holds_attrsBytes hattrs hlt).pread
      rwa [Format.length_encode] at hr
    have hsize : ((fileAttrFormat n).encode (fileAttr h₁ k)).length = sizeofFileAttr n :=
      Format.length_encode ..
    have hrounds : intRounds ((fileAttr h₁ k).ids.size / 8).toNat = (h.hAttrs k).ids.length := by
      rw [← hset.ids k]
      exact idRounds_eq (by rw [hset.ids k]; exact hlen k hlt)
    have hoff : (fileAttr h₁ k).ids.offset.toNat = sizeofFileHeader + (idsBytes h k).length := by
      have hle := idsBytes_length_le (h := h) (k := k) fun i hi => hlen i (by omega)
      have hk512 : k < 512 := Nat.lt_of_lt_of_le hlt hmax
      have hsz : sizeofFileHeader = 56 := rfl
      have hlt64 : sizeofFileHeader + (idsBytes h k).length < 2 ^ 64 := by omega
      simp only [fileAttr]
      rw [hset.offset k hlt, UInt64.toNat_ofNat_of_lt' hlt64]
    refine ⟨_, ?_, hu.push hf⟩
    rw [foldlM_range_succ, hrun]
    simp only [bind, Except.bind, readFileAttr, hread, hsize, ne_eq, not_true_eq_false, if_false,
      Format.decode_encode_self, hrounds, hoff, readFileIds_eq (holds_idsBytes hids hlt)]
    rw [if_neg (by omega)]
    simp only [fileAttr, hset.attr k, Nat.succ_mul, Nat.add_assoc]

/-- No list of ids that the loop produces is longer than an `int` can count. -/
theorem readFileAttr_range_lt {h₀ : OpHeader n} (hf : h₀.Fresh)
    (hrun : (List.range k).foldlM (readFileAttr f) (h₀, pos) = .ok (h', q)) (i : Nat) :
    (k ≤ i → (h'.hAttrs i).ids = []) ∧ (h'.hAttrs i).ids.length < 2 ^ 31 := by
  induction k generalizing h' q with
  | zero =>
    cases hrun
    exact ⟨fun _ => hf i, by rw [hf i]; decide⟩
  | succ k ih =>
    rw [foldlM_range_succ] at hrun
    cases hs : (List.range k).foldlM (readFileAttr f) (h₀, pos) with
    | error e =>
      rw [hs] at hrun
      cases hrun
    | ok s =>
      rw [hs] at hrun
      obtain ⟨h₁, q₁⟩ := s
      obtain ⟨hnil, hlt⟩ := ih hs
      simp only [bind, Except.bind, readFileAttr] at hrun
      split_ifs at hrun
      split at hrun
      · cases hrun
      · rename_i ids hids
        cases hrun
        simp only [pushIds, setAttr]
        split_ifs with hik
        · subst hik
          rw [hnil (Nat.le_refl _), List.nil_append, readFileIds_length hids]
          exact ⟨fun hle => by omega, intRounds_lt _⟩
        · exact ⟨fun hle => hnil (by omega), hlt⟩

/-- The header at the front of the file is accepted and leads to the attributes. -/
theorem readHeaderInfoWithIfstream_eq (h₀ : OpHeader n) (hn : n < 2 ^ 32)
    (hmax : evtsSize ≤ opMaxNumEvents)
    (hold : Holds f 0 (fileHeaderFormat.encode (fileHeader opMagic evtsSize h'))) :
    ∃ h₁ : OpHeader n, h₁.hAttrs = h₀.hAttrs ∧ readHeaderInfoWithIfstream opMagic f h₀ =
      ((List.range evtsSize).foldlM (readFileAttr f)
        (h₁, (UInt64.ofNat h'.attrOffset).toNat)).map Prod.fst := by
  have hread := hold.pread
  have hsize : (fileHeaderFormat.encode (fileHeader opMagic evtsSize h')).length =
      sizeofFileHeader := Format.length_encode ..
  rw [hsize] at hread
  refine ⟨{ h₀ with
    attrOffset := (UInt64.ofNat h'.attrOffset).toNat
    dataOffset := (UInt64.ofNat h'.dataOffset).toNat
    dataSize := h'.dataSize }, rfl, ?_⟩
  simp only [readHeaderInfoWithIfstream, hread, hsize, ne_eq, not_true_eq_false, if_false,
    Format.decode_encode_self]
  simp only [fileHeader, not_true_eq_false, if_false, numFattrs_eq hn hmax]

/-- The file mode restores the header exactly when an `int` can count every list of ids. -/
theorem file_restored_iff {h₀ : OpHeader n} (opMagic : UInt64) (o : OutFd) (hn : n < 2 ^ 32) (hmax : evtsSize ≤ opMaxNumEvents)
    (hf : h₀.Fresh) :
    (∃ h', readHeaderInfoWithIfstream opMagic (writeHeaderToFile opMagic evtsSize h o).2.file h₀ =
        .ok h' ∧ Restored evtsSize h h') ↔
      ∀ i, i < evtsSize → (h.hAttrs i).ids.length < 2 ^ 31 := by
  obtain ⟨h₂, hset, hoff, hhead, hbody⟩ := writeHeaderToFile_holds opMagic evtsSize h o
  obtain ⟨hids, hattrs⟩ := holds_append.mp hbody
  obtain ⟨h₁, hh₁, hread⟩ := readHeaderInfoWithIfstream_eq h₀ hn hmax hhead
  have hf₁ : h₁.Fresh := by
    intro i
    rw [hh₁]
    exact hf i
  rw [hread]
  constructor
  · rintro ⟨h', hrun, hrest⟩ i hi
    cases hs : (List.range evtsSize).foldlM
        (readFileAttr (writeHeaderToFile opMagic evtsSize h o).2.file)
        (h₁, (UInt64.ofNat h₂.attrOffset).toNat) with
    | error e =>
      rw [hs] at hrun
      cases hrun
    | ok s =>
      rw [hs] at hrun
      cases hrun
      rw [← (hrest i hi).2]
      exact (readFileAttr_range_lt hf₁ hs i).2
  · intro hlen
    have hpos : (UInt64.ofNat h₂.attrOffset).toNat =
        sizeofFileHeader + (idsBytes h evtsSize).length := by
      have hle := idsBytes_length_le hlen
      have h512 : evtsSize ≤ 512 := hmax
      have hsz : sizeofFileHeader = 56 := rfl
      have hlt64 : sizeofFileHeader + (idsBytes h evtsSize).length < 2 ^ 64 := by omega
      rw [hoff, UInt64.toNat_ofNat_of_lt' hlt64]
    rw [← hpos] at hattrs
    obtain ⟨h', hrun, hu⟩ := readFileAttr_range hset hids hattrs hf₁ hmax hlen (Nat.le_refl _)
    exact ⟨h', by rw [hrun]; rfl, fun i hi => ⟨hu.attr i hi, hu.ids i hi⟩⟩

/-! The pipe reader. -/

theorem readPipe_eq {e : HeaderError} (hne : bs ≠ []) (rest : List UInt8) :
    readPipe e ⟨bs ++ rest, []⟩ bs.length = .ok (bs, ⟨rest, []⟩) := by
  simp [readPipe, read_unscheduled hne]

theorem readPipeIds_eq (ids : List UInt64) (rest : List UInt8) :
    readPipeIds ids.length ⟨u64.encodeAll ids ++ rest, []⟩ = .ok (ids, ⟨rest, []⟩) := by
  induction ids with
  | nil => rfl
  | cons id ids ih =>
    have hlen : (u64.encode id).length = 8 := u64.length_encode id
    have hne : u64.encode id ≠ [] := List.ne_nil_of_length_pos (by omega)
    have hread := readPipe_eq (e := .readingPerfId) hne (u64.encodeAll ids ++ rest)
    rw [hlen] at hread
    rw [List.length_cons, Format.encodeAll_cons, List.append_assoc]
    simp only [readPipeIds, hread, ih, Except.map, Format.decode_encode_self]

theorem readPipeIds_length {p' : ReadEnd} (hr : readPipeIds k p = .ok (ids, p')) :
    ids.length = k := by
  induction k generalizing p ids with
  | zero =>
    cases hr
    rfl
  | succ k ih =>
    simp only [readPipeIds] at hr
    split at hr
    · cases hr
    · rename_i bs q _
      cases hk : readPipeIds k q with
      | error e =>
        rw [hk] at hr
        cases hr
      | ok s =>
        rw [hk] at hr
        cases hr
        rw [List.length_cons, ih hk]

/-- The attribute record of an event in the pipe. -/
def pipeAttr (idsOffset : UInt64) (h : OpHeader n) (i : Nat) : OpFileAttr n where
  attr := (h.hAttrs i).attr
  ids := { size := UInt64.ofNat ((h.hAttrs i).ids.length * 8), offset := idsOffset }

/-- The header that goes ahead. -/
def pipeHeader (opMagic attrsOffset dataOffset : UInt64) (evtsSize n : Nat) : OpFileHeader where
  magic := opMagic
  size := UInt64.ofNat sizeofFileHeader
  attrSize := UInt64.ofNat (sizeofFileAttr n)
  attrs := { size := UInt64.ofNat (evtsSize * sizeofFileAttr n), offset := attrsOffset }
  data := { size := 0, offset := dataOffset }

/-- The loop over the attributes takes them off the pipe and keeps them in order. -/
theorem readPipeAttr_range (h h₀ : OpHeader n) (idsOffset : UInt64) (rest : List UInt8)
    (hk : k ≤ opMaxNumEvents) :
    ∃ h', (List.range k).foldlM readPipeAttr (h₀, [],
        ⟨(fileAttrFormat n).encodeAll ((List.range k).map (pipeAttr idsOffset h)) ++ rest, []⟩) =
        .ok (h', (List.range k).map (pipeAttr idsOffset h), ⟨rest, []⟩) ∧
      (∀ i, i < k → (h'.hAttrs i).attr = (h.hAttrs i).attr) ∧
      ∀ i, (h'.hAttrs i).ids = (h₀.hAttrs i).ids := by
  induction k generalizing rest with
  | zero => exact ⟨h₀, rfl, fun i hi => (Nat.not_lt_zero i hi).elim, fun _ => rfl⟩
  | succ k ih =>
    obtain ⟨h', hrun, hattr, hids⟩ :=
      ih ((fileAttrFormat n).encode (pipeAttr idsOffset h k) ++ rest) (by omega)
    have hlen : ((fileAttrFormat n).encode (pipeAttr idsOffset h k)).length = sizeofFileAttr n :=
      Format.length_encode ..
    have hne : (fileAttrFormat n).encode (pipeAttr idsOffset h k) ≠ [] := by
      apply List.ne_nil_of_length_pos
      rw [hlen, sizeofFileAttr_eq]
      omega
    have hread := readPipe_eq (e := .readingFileAttr) hne rest
    rw [hlen] at hread
    refine ⟨setAttr h' k (h.hAttrs k).attr, ?_, fun i hi => ?_, fun i => ?_⟩
    · rw [foldlM_range_succ, List.range_succ, List.map_append, Format.encodeAll_append,
        List.append_assoc]
      simp only [List.map_cons, List.map_nil, Format.encodeAll_cons, Format.encodeAll_nil,
        List.append_nil, hrun, bind, Except.bind, readPipeAttr, hread, Format.decode_encode_self]
      rw [if_neg (by omega)]
      rfl
    · simp only [setAttr]
      split_ifs with hik
      · rw [hik]
      · exact hattr i (by omega)
    · simp only [setAttr]
      rw [← hids i]
      split_ifs <;> rfl

/-- With lists of the length announced for the first event, the loop over the ids restores
one event after the other. -/
theorem readPipeEventIds_range {h₀ : OpHeader n} {fAttr : OpFileAttr n} (rest : List UInt8)
    (hf : h₀.Fresh)
    (hlen : ∀ i, i < k → (h.hAttrs i).ids.length = intRounds (fAttr.ids.size / 8).toNat) :
    ∃ h', (List.range k).foldlM (readPipeEventIds fAttr) (h₀, ⟨idsBytes h k ++ rest, []⟩) =
        .ok (h', ⟨rest, []⟩) ∧
      (∀ i, (h'.hAttrs i).attr = (h₀.hAttrs i).attr) ∧
      (∀ i, i < k → (h'.hAttrs i).ids = (h.hAttrs i).ids) ∧
      ∀ i, k ≤ i → (h'.hAttrs i).ids = [] := by
  induction k generalizing rest with
  | zero => exact ⟨h₀, rfl, fun _ => rfl, fun i hi => (Nat.not_lt_zero i hi).elim, fun i _ => hf i⟩
  | succ k ih =>
    obtain ⟨h', hrun, hattr, hids, hnil⟩ :=
      ih (u64.encodeAll (h.hAttrs k).ids ++ rest) fun i hi => hlen i (by omega)
    have hread := readPipeIds_eq (h.hAttrs k).ids rest
    rw [hlen k (by omega)] at hread
    refine ⟨pushIds h' k (h.hAttrs k).ids, ?_, fun i => ?_, fun i hi => ?_, fun i hi => ?_⟩
    · rw [foldlM_range_succ, idsBytes_succ, List.append_assoc, hrun]
      simp only [bind, Except.bind, readPipeEventIds, hread]
    · simp only [pushIds]
      rw [← hattr i]
      split_ifs <;> rfl
    · simp only [pushIds]
      split_ifs with hik
      · simp only [hik, hnil k (Nat.le_refl k), List.nil_append]
      · exact hids i (by omega)
    · have hik : i ≠ k := by omega
      simp only [pushIds, if_neg hik]
      exact hnil i (by omega)

/-- Every list of ids that the loop produces has the length announced for the first event. -/
theorem readPipeEventIds_range_length {h₀ : OpHeader n} {fAttr : OpFileAttr n} {p' : ReadEnd}
    (hf : h₀.Fresh) (hrun : (List.range k).foldlM (readPipeEventIds fAttr) (h₀, p) = .ok (h', p'))
    (i : Nat) :
    (k ≤ i → (h'.hAttrs i).ids = []) ∧
      (i < k → (h'.hAttrs i).ids.length = intRounds (fAttr.ids.size / 8).toNat) := by
  induction k generalizing h' p' with
  | zero =>
    cases hrun
    exact ⟨fun _ => hf i, fun hi => (Nat.not_lt_zero i hi).elim⟩
  | succ k ih =>
    rw [foldlM_range_succ] at hrun
    cases hs : (List.range k).foldlM (readPipeEventIds fAttr) (h₀, p) with
    | error e =>
      rw [hs] at hrun
      cases hrun
    | ok s =>
      rw [hs] at hrun
      obtain ⟨h₁, p₁⟩ := s
      obtain ⟨hnil, hlen⟩ := ih hs
      simp only [bind, Except.bind, readPipeEventIds] at hrun
      split at hrun
      · cases hrun
      · rename_i ids q hids
        cases hrun
        simp only [pushIds]
        split_ifs with hik
        · subst hik
          rw [hnil (Nat.le_refl _), List.nil_append, readPipeIds_length hids]
          exact ⟨fun hle => by omega, fun _ => rfl⟩
        · exact ⟨fun hle => hnil (by omega), fun hi => hlen (by omega)⟩

/-- Header and attributes are read as written; what is left is the loop over the ids, with the
first event's attribute in every round. -/
theorem readPerfHeaderFromPipe_eq {h₀ : OpHeader n} (h : OpHeader n)
    (opMagic attrsOffset dataOffset idsOffset : UInt64) (rest : List UInt8) (hn : n < 2 ^ 32) (h0 : 0 < evtsSize) (hmax : evtsSize ≤ opMaxNumEvents)
    (hf : h₀.Fresh) :
    ∃ h₁ : OpHeader n, h₁.Fresh ∧
      (∀ i, i < evtsSize → (h₁.hAttrs i).attr = (h.hAttrs i).attr) ∧
      readPerfHeaderFromPipe opMagic
          ⟨writeHeaderToPipe opMagic attrsOffset dataOffset idsOffset evtsSize h ++ rest, []⟩ h₀ =
        (List.range evtsSize).foldlM (readPipeEventIds (pipeAttr idsOffset h 0))
          (h₁, ⟨idsBytes h evtsSize ++ rest, []⟩) := by
  obtain ⟨h₁, hrun, hattr, hids⟩ := readPipeAttr_range h h₀ idsOffset
    (idsBytes h evtsSize ++ rest) hmax
  refine ⟨h₁, fun i => (hids i).trans (hf i), hattr, ?_⟩
  have hlen : ∀ a : OpFileHeader, (fileHeaderFormat.encode a).length = sizeofFileHeader :=
    Format.length_encode _
  have hne : ∀ a : OpFileHeader, fileHeaderFormat.encode a ≠ [] := fun a =>
    List.ne_nil_of_length_pos (by rw [hlen]; decide)
  have hread : ∀ a bs, readPipe .readingHeader ⟨fileHeaderFormat.encode a ++ bs, []⟩
      sizeofFileHeader = .ok (fileHeaderFormat.encode a, ⟨bs, []⟩) := by
    intro a bs
    have hr := readPipe_eq (e := .readingHeader) (hne a) bs
    rwa [hlen] at hr
  obtain ⟨m, rfl⟩ : ∃ m, evtsSize = m + 1 := ⟨evtsSize - 1, by omega⟩
  have hcache : (List.range (m + 1)).map (pipeAttr idsOffset h) = pipeAttr idsOffset h 0 ::
      (List.range m).map (fun i => pipeAttr idsOffset h (i + 1)) := by
    simp [List.range_succ_eq_map]
  rw [hcache] at hrun
  have hwritten : writeHeaderToPipe opMagic attrsOffset dataOffset idsOffset (m + 1) h ++ rest =
      fileHeaderFormat.encode (pipeHeader opMagic attrsOffset dataOffset (m + 1) n) ++
        ((fileAttrFormat n).encodeAll (pipeAttr idsOffset h 0 ::
          (List.range m).map (fun i => pipeAttr idsOffset h (i + 1))) ++
          (idsBytes h (m + 1) ++ rest)) := by
    rw [← hcache, ← List.append_assoc, ← List.append_assoc]
    rfl
  rw [hwritten]
  simp only [readPerfHeaderFromPipe, hread, Format.decode_encode_self]
  simp only [pipeHeader, ne_eq, not_true_eq_false, if_false, numFattrs_eq hn hmax, hrun]

/-- Events with equally many ids come through the pipe, which is left at the first record. -/
theorem pipe_restored {h₀ : OpHeader n} (opMagic attrsOffset dataOffset idsOffset : UInt64)
    (rest : List UInt8) (hn : n < 2 ^ 32) (h0 : 0 < evtsSize) (hmax : evtsSize ≤ opMaxNumEvents)
    (hf : h₀.Fresh) (hlen : ∀ i, i < evtsSize →
      (h.hAttrs i).ids.length = (h.hAttrs 0).ids.length ∧ (h.hAttrs i).ids.length < 2 ^ 31) :
    ∃ h', readPerfHeaderFromPipe opMagic
          ⟨writeHeaderToPipe opMagic attrsOffset dataOffset idsOffset evtsSize h ++ rest, []⟩ h₀ =
        .ok (h', ⟨rest, []⟩) ∧ Restored evtsSize h h' := by
  obtain ⟨h₁, hf₁, hattr₁, hread⟩ :=
    readPerfHeaderFromPipe_eq h opMagic attrsOffset dataOffset idsOffset rest hn h0 hmax hf
  have hrounds : intRounds ((pipeAttr idsOffset h 0).ids.size / 8).toNat =
      (h.hAttrs 0).ids.length := idRounds_eq (hlen 0 h0).2
  obtain ⟨h', hrun, hattr, hids, -⟩ := readPipeEventIds_range (h := h) rest hf₁
    (fun i hi => (hlen i hi).1.trans hrounds.symm)
  exact ⟨h', hread.trans hrun, fun i hi => ⟨(hattr i).trans (hattr₁ i hi), hids i hi⟩⟩

/-- The pipe mode restores the header exactly when, besides, every event has as many ids as the
first. -/
theorem pipe_restored_iff {h₀ : OpHeader n} (opMagic attrsOffset dataOffset idsOffset : UInt64)
    (rest : List UInt8) (hn : n < 2 ^ 32) (h0 : 0 < evtsSize) (hmax : evtsSize ≤ opMaxNumEvents)
    (hf : h₀.Fresh) :
    (∃ h' p, readPerfHeaderFromPipe opMagic
          ⟨writeHeaderToPipe opMagic attrsOffset dataOffset idsOffset evtsSize h ++ rest, []⟩ h₀ =
        .ok (h', p) ∧ Restored evtsSize h h') ↔
      ∀ i, i < evtsSize → (h.hAttrs i).ids.length = (h.hAttrs 0).ids.length ∧
        (h.hAttrs i).ids.length < 2 ^ 31 := by
  constructor
  · rintro ⟨h', p, hrun, hrest⟩
    obtain ⟨h₁, hf₁, -, hread⟩ :=
      readPerfHeaderFromPipe_eq h opMagic attrsOffset dataOffset idsOffset rest hn h0 hmax hf
    rw [hread] at hrun
    have hcount : ∀ i, i < evtsSize → (h.hAttrs i).ids.length =
        intRounds ((pipeAttr idsOffset h 0).ids.size / 8).toNat := by
      intro i hi
      rw [← (hrest i hi).2]
      exact (readPipeEventIds_range_length hf₁ hrun i).2 hi
    intro i hi
    exact ⟨(hcount i hi).trans (hcount 0 h0).symm, (hcount i hi).trans_lt (intRounds_lt _)⟩
  · intro hlen
    obtain ⟨h', hrun, hrest⟩ := pipe_restored opMagic attrsOffset dataOffset idsOffset rest hn h0
      hmax hf hlen
    exact ⟨h', _, hrun, hrest⟩

/-- A header with the attributes and ids of the one written resolves every id. -/
theorem Restored.resolved (hr : Restored evtsSize h h') : IdsResolved evtsSize h h' := by
  intro hd k hk id hid
  have hfind : (List.range evtsSize).find? (fun i => (h'.hAttrs i).ids.contains id) = some k := by
    rw [List.find?_eq_some_iff_getElem]
    refine ⟨by simpa [(hr k hk).2] using hid, k, by simpa using hk, by simp, fun j hj => ?_⟩
    have hjn : j < evtsSize := by omega
    have hnot : id ∉ (h.hAttrs j).ids := fun hj' => by
      have := hd j k hjn hk id hj' hid
      omega
    simpa [(hr j hjn).2] using hnot
  simp only [getEventnumByPerfEventId, hfind]

/-- File mode: the header comes back, with every id resolved, exactly when an `int` can count each
list. Pipe mode: exactly when, besides, all lists are as long as that of the first event. -/
theorem header_round_trip {h₀ : OpHeader n} (opMagic attrsOffset dataOffset idsOffset : UInt64)
    (evtsSize : Nat) (h : OpHeader n) (o : OutFd) (rest : List UInt8) (hn : n < 2 ^ 32)
    (h0 : 0 < evtsSize) (hmax : evtsSize ≤ opMaxNumEvents) (hf : h₀.Fresh) :
    ((∃ h', readHeaderInfoWithIfstream opMagic (writeHeaderToFile opMagic evtsSize h o).2.file h₀ =
          .ok h' ∧ Restored evtsSize h h' ∧ IdsResolved evtsSize h h') ↔
        ∀ i, i < evtsSize → (h.hAttrs i).ids.length < 2 ^ 31) ∧
      ((∃ h' p, readPerfHeaderFromPipe opMagic
            ⟨writeHeaderToPipe opMagic attrsOffset dataOffset idsOffset evtsSize h ++ rest, []⟩ h₀ =
          .ok (h', p) ∧ Restored evtsSize h h' ∧ IdsResolved evtsSize h h') ↔
        ∀ i, i < evtsSize → (h.hAttrs i).ids.length = (h.hAttrs 0).ids.length ∧
          (h.hAttrs i).ids.length < 2 ^ 31) := by
  constructor
  · rw [← file_restored_iff opMagic o hn hmax hf]
    constructor
    · rintro ⟨h', hrun, hrest, -⟩
      exact ⟨h', hrun, hrest⟩
    · rintro ⟨h', hrun, hrest⟩
      exact ⟨h', hrun, hrest, hrest.resolved⟩
  · rw [← pipe_restored_iff opMagic attrsOffset dataOffset idsOffset rest hn h0 hmax hf]
    constructor
    · rintro ⟨h', p, hrun, hrest, -⟩
      exact ⟨h', p, hrun, hrest⟩
    · rintro ⟨h', p, hrun, hrest⟩
      exact ⟨h', p, hrun, hrest, hrest.resolved⟩

/-- A header with the given lists of ids and attributes of zeros. -/
def headerWithIds (n : Nat) (ids : List (List UInt64)) : OpHeader n where
  hAttrs i := ⟨⟨List.replicate n 0, List.length_replicate ..⟩, ids.getD i [], 0⟩
  attrOffset := 0
  dataOffset := 0
  dataSize := 0

theorem headerWithIds_fresh (n : Nat) : (headerWithIds n []).Fresh := fun _ => rfl

theorem header_round_trip_two_events :
    (∃ h', readHeaderInfoWithIfstream 7 (writeHeaderToFile 7 2
          (headerWithIds 112 [[11, 12], [21, 22]]) ⟨File.empty, 0⟩).2.file (headerWithIds 112 []) =
        .ok h' ∧ Restored 2 (headerWithIds 112 [[11, 12], [21, 22]]) h' ∧
          IdsResolved 2 (headerWithIds 112 [[11, 12], [21, 22]]) h') ∧
      (∃ h' p, readPerfHeaderFromPipe 7 ⟨writeHeaderToPipe 7 0 0 0 2
            (headerWithIds 112 [[11, 12], [21, 22]]) ++ [], []⟩ (headerWithIds 112 []) = .ok (h', p) ∧
          Restored 2 (headerWithIds 112 [[11, 12], [21, 22]]) h' ∧
            IdsResolved 2 (headerWithIds 112 [[11, 12], [21, 22]]) h') :=
  have hrt := header_round_trip 7 0 0 0 2 (headerWithIds 112 [[11, 12], [21, 22]])
    ⟨File.empty, 0⟩ [] (by decide) (by decide) (by decide) (headerWithIds_fresh 112)
  ⟨hrt.1.mpr (by decide), hrt.2.mpr (by decide)⟩

/-- One id for the first event and two for the second: the second of these is not read, and
belongs to no event. -/
theorem header_pipe_uneven_ids :
    ¬ ∃ h' p, readPerfHeaderFromPipe 7 ⟨writeHeaderToPipe 7 0 0 0 2
          (headerWithIds 112 [[11], [21, 22]]) ++ [], []⟩ (headerWithIds 112 []) = .ok (h', p) ∧
        Restored 2 (headerWithIds 112 [[11], [21, 22]]) h' := by
  intro hex
  have hall := (pipe_restored_iff 7 0 0 0 [] (by decide) (by decide) (by decide)
    (headerWithIds_fresh 112)).mp hex
  exact absurd (hall 1 (by decide)).1 (by decide)

end Oprofile.Operf
