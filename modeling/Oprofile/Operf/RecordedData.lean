import Oprofile.Operf.FileRecording

/-! What a run records to a file is announced by the header and read back. -/
namespace Oprofile.Operf

open ByteMem Records

variable {n : Nat} {h h' : OpHeader n} {o o' : OutFd} {r : OperfRecord n} {f : File} {mp : Mapping}
  {opMagic : UInt64} {evtsSize k b b' pos : Nat} {bs L : List UInt8} {chunks : List (List UInt8)}
  {info : MmapInfo}

/-- The bytes in front of the records. -/
def headerBytes (evtsSize : Nat) (h : OpHeader n) : Nat :=
  sizeofFileHeader + (idsBytes h evtsSize).length + evtsSize * sizeofFileAttr n

/-! The running total. -/

theorem toUInt32_bytesWritten (bs : List UInt8) :
    (bytesWritten bs).toUInt32 = UInt32.ofNat bs.length := rfl

theorem foldl_bytesWritten (f : Nat → List UInt8) (xs : List Nat) (total : Int32) :
    (xs.foldl (fun total i => total + bytesWritten (f i)) total).toUInt32 =
      total.toUInt32 + UInt32.ofNat (xs.flatMap f).length := by
  induction xs generalizing total with
  | nil => simp
  | cons x xs ih =>
    rw [List.foldl_cons, ih, List.flatMap_cons, List.length_append, Int32.toUInt32_add,
      toUInt32_bytesWritten, UInt32.ofNat_add, UInt32.add_assoc]

/-- The header counts its own bytes, up to the width of the total. -/
theorem toUInt32_headerTotal (evtsSize : Nat) (h : OpHeader n) :
    (headerTotal evtsSize h).toUInt32 = UInt32.ofNat (headerBytes evtsSize h) := by
  have hattrs := attrsBytes_length h evtsSize
  simp only [headerTotal, Int32.toUInt32_add, foldl_bytesWritten, Int32.toUInt32_ofNat']
  change 0 + UInt32.ofNat (idsBytes h evtsSize).length + UInt32.ofNat (attrsBytes h evtsSize).length +
    UInt32.ofNat sizeofFileHeader = _
  rw [hattrs, headerBytes, UInt32.zero_add, ← UInt32.ofNat_add, ← UInt32.ofNat_add]
  congr 1
  omega

theorem headerBytes_congr (hids : ∀ i, (h'.hAttrs i).ids = (h.hAttrs i).ids) :
    headerBytes evtsSize h' = headerBytes evtsSize h := by
  simp only [headerBytes, idsBytes, hids]

/-! What writing leaves alone. -/

/-- Blocks from `b` on stay. -/
def KeepsFrom (b : Nat) (o o' : OutFd) : Prop :=
  ∀ q bs, b ≤ q → Holds o.file q bs → Holds o'.file q bs

theorem KeepsFrom.refl (b : Nat) (o : OutFd) : KeepsFrom b o o := fun _ _ _ hold => hold

theorem KeepsFrom.trans {o'' : OutFd} (hk : KeepsFrom b o o') (hk' : KeepsFrom b' o' o'') (hle : b ≤ b') :
    KeepsFrom b' o o'' :=
  fun q bs hq hold => hk' q bs hq (hk q bs (hle.trans hq) hold)

theorem opWriteOutput_keeps (o : OutFd) (bs : List UInt8) :
    KeepsFrom (opWriteOutput o bs).pos o (opWriteOutput o bs) := by
  intro q cs hq hold
  exact hold.pwrite_disjoint (Or.inr hq)

theorem opWriteOutput_pos_le (o : OutFd) (bs : List UInt8) : o.pos ≤ (opWriteOutput o bs).pos :=
  Nat.le_add_right ..

theorem writeEventIds_keeps (h : OpHeader n) (o : OutFd) (k : Nat) :
    KeepsFrom ((List.range k).foldl writeEventIds (h, o)).2.pos o
      ((List.range k).foldl writeEventIds (h, o)).2 := by
  induction k with
  | zero => exact KeepsFrom.refl _ _
  | succ k ih =>
    rw [List.range_succ, List.foldl_append, List.foldl_cons, List.foldl_nil]
    exact ih.trans (opWriteOutput_keeps _ _) (opWriteOutput_pos_le _ _)

theorem writeEventAttr_keeps (h : OpHeader n) (o : OutFd) (k : Nat) :
    KeepsFrom ((List.range k).foldl (writeEventAttr h) o).pos o
        ((List.range k).foldl (writeEventAttr h) o) ∧
      o.pos ≤ ((List.range k).foldl (writeEventAttr h) o).pos := by
  induction k with
  | zero => exact ⟨KeepsFrom.refl _ _, Nat.le_refl _⟩
  | succ k ih =>
    rw [List.range_succ, List.foldl_append, List.foldl_cons, List.foldl_nil]
    exact ⟨ih.1.trans (opWriteOutput_keeps _ _) (opWriteOutput_pos_le _ _),
      ih.2.trans (opWriteOutput_pos_le _ _)⟩

/-- What `_write_header_to_file` does: the header lies at the front, the records stay, and the next
one goes behind them. -/
structure HeaderWritten (opMagic : UInt64) (evtsSize : Nat) (h : OpHeader n) (o : OutFd)
    (h' : OpHeader n) (o' : OutFd) : Prop where
  ids : ∀ i, (h'.hAttrs i).ids = (h.hAttrs i).ids
  dataOffset : h'.dataOffset = headerBytes evtsSize h
  dataSize : h'.dataSize = h.dataSize
  pos : o'.pos = headerBytes evtsSize h + h.dataSize.toNat
  header : Holds o'.file 0 (fileHeaderFormat.encode (fileHeader opMagic evtsSize h'))
  records : KeepsFrom (headerBytes evtsSize h) o o'

theorem writeEventIds_dataSize (h : OpHeader n) (o : OutFd) (k : Nat) :
    ((List.range k).foldl writeEventIds (h, o)).1.dataSize = h.dataSize := by
  induction k with
  | zero => rfl
  | succ k ih =>
    rw [List.range_succ, List.foldl_append, List.foldl_cons, List.foldl_nil]
    exact ih

theorem writeHeaderToFile_written (opMagic : UInt64) (evtsSize : Nat) (h : OpHeader n) (o : OutFd) :
    HeaderWritten opMagic evtsSize h o (writeHeaderToFile opMagic evtsSize h o).1
      (writeHeaderToFile opMagic evtsSize h o).2 := by
  obtain ⟨hset, hwr⟩ := writeEventIds_range h (wrote_lseek o sizeofFileHeader) evtsSize
  have hkeep := writeEventIds_keeps h (lseek o sizeofFileHeader) evtsSize
  have hsize := writeEventIds_dataSize h (lseek o sizeofFileHeader) evtsSize
  simp only [writeHeaderToFile]
  generalize (List.range evtsSize).foldl writeEventIds (h, lseek o sizeofFileHeader) = s
    at hset hwr hkeep hsize ⊢
  obtain ⟨h₁, o₁⟩ := s
  have hattr := writeEventAttr_range (h := { h₁ with attrOffset := o₁.pos }) hwr evtsSize
  obtain ⟨hkeep₂, hpos₂⟩ := writeEventAttr_keeps { h₁ with attrOffset := o₁.pos } o₁ evtsSize
  simp only at hattr hkeep hsize ⊢
  generalize (List.range evtsSize).foldl (writeEventAttr { h₁ with attrOffset := o₁.pos }) o₁ = o₂
    at hattr hkeep₂ hpos₂ ⊢
  have hend : o₂.pos = headerBytes evtsSize h := by
    rw [hattr.1, List.length_append, attrsBytes_length, headerBytes, Nat.add_assoc]
  have hwidth : (fileHeaderFormat.encode
      (fileHeader opMagic evtsSize { h₁ with attrOffset := o₁.pos, dataOffset := o₂.pos })).length =
        sizeofFileHeader := Format.length_encode ..
  refine ⟨hset.ids, hend, hsize, ?_, holds_pwrite _ _ _, ?_⟩
  · change o₂.pos + h₁.dataSize.toNat = _
    rw [hend, hsize]
  · have hfront : KeepsFrom (headerBytes evtsSize h) o₂
        (opWriteOutput (lseek o₂ 0) (fileHeaderFormat.encode
          (fileHeader opMagic evtsSize { h₁ with attrOffset := o₁.pos, dataOffset := o₂.pos }))) := by
      intro q cs hq hold
      change Holds (pwrite o₂.file 0 (fileHeaderFormat.encode _)) q cs
      refine hold.pwrite_disjoint (Or.inr ?_)
      rw [hwidth]
      rw [headerBytes] at hq
      omega
    exact (hkeep.trans hkeep₂ hpos₂).trans hfront (Nat.le_of_eq hend)

/-! The run. -/

/-- After the header and some pieces: all of them are in the file and counted. -/
structure Recording (b : Nat) (bs : List UInt8) (r : OperfRecord n) : Prop where
  pos : r.outputFd.pos = b + bs.length
  held : Holds r.outputFd.file b bs
  total : r.totalBytesRecorded = UInt32.ofNat (b + bs.length)

theorem Recording.recordBytes (hr : Recording b L r) (bs : List UInt8) :
    Recording b (L ++ bs) (recordBytes r bs) := by
  have hw : Wrote r.outputFd b L := ⟨hr.pos, hr.held⟩
  obtain ⟨hpos, hheld⟩ := hw.write bs
  refine ⟨hpos, hheld, ?_⟩
  change r.totalBytesRecorded + (bytesWritten bs).toUInt32 = _
  rw [hr.total, toUInt32_bytesWritten, ← UInt32.ofNat_add, List.length_append, Nat.add_assoc]

/-- What lies in front of the records stays. -/
theorem Recording.front {q : Nat} {as : List UInt8} (hr : Recording b L r)
    (hold : Holds r.outputFd.file q as) (hq : q + as.length ≤ b) (chunks : List (List UInt8)) :
    Holds (chunks.foldl Operf.recordBytes r).outputFd.file q as := by
  induction chunks generalizing L r with
  | nil => exact hold
  | cons bs chunks ih =>
    refine ih (hr.recordBytes bs) ?_
    change Holds (pwrite r.outputFd.file r.outputFd.pos bs) q as
    apply hold.pwrite_disjoint
    rw [hr.pos]
    omega

theorem Recording.foldl (hr : Recording b L r) (chunks : List (List UInt8)) :
    Recording b (L ++ chunks.flatten) (chunks.foldl Operf.recordBytes r) ∧
      (chunks.foldl Operf.recordBytes r).opHeader = r.opHeader := by
  induction chunks generalizing L r with
  | nil =>
    rw [List.flatten_nil, List.append_nil]
    exact ⟨hr, rfl⟩
  | cons bs chunks ih =>
    rw [List.flatten_cons, ← List.append_assoc]
    exact ih (hr.recordBytes bs)

/-- The header that is first written counts itself. -/
theorem recording_start (opMagic : UInt64) (evtsSize : Nat) (h : OpHeader n) (hsize : h.dataSize = 0) :
    Recording (headerBytes evtsSize h) []
      (writeOpHeaderInfo opMagic evtsSize ⟨h, ⟨File.empty, 0⟩, 0⟩) := by
  have hw := writeHeaderToFile_written opMagic evtsSize h ⟨File.empty, 0⟩
  refine ⟨?_, holds_nil _ _, ?_⟩
  · change (writeHeaderToFile opMagic evtsSize h ⟨File.empty, 0⟩).2.pos = _
    rw [hw.pos, hsize]
    rfl
  · change 0 + (headerTotal evtsSize h).toUInt32 = _
    rw [toUInt32_headerTotal, UInt32.zero_add]
    rfl

/-- The file of a run: a header at the front with some size in it, and then all that was recorded. -/
theorem recordedFile_spec (opMagic : UInt64) (evtsSize : Nat) (h : OpHeader n)
    (chunks : List (List UInt8)) :
    ∃ h' : OpHeader n, h'.dataOffset = headerBytes evtsSize h ∧
      h'.dataSize = (UInt32.ofNat (headerBytes evtsSize h + chunks.flatten.length)).toUInt64 ∧
      Holds (recordedFile opMagic evtsSize h chunks) 0
        (fileHeaderFormat.encode (fileHeader opMagic evtsSize h')) ∧
      Holds (recordedFile opMagic evtsSize h chunks) (headerBytes evtsSize h) chunks.flatten := by
  have hw := writeHeaderToFile_written opMagic evtsSize { h with dataSize := 0 } ⟨File.empty, 0⟩
  have hstart := recording_start opMagic evtsSize { h with dataSize := 0 } rfl
  have hwidth : ∀ g : OpHeader n,
      0 + (fileHeaderFormat.encode (fileHeader opMagic evtsSize g)).length ≤ headerBytes evtsSize h := by
    intro g
    rw [Format.length_encode, headerBytes, Nat.zero_add, Nat.add_assoc]
    exact Nat.le_add_right ..
  have hfront := hstart.front hw.header (hwidth _) chunks
  obtain ⟨hrun, hheader⟩ := hstart.foldl chunks
  have hids : headerBytes evtsSize (writeHeaderToFile opMagic evtsSize { h with dataSize := 0 }
      ⟨File.empty, 0⟩).1 = headerBytes evtsSize h := headerBytes_congr hw.ids
  rw [recordedFile]
  generalize hfirst : writeOpHeaderInfo opMagic evtsSize ⟨{ h with dataSize := 0 }, ⟨File.empty, 0⟩, 0⟩ =
    r₀ at hfront hrun hheader ⊢
  have hopen : r₀.opHeader = (writeHeaderToFile opMagic evtsSize { h with dataSize := 0 }
      ⟨File.empty, 0⟩).1 := by
    rw [← hfirst]
    rfl
  generalize chunks.foldl recordBytes r₀ = r at hfront hrun hheader ⊢
  rw [hopen] at hheader
  rw [List.nil_append] at hrun
  have htotal : r.totalBytesRecorded =
      UInt32.ofNat (headerBytes evtsSize h + chunks.flatten.length) := hrun.total
  simp only [finishRecord]
  split_ifs with hne
  · have hlast := writeHeaderToFile_written opMagic evtsSize
      { r.opHeader with dataSize := r.totalBytesRecorded.toUInt64 } r.outputFd
    have hsame : headerBytes evtsSize { r.opHeader with dataSize := r.totalBytesRecorded.toUInt64 } =
        headerBytes evtsSize h := by
      rw [← hids, ← hheader]
      rfl
    refine ⟨_, hlast.dataOffset.trans hsame, ?_, hlast.header, ?_⟩
    · rw [hlast.dataSize, htotal]
    · exact hlast.records _ _ (Nat.le_of_eq hsame) hrun.held
  · refine ⟨_, hw.dataOffset, ?_, hfront, hrun.held⟩
    rw [hw.dataSize, ← htotal, not_not.mp hne]
    rfl

/-! Reading back. -/

theorem readFileAttr_data {s s' : OpHeader n × Nat} {i : Nat} (h : readFileAttr f s i = .ok s') :
    s'.1.dataOffset = s.1.dataOffset ∧ s'.1.dataSize = s.1.dataSize := by
  simp only [readFileAttr] at h
  split_ifs at h
  split at h
  · cases h
  · cases h
    exact ⟨rfl, rfl⟩

theorem readFileAttrs_data {xs : List Nat} {s s' : OpHeader n × Nat}
    (h : xs.foldlM (readFileAttr f) s = .ok s') :
    s'.1.dataOffset = s.1.dataOffset ∧ s'.1.dataSize = s.1.dataSize := by
  induction xs generalizing s with
  | nil =>
    cases h
    exact ⟨rfl, rfl⟩
  | cons i xs ih =>
    rw [List.foldlM_cons] at h
    cases hone : readFileAttr f s i with
    | error e =>
      rw [hone] at h
      cases h
    | ok s₁ =>
      rw [hone] at h
      obtain ⟨hoff, hsize⟩ := readFileAttr_data hone
      obtain ⟨hoff', hsize'⟩ := ih h
      exact ⟨hoff'.trans hoff, hsize'.trans hsize⟩

/-- The header that is read names the offset and the size that were written. -/
theorem readHeaderInfoWithIfstream_data {h₀ h₁ : OpHeader n}
    (hold : Holds f 0 (fileHeaderFormat.encode (fileHeader opMagic evtsSize h')))
    (hread : readHeaderInfoWithIfstream opMagic f h₀ = .ok h₁) :
    h₁.dataOffset = (UInt64.ofNat h'.dataOffset).toNat ∧ h₁.dataSize = h'.dataSize := by
  have hbytes := hold.pread
  have hsize : (fileHeaderFormat.encode (fileHeader opMagic evtsSize h')).length =
      sizeofFileHeader := Format.length_encode ..
  rw [hsize] at hbytes
  simp only [readHeaderInfoWithIfstream, hbytes, hsize, ne_eq, not_true_eq_false, if_false,
    Format.decode_encode_self] at hread
  split_ifs at hread with hmagic hattr
  cases hattrs : (List.range (intRounds ((fileHeader opMagic evtsSize h').attrs.size /
      (fileHeader opMagic evtsSize h').attrSize).toNat)).foldlM (readFileAttr f)
        ({ h₀ with
          attrOffset := (fileHeader opMagic evtsSize h').attrs.offset.toNat
          dataOffset := (fileHeader opMagic evtsSize h').data.offset.toNat
          dataSize := (fileHeader opMagic evtsSize h').data.size },
          (fileHeader opMagic evtsSize h').attrs.offset.toNat) with
  | error e =>
    rw [hattrs] at hread
    cases hread
  | ok s =>
    rw [hattrs] at hread
    cases hread
    exact readFileAttrs_data hattrs

theorem PerfRecord.length_lt (rec : PerfRecord) : rec.bytes.length ≤ 65535 := by
  have hsize := rec.size_eq
  have h6 := ((fun i => rec.bytes.getD i 0) 6).toNat_lt
  have h7 := ((fun i => rec.bytes.getD i 0) 7).toNat_lt
  rw [headerSize] at hsize
  simp only [Nat.zero_add] at hsize h6 h7
  omega

/-- A record that lies in the file is what its header announces there. -/
theorem PerfRecord.loaded (rec : PerfRecord) (hold : Holds f pos rec.bytes) :
    headerSize f.byte pos = rec.bytes.length ∧ load f.byte pos rec.bytes.length = rec.bytes := by
  have hlen := rec.header_le
  refine ⟨?_, ?_⟩
  · rw [← rec.size_eq]
    have h8 : 8 ≤ rec.bytes.length := hlen
    have h6 := (hold 6 (by omega)).1
    have h7 := (hold 7 (by omega)).1
    have hget : ∀ i, (hi : i < rec.bytes.length) → rec.bytes.getD i 0 = rec.bytes[i] := by
      intro i hi
      rw [List.getD_eq_getElem?_getD, List.getElem?_eq_getElem hi, Option.getD_some]
    simp only [headerSize, Nat.zero_add, h6, h7]
    rw [hget 6 (by omega), hget 7 (by omega)]
  · apply List.ext_getElem
    · rw [load_length]
    · intro i hi hi'
      simpa [load] using (hold i hi').1

/-- Moving the window keeps the position and brings it into the first page. -/
theorem MmapInfo.shift_spec (info : MmapInfo) {pgSz : Nat} (hpos : 0 < pgSz) :
    (info.shift pgSz).offset + (info.shift pgSz).head = info.offset + info.head ∧
      (info.shift pgSz).head < pgSz := by
  have hle : pgSz * (info.head / pgSz) ≤ info.head := Nat.mul_div_le info.head pgSz
  have hmod : info.head - pgSz * (info.head / pgSz) = info.head % pgSz :=
    (Nat.mod_eq_sub_mul_div).symm
  refine ⟨?_, ?_⟩
  · change info.offset + pgSz * (info.head / pgSz) + (info.head - pgSz * (info.head / pgSz)) = _
    omega
  · change info.head - pgSz * (info.head / pgSz) < pgSz
    rw [hmod]
    exact Nat.mod_lt _ hpos

/-- One call returns the record at the position reached and goes on behind it. -/
theorem getPerfEventFromFile_record (mp : Mapping) {rec : PerfRecord} {size : Nat}
    (hold : Holds f (info.offset + info.head) rec.bytes)
    (hsize : info.offset + info.head + rec.bytes.length ≤ size) :
    ∃ info', getPerfEventFromFile mp f size 2 info = some (some rec.bytes, info') ∧
      info'.offset + info'.head = info.offset + info.head + rec.bytes.length := by
  obtain ⟨hlen, hload⟩ := rec.loaded hold
  have hmin := rec.header_le
  have hmax := rec.length_lt
  have hin : ¬ size < info.offset + info.head + sizeofPerfEventHeader := by omega
  rw [getPerfEventFromFile, if_neg hin]
  by_cases hfit : info.head + rec.bytes.length ≤ mmapSize mp size
  · refine ⟨{ info with head := info.head + rec.bytes.length }, ?_, (Nat.add_assoc ..).symm⟩
    rw [hlen, if_pos ⟨by omega, hfit⟩, hload]
  · -- Only a window smaller than the file is moved, and then the record fits behind less than a page.
    have hwindow : mmapSize mp size = mp.windowSz := by
      rw [mmapSize]
      rw [mmapSize] at hfit
      split_ifs at hfit ⊢ with hsmall
      · omega
      · rfl
    obtain ⟨hshift, hpage⟩ := info.shift_spec mp.pgSz_pos
    have hfits := mp.fits
    refine ⟨{ info.shift mp.pgSz with head := (info.shift mp.pgSz).head + rec.bytes.length }, ?_, ?_⟩
    · rw [hlen, if_neg (fun h => hfit h.2), getPerfEventFromFile, hshift, if_neg hin]
      rw [hlen, if_pos (by rw [hwindow]; omega), hload]
    · rw [← hshift]
      exact (Nat.add_assoc ..).symm

theorem getPerfEventFromFile_end {size : Nat} (hend : info.offset + info.head = size) :
    getPerfEventFromFile mp f size 2 info = some (none, info) := by
  rw [getPerfEventFromFile, if_pos]
  rw [hend]
  exact Nat.lt_add_of_pos_right (by decide)

/-- Records up to the announced size are all read. -/
theorem eventsFromFile_records {rs : List PerfRecord} {size : Nat}
    (hold : Holds f (info.offset + info.head) (pipeBytes rs))
    (hsize : info.offset + info.head + (pipeBytes rs).length = size) (hk : rs.length < k) :
    eventsFromFile mp f size k info = some (rs.map PerfRecord.bytes) := by
  induction rs generalizing info k with
  | nil =>
    obtain ⟨k, rfl⟩ := Nat.exists_eq_succ_of_ne_zero (Nat.ne_of_gt hk)
    rw [eventsFromFile, getPerfEventFromFile_end hsize]
    rfl
  | cons rec rs ih =>
    obtain ⟨k, rfl⟩ := Nat.exists_eq_succ_of_ne_zero (Nat.ne_of_gt (Nat.zero_lt_of_lt hk))
    obtain ⟨hrec, hrest⟩ := holds_append.mp hold
    have hlen : (pipeBytes (rec :: rs)).length = rec.bytes.length + (pipeBytes rs).length :=
      List.length_append
    rw [hlen] at hsize
    obtain ⟨info', hcall, hpos⟩ := getPerfEventFromFile_record mp hrec
      (by omega : info.offset + info.head + rec.bytes.length ≤ size)
    rw [eventsFromFile, hcall]
    rw [← hpos] at hrest
    simp only [ih hrest (by omega) (by simpa using hk), Option.map_some, List.map_cons]

/-! Nothing that was recorded is left out. -/

/-- The header announces header and records, and the reader sees every record. -/
structure Converted (opMagic : UInt64) (evtsSize : Nat) (h : OpHeader n) (chunks : List (List UInt8)) :
    Prop where
  size : (fileHeaderFormat.decode (pread (recordedFile opMagic evtsSize h chunks) 0
    sizeofFileHeader)).data.size.toNat = headerBytes evtsSize h + chunks.flatten.length
  seen : ∀ rs : List PerfRecord, chunks.flatten = pipeBytes rs → ∀ (mp : Mapping) (h₀ h₁ : OpHeader n),
    readHeaderInfoWithIfstream opMagic (recordedFile opMagic evtsSize h chunks) h₀ = .ok h₁ →
      convertPerfDataFile mp (recordedFile opMagic evtsSize h chunks) h₁ = some (rs.map PerfRecord.bytes)

/-- The size announced is what was written, up to 32 bits. -/
theorem recordedFile_size (opMagic : UInt64) (evtsSize : Nat) (h : OpHeader n)
    (chunks : List (List UInt8)) :
    (fileHeaderFormat.decode (pread (recordedFile opMagic evtsSize h chunks) 0
      sizeofFileHeader)).data.size.toNat =
        (headerBytes evtsSize h + chunks.flatten.length) % 2 ^ 32 := by
  obtain ⟨h', -, hsize, hheader, -⟩ := recordedFile_spec opMagic evtsSize h chunks
  have hbytes := hheader.pread
  rw [Format.length_encode] at hbytes
  change pread _ 0 sizeofFileHeader = _ at hbytes
  rw [hbytes, Format.decode_encode_self]
  change h'.dataSize.toNat = _
  rw [hsize, UInt32.toNat_toUInt64, UInt32.toNat_ofNat']

theorem pipeBytes_length_le (rs : List PerfRecord) : rs.length ≤ (pipeBytes rs).length := by
  induction rs with
  | nil => exact Nat.le_refl 0
  | cons rec rs ih =>
    have hmin : 8 ≤ rec.bytes.length := rec.header_le
    have hlen : (pipeBytes (rec :: rs)).length = rec.bytes.length + (pipeBytes rs).length :=
      List.length_append
    rw [hlen, List.length_cons]
    omega

/-- Everything recorded to a file is converted exactly when header and records together stay below
2^32 bytes. -/
theorem recording_converted_iff (opMagic : UInt64) (evtsSize : Nat) (h : OpHeader n)
    (chunks : List (List UInt8)) :
    Converted opMagic evtsSize h chunks ↔ headerBytes evtsSize h + chunks.flatten.length < 2 ^ 32 := by
  constructor
  · intro hconv
    rw [← hconv.size, recordedFile_size]
    exact Nat.mod_lt _ (by decide)
  · intro hlt
    refine ⟨by rw [recordedFile_size, Nat.mod_eq_of_lt hlt], ?_⟩
    intro rs hrs mp h₀ h₁ hread
    obtain ⟨h', hoff, hsize, hheader, hheld⟩ := recordedFile_spec opMagic evtsSize h chunks
    obtain ⟨hoff₁, hsize₁⟩ := readHeaderInfoWithIfstream_data hheader hread
    have hdata : h₁.dataSize.toNat = headerBytes evtsSize h + chunks.flatten.length := by
      rw [hsize₁, hsize, UInt32.toNat_toUInt64, UInt32.toNat_ofNat', Nat.mod_eq_of_lt hlt]
    have hstart : h₁.dataOffset = headerBytes evtsSize h := by
      rw [hoff₁, hoff, UInt64.toNat_ofNat', Nat.mod_eq_of_lt (by omega)]
    generalize recordedFile opMagic evtsSize h chunks = f at hheld ⊢
    obtain ⟨hshift, -⟩ := (MmapInfo.mk 0 h₁.dataOffset).shift_spec mp.pgSz_pos
    simp only [Nat.zero_add, hstart] at hshift
    rw [hrs] at hheld hdata
    have hfile : rs.length < f.size + 1 := by
      have hle := pipeBytes_length_le rs
      rcases Nat.eq_zero_or_pos (pipeBytes rs).length with hnil | hpos
      · omega
      · have hlast := (hheld ((pipeBytes rs).length - 1) (by omega)).2
        omega
    rw [convertPerfDataFile, hstart]
    rw [← hshift] at hheld
    refine eventsFromFile_records hheld ?_ hfile
    rw [hdata, hshift]

/-- One event with one id. -/
def oneEventHeader : OpHeader 96 where
  hAttrs := fun _ => { attr := ⟨List.replicate 96 0, by simp⟩, ids := [1], idOffset := 0 }
  attrOffset := 0
  dataOffset := 0
  dataSize := 0

/-- A record that is its header alone. -/
def headerRecord : List UInt8 := [0, 0, 0, 0, 0, 0, 8, 0]

/-- Records of 2^32 bytes are announced as nothing but the header. -/
theorem long_recording_cut : ¬ Converted 0 1 oneEventHeader (List.replicate (2 ^ 29) headerRecord) := by
  intro hconv
  have hsize := hconv.size
  have hlen : (List.replicate (2 ^ 29) headerRecord).flatten.length = 2 ^ 32 := by
    rw [List.length_flatten, List.map_replicate, List.sum_replicate_nat]
    rfl
  have hheader : headerBytes 1 oneEventHeader = 176 := rfl
  rw [recordedFile_size, hlen, hheader] at hsize
  omega

end Oprofile.Operf
