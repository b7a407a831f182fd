import Oprofile.Operf.RecordedData

/-! Reading a sample data file through a window of any size (`operf_counter.cpp`, `operf_utils.cpp`). -/
namespace Oprofile.Operf.WindowedReader

open ByteMem

/-- A sample data file as it is read: `info.file_data_size`, `pg_sz` and `mmap_size`. -/
structure Reader where
  file : File
  fileDataSize : Nat
  pgSz : Nat
  mmapSize : Nat

/-- What one turn of `try_again` comes to. -/
inductive Attempt
  | event (bytes : List UInt8) (info : MmapInfo)
  | noMore (info : MmapInfo)
  | again (info : MmapInfo)
  /-- The file cannot be mapped: `runtime_error`. -/
  | mmapFailed

variable (r : Reader)

/-- `__mmap_trace_file`: `mmap` takes no empty window and no offset within a page. -/
def mmapTraceFile (info : MmapInfo) : Bool := r.mmapSize ≠ 0 ∧ info.offset % r.pgSz = 0

def attempt (info : MmapInfo) : Attempt :=
  if r.fileDataSize < info.offset + info.head + sizeofPerfEventHeader then .noMore info
  else
    let size := headerSize r.file.byte (info.offset + info.head)
    if info.head + sizeofPerfEventHeader ≤ r.mmapSize ∧ info.head + size ≤ r.mmapSize then
      .event (load r.file.byte (info.offset + info.head) size) { info with head := info.head + size }
    else if mmapTraceFile r (info.shift r.pgSz) then .again (info.shift r.pgSz)
    else .mmapFailed

/-- `_get_perf_event_from_file`; nothing when it does not return within `tries` turns. -/
def getPerfEvent : Nat → MmapInfo → Option Attempt
  | 0, _ => none
  | tries + 1, info =>
    match attempt r info with
    | .again info => getPerfEvent tries info
    | result => some result

/-- The events of repeated calls, up to the first `NULL`. -/
def readEvents (tries : Nat) : Nat → MmapInfo → Option (List (List UInt8))
  | 0, _ => none
  | calls + 1, info =>
    match getPerfEvent r tries info with
    | some (.event bytes info) => (readEvents tries calls info).map (bytes :: ·)
    | some (.noMore _) => some []
    | _ => none

/-- `op_mmap_trace_file(info, true)`, with the window set before it. -/
def opMmapTraceFile (fileDataOffset : Nat) : Option MmapInfo :=
  let info := (MmapInfo.mk 0 fileDataOffset).shift r.pgSz
  if mmapTraceFile r info then some info else none

/-- `mmap_size`, as it is set when the file is opened. -/
def initialMmapSize (windowSz mmapSize fileDataSize : Nat) : Nat :=
  if mmapSize = 0 then if windowSz > fileDataSize then fileDataSize else windowSz else mmapSize

/-! ### The file as a whole -/

/-- The size that a header at `pos` announces. -/
def sizeAt (pos : Nat) : Nat := headerSize r.file.byte pos

/-- The records that lie completely between `pos` and the recorded size. -/
inductive WholeRecords : Nat → List (List UInt8) → Prop
  | noHeader {pos : Nat} (hend : r.fileDataSize < pos + sizeofPerfEventHeader) : WholeRecords pos []
  | cutShort {pos : Nat} (hheader : pos + sizeofPerfEventHeader ≤ r.fileDataSize)
      (hcut : r.fileDataSize < pos + sizeAt r pos) : WholeRecords pos []
  | record {pos : Nat} {events : List (List UInt8)} (hheader : pos + sizeofPerfEventHeader ≤ r.fileDataSize)
      (hwhole : pos + sizeAt r pos ≤ r.fileDataSize) (hrest : WholeRecords (pos + sizeAt r pos) events) :
      WholeRecords pos (load r.file.byte pos (sizeAt r pos) :: events)

/-- Where the headers from `start` on lie, by the sizes they announce. -/
inductive HeaderAt (start : Nat) : Nat → Prop
  | start : HeaderAt start start
  | next {pos : Nat} (h : HeaderAt start pos) (hheader : pos + sizeofPerfEventHeader ≤ r.fileDataSize) :
      HeaderAt start (pos + sizeAt r pos)

/-- The reader returns the whole records, and then `NULL`. -/
def Transparent (fileDataOffset : Nat) : Prop :=
  ∃ info, opMmapTraceFile r fileDataOffset = some info ∧ ∃ events, WholeRecords r fileDataOffset events ∧
    ∃ tries calls, readEvents r tries calls info = some events

/-- What the reader can take at `pos`: a record that is all there and fits behind the start of its page. -/
structure Takes (pos : Nat) : Prop where
  nonempty : 0 < sizeAt r pos
  whole : pos + sizeAt r pos ≤ r.fileDataSize
  fits : pos % r.pgSz + max sizeofPerfEventHeader (sizeAt r pos) ≤ r.mmapSize

variable {r} {info : MmapInfo} {pos start : Nat} {events : List (List UInt8)} {tries calls : Nat}

/-- A reader at `pos`, with its window at the start of a page. -/
structure At (r : Reader) (info : MmapInfo) (pos : Nat) : Prop where
  aligned : r.pgSz ∣ info.offset
  pos : info.offset + info.head = pos

theorem shift_head (info : MmapInfo) (pgSz : Nat) : (info.shift pgSz).head = info.head % pgSz := by
  change info.head - pgSz * (info.head / pgSz) = info.head % pgSz
  exact Nat.mod_eq_sub_mul_div.symm

theorem At.shift (h : At r info pos) : At r (info.shift r.pgSz) pos := by
  have hle : r.pgSz * (info.head / r.pgSz) ≤ info.head := Nat.mul_div_le info.head r.pgSz
  refine ⟨?_, ?_⟩
  · change r.pgSz ∣ info.offset + r.pgSz * (info.head / r.pgSz)
    exact Nat.dvd_add h.aligned (Nat.dvd_mul_right _ _)
  · change info.offset + r.pgSz * (info.head / r.pgSz) + (info.head - r.pgSz * (info.head / r.pgSz)) = pos
    have hpos := h.pos
    omega

theorem At.mod (h : At r info pos) : info.head % r.pgSz = pos % r.pgSz := by
  obtain ⟨k, hk⟩ := h.aligned
  rw [← h.pos, hk, Nat.mul_add_mod]

theorem At.mapped (h : At r info pos) (hsize : r.mmapSize ≠ 0) : mmapTraceFile r info := by
  simp [mmapTraceFile, hsize, Nat.mod_eq_zero_of_dvd h.aligned]

theorem open_eq (start : Nat) (hsize : r.mmapSize ≠ 0) : ∃ info, opMmapTraceFile r start = some info ∧ At r info start := by
  have hat : At r ((MmapInfo.mk 0 start).shift r.pgSz) start := At.shift ⟨Nat.dvd_zero _, Nat.zero_add start⟩
  exact ⟨_, if_pos (hat.mapped hsize), hat⟩

theorem open_mmapSize (h : opMmapTraceFile r start = some info) : r.mmapSize ≠ 0 := by
  unfold opMmapTraceFile mmapTraceFile at h
  intro hsize
  simp [hsize] at h

/-! ### One call -/

/-- The record at `pos` lies in the window. -/
abbrev InWindow (r : Reader) (info : MmapInfo) (pos : Nat) : Prop :=
  info.head + sizeofPerfEventHeader ≤ r.mmapSize ∧ info.head + sizeAt r pos ≤ r.mmapSize

theorem attempt_noMore (h : At r info pos) (hend : r.fileDataSize < pos + sizeofPerfEventHeader) :
    attempt r info = .noMore info := by
  rw [attempt, h.pos, if_pos hend]

theorem attempt_event (h : At r info pos) (hheader : pos + sizeofPerfEventHeader ≤ r.fileDataSize)
    (hin : InWindow r info pos) :
    attempt r info =
      .event (load r.file.byte pos (sizeAt r pos)) { info with head := info.head + sizeAt r pos } := by
  rw [attempt, h.pos, if_neg (Nat.not_lt.mpr hheader)]
  exact if_pos hin

theorem attempt_again (h : At r info pos) (hsize : r.mmapSize ≠ 0)
    (hheader : pos + sizeofPerfEventHeader ≤ r.fileDataSize) (hout : ¬ InWindow r info pos) :
    attempt r info = .again (info.shift r.pgSz) := by
  rw [attempt, h.pos, if_neg (Nat.not_lt.mpr hheader)]
  exact (if_neg hout).trans (if_pos (h.shift.mapped hsize))

/-- A record that fits behind the start of its page is returned after one move of the window at most. -/
theorem getPerfEvent_event (h : At r info pos) (hsize : r.mmapSize ≠ 0)
    (hheader : pos + sizeofPerfEventHeader ≤ r.fileDataSize)
    (hfits : pos % r.pgSz + max sizeofPerfEventHeader (sizeAt r pos) ≤ r.mmapSize) :
    ∃ info', getPerfEvent r 2 info = some (.event (load r.file.byte pos (sizeAt r pos)) info') ∧
      At r info' (pos + sizeAt r pos) := by
  have hnext {info : MmapInfo} (h : At r info pos) :
      At r { info with head := info.head + sizeAt r pos } (pos + sizeAt r pos) := by
    refine ⟨h.aligned, ?_⟩
    change info.offset + (info.head + sizeAt r pos) = _
    rw [← Nat.add_assoc, h.pos]
  by_cases hin : InWindow r info pos
  · refine ⟨_, ?_, hnext h⟩
    rw [getPerfEvent, attempt_event h hheader hin]
  · have hin' : InWindow r (info.shift r.pgSz) pos := by
      unfold InWindow
      rw [shift_head, h.mod]
      omega
    refine ⟨_, ?_, hnext h.shift⟩
    rw [getPerfEvent, attempt_again h hsize hheader hin]
    dsimp only
    rw [getPerfEvent, attempt_event h.shift hheader hin']

/-- A record that does not fit is tried for again and again. -/
theorem getPerfEvent_stuck (h : At r info pos) (hsize : r.mmapSize ≠ 0)
    (hheader : pos + sizeofPerfEventHeader ≤ r.fileDataSize)
    (hfits : ¬ pos % r.pgSz + max sizeofPerfEventHeader (sizeAt r pos) ≤ r.mmapSize) :
    getPerfEvent r tries info = none := by
  induction tries generalizing info with
  | zero => rfl
  | succ tries ih =>
    have hout : ¬ InWindow r info pos := by
      intro hin
      have hmod := h.mod
      have hle := Nat.mod_le info.head r.pgSz
      unfold InWindow at hin
      omega
    rw [getPerfEvent, attempt_again h hsize hheader hout]
    exact ih h.shift

theorem getPerfEvent_mono {tries' : Nat} {result : Attempt} (hle : tries ≤ tries')
    (h : getPerfEvent r tries info = some result) : getPerfEvent r tries' info = some result := by
  induction tries generalizing info tries' with
  | zero => cases h
  | succ tries ih =>
    obtain ⟨tries', rfl⟩ := Nat.exists_eq_succ_of_ne_zero (show tries' ≠ 0 by omega)
    rw [getPerfEvent] at h ⊢
    cases hattempt : attempt r info with
    | again info' =>
      rw [hattempt] at h
      exact ih (Nat.le_of_succ_le_succ hle) h
    | event _ _ | noMore _ | mmapFailed =>
      rw [hattempt] at h
      exact h

/-- A call that returns found a record that fits. -/
theorem getPerfEvent_returns {result : Attempt} (h : At r info pos) (hsize : r.mmapSize ≠ 0)
    (hheader : pos + sizeofPerfEventHeader ≤ r.fileDataSize) (hcall : getPerfEvent r tries info = some result) :
    pos % r.pgSz + max sizeofPerfEventHeader (sizeAt r pos) ≤ r.mmapSize ∧
      ∃ info', result = .event (load r.file.byte pos (sizeAt r pos)) info' ∧ At r info' (pos + sizeAt r pos) := by
  have hfits : pos % r.pgSz + max sizeofPerfEventHeader (sizeAt r pos) ≤ r.mmapSize := by
    by_contra hfits
    rw [getPerfEvent_stuck h hsize hheader hfits] at hcall
    cases hcall
  obtain ⟨info', hevent, hat⟩ := getPerfEvent_event h hsize hheader hfits
  refine ⟨hfits, info', ?_, hat⟩
  have hcall := getPerfEvent_mono (Nat.le_max_left tries 2) hcall
  rw [getPerfEvent_mono (Nat.le_max_right tries 2) hevent] at hcall
  exact (Option.some.inj hcall).symm

/-! ### All calls -/

/-- Where every header can be taken, two turns a call read the whole records. -/
theorem readEvents_whole (h : At r info pos) (hsize : r.mmapSize ≠ 0)
    (htakes : ∀ q, HeaderAt r pos q → q + sizeofPerfEventHeader ≤ r.fileDataSize → Takes r q) :
    ∃ events, WholeRecords r pos events ∧ ∃ calls, readEvents r 2 calls info = some events := by
  induction hn : r.fileDataSize - pos using Nat.strong_induction_on generalizing pos info with
  | _ n ih =>
    by_cases hheader : pos + sizeofPerfEventHeader ≤ r.fileDataSize
    · have hpos := htakes pos .start hheader
      obtain ⟨info', hcall, hat⟩ := getPerfEvent_event h hsize hheader hpos.fits
      have hrest : ∀ q, HeaderAt r (pos + sizeAt r pos) q → q + sizeofPerfEventHeader ≤ r.fileDataSize → Takes r q := by
        intro q hq
        apply htakes q
        induction hq with
        | start => exact .next .start hheader
        | next _ hq ih => exact .next ih hq
      have hlt : r.fileDataSize - (pos + sizeAt r pos) < n := by
        have hpos := hpos.nonempty
        unfold sizeofPerfEventHeader at hheader
        omega
      obtain ⟨events, hwhole, calls, hread⟩ := ih _ hlt hat hrest rfl
      refine ⟨_, .record hheader hpos.whole hwhole, calls + 1, ?_⟩
      rw [readEvents, hcall]
      dsimp only
      rw [hread]
      rfl
    · refine ⟨[], .noHeader (Nat.not_le.mp hheader), 1, ?_⟩
      rw [readEvents, getPerfEvent, attempt_noMore h (Nat.not_le.mp hheader)]

theorem nonempty_of_whole (h : WholeRecords r pos events) (hheader : pos + sizeofPerfEventHeader ≤ r.fileDataSize) :
    0 < sizeAt r pos := by
  apply Nat.pos_of_ne_zero
  intro hzero
  induction h with
  | noHeader hend => omega
  | cutShort _ hcut => omega
  | record _ _ _ ih =>
    rw [hzero] at ih
    exact ih hheader hzero

theorem headerAt_cases {q : Nat} (h : HeaderAt r pos q) :
    q = pos ∨ pos + sizeofPerfEventHeader ≤ r.fileDataSize ∧ HeaderAt r (pos + sizeAt r pos) q := by
  induction h with
  | start => exact Or.inl rfl
  | next _ hheader ih =>
    rcases ih with rfl | ⟨hfirst, hrest⟩
    · exact Or.inr ⟨hheader, .start⟩
    · exact Or.inr ⟨hfirst, .next hrest hheader⟩

/-- Calls that reach a header take the record there, and read on behind it. -/
theorem readEvents_takes (h : At r info pos) (hsize : r.mmapSize ≠ 0)
    (hheader : pos + sizeofPerfEventHeader ≤ r.fileDataSize) (hread : readEvents r tries calls info = some events) :
    pos % r.pgSz + max sizeofPerfEventHeader (sizeAt r pos) ≤ r.mmapSize ∧ ∃ calls' info' rest,
      At r info' (pos + sizeAt r pos) ∧ readEvents r tries calls' info' = some rest ∧
        events = load r.file.byte pos (sizeAt r pos) :: rest := by
  cases calls with
  | zero => cases hread
  | succ calls =>
    rw [readEvents] at hread
    cases hcall : getPerfEvent r tries info with
    | none =>
      rw [hcall] at hread
      cases hread
    | some result =>
      obtain ⟨hfits, info', rfl, hat⟩ := getPerfEvent_returns h hsize hheader hcall
      rw [hcall] at hread
      obtain ⟨rest, hrest, rfl⟩ := Option.map_eq_some_iff.mp hread
      exact ⟨hfits, calls, info', rest, hat, hrest, rfl⟩

/-- What was read as a whole could be taken at every header. -/
theorem takes_of_readEvents (h : At r info pos) (hsize : r.mmapSize ≠ 0) (hwhole : WholeRecords r pos events)
    (hread : readEvents r tries calls info = some events) :
    ∀ q, HeaderAt r pos q → q + sizeofPerfEventHeader ≤ r.fileDataSize → Takes r q := by
  induction hwhole generalizing info calls with
  | noHeader hend =>
    intro q hq hheader
    rcases headerAt_cases hq with rfl | ⟨hfirst, -⟩
    · omega
    · omega
  | @cutShort pos hheader hcut =>
    -- the record is returned though it is not all there, or the call does not return
    intro q _ _
    exfalso
    obtain ⟨-, _, _, rest, -, -, hcons⟩ := readEvents_takes h hsize hheader hread
    cases hcons
  | @record pos events hheader hall hrest ih =>
    obtain ⟨hfits, _, info', rest, hat, hread', hcons⟩ := readEvents_takes h hsize hheader hread
    cases hcons
    intro q hq hq'
    rcases headerAt_cases hq with rfl | ⟨-, hq⟩
    · exact ⟨nonempty_of_whole (.record hheader hall hrest) hheader, hall, hfits⟩
    · exact ih hat hread' q hq hq'

theorem Transparent.mmapSize (h : Transparent r start) : r.mmapSize ≠ 0 := by
  obtain ⟨info, hopen, -⟩ := h
  exact open_mmapSize hopen

theorem Transparent.takes (h : Transparent r start) :
    ∀ pos, HeaderAt r start pos → pos + sizeofPerfEventHeader ≤ r.fileDataSize → Takes r pos := by
  obtain ⟨info, hopen, events, hwhole, tries, calls, hread⟩ := h
  have hsize := open_mmapSize hopen
  obtain ⟨info', hopen', hat⟩ := open_eq start hsize
  rw [hopen] at hopen'
  cases hopen'
  exact takes_of_readEvents hat hsize hwhole hread

theorem transparent_of_takes (hsize : r.mmapSize ≠ 0)
    (htakes : ∀ pos, HeaderAt r start pos → pos + sizeofPerfEventHeader ≤ r.fileDataSize → Takes r pos) :
    Transparent r start := by
  obtain ⟨info, hopen, hat⟩ := open_eq start hsize
  obtain ⟨events, hwhole, calls, hread⟩ := readEvents_whole hat hsize htakes
  exact ⟨info, hopen, events, hwhole, 2, calls, hread⟩

/-- Reading through the window is reading the file exactly when there is a window, and each record is all there, not
empty, and fits behind the start of its page. -/
theorem windowed_reading_iff (file : File) (fileDataOffset fileDataSize pgSz windowSz mmapSize : Nat) :
    Transparent ⟨file, fileDataSize, pgSz, initialMmapSize windowSz mmapSize fileDataSize⟩ fileDataOffset ↔
      initialMmapSize windowSz mmapSize fileDataSize ≠ 0 ∧
      ∀ pos, HeaderAt ⟨file, fileDataSize, pgSz, initialMmapSize windowSz mmapSize fileDataSize⟩ fileDataOffset pos →
        pos + sizeofPerfEventHeader ≤ fileDataSize →
        Takes ⟨file, fileDataSize, pgSz, initialMmapSize windowSz mmapSize fileDataSize⟩ pos := by
  constructor
  · intro h
    exact ⟨h.mmapSize, h.takes⟩
  · rintro ⟨hsize, htakes⟩
    exact transparent_of_takes hsize htakes

/-- A file whose last header announces 24 bytes where 16 are left. -/
def cutShortFile : File := ⟨120, fun i => if i = 110 then 24 else 0⟩

theorem cutShort_never_ends : 4096 ∣ 32 * 1024 * 1024 ∧
    ¬Transparent ⟨cutShortFile, 120, 4096, initialMmapSize (32 * 1024 * 1024) 0 120⟩ 104 := by
  refine ⟨by decide, fun hread => ?_⟩
  have hlast := hread.takes 104 .start (by decide)
  exact absurd hlast.whole (by decide)

end Oprofile.Operf.WindowedReader
