import Oprofile.Library.ByteMem
import Oprofile.Library.Pipe

/-! Reassembling perf records from the sample pipe (`operf_counter.cpp`). -/
namespace Oprofile.Operf

open ByteMem Pipe

/-- `sizeof(perf_event_header)`: type (4), misc (2), size (2). -/
def sizeofPerfEventHeader : Nat := 8

/-- `header->size`, with `header` pointing at offset `h` of the buffer. -/
def headerSize (m : Bytes) (h : Nat) : Nat := (m (h + 6)).toNat + 2 ^ 8 * (m (h + 7)).toNat

inductive PipeStatus
  | ok
  | closed
  deriving DecidableEq

/-- One of the two read loops: `size` bytes are wanted at `ptr`, and after a short read the
pointer advances by `stride` bytes for each byte read. Nothing is returned when the loop makes
more than `fuel` calls. -/
def readLoop (stride : Nat) :
    Nat → Nat → Nat → Bytes → ReadEnd → Option (PipeStatus × Nat × Bytes × ReadEnd)
  | 0, _, _, _, _ => none
  | fuel + 1, ptr, size, m, p =>
    match read p size with
    | (.eintr, p) => readLoop stride fuel ptr size m p
    | (.fails, p) => some (.closed, ptr, m, p)
    | (.data [], p) => some (.closed, ptr, m, p)
    | (.data (b :: bs), p) =>
      let m := store m ptr (b :: bs)
      let numRead := (b :: bs).length
      if numRead ≠ size then readLoop stride fuel (ptr + stride * numRead) (size - numRead) m p
      else some (.ok, ptr, m, p)

/-- `_get_perf_event_from_pipe`. `header` is a `perf_event_header *`, so `header += num_read`
moves it by eight bytes for each byte read; `evt` is a `char *`. -/
def getPerfEventFromPipe (m : Bytes) (p : ReadEnd) : Option (PipeStatus × Bytes × ReadEnd) :=
  let m := store m 0 (List.replicate sizeofPerfEventHeader 0)
  match readLoop 8 p.fuel 0 sizeofPerfEventHeader m p with
  | none => none
  | some (.closed, _, m, p) => some (.closed, m, p)
  | some (.ok, header, m, p) =>
    if headerSize m header = sizeofPerfEventHeader then
      -- `goto again` with nothing left to read: the call delivers nothing.
      match readLoop 8 p.fuel header 0 m p with
      | none => none
      | some (rc, _, m, p) => some (rc, m, p)
    else if headerSize m header < sizeofPerfEventHeader then some (.ok, m, p)
    else
      match readLoop 1 p.fuel sizeofPerfEventHeader
          (headerSize m header - sizeofPerfEventHeader) m p with
      | none => none
      | some (rc, _, m, p) => some (rc, m, p)

/-- The events returned by repeated calls up to the first `OP_PIPE_CLOSED`; nothing when that
does not come within `n` calls. -/
def collectEvents : Nat → Bytes → ReadEnd → Option (List (List UInt8))
  | 0, _, _ => none
  | n + 1, m, p =>
    match getPerfEventFromPipe m p with
    | none => none
    | some (.closed, _, _) => some []
    | some (.ok, m, p) => (collectEvents n m p).map (load m 0 (headerSize m 0) :: ·)

/-- A perf record: its header gives its length, which is at least that of the header. -/
structure PerfRecord where
  bytes : List UInt8
  header_le : sizeofPerfEventHeader ≤ bytes.length
  size_eq : headerSize (fun i => bytes.getD i 0) 0 = bytes.length

/-- The records as they lie in the pipe. -/
def pipeBytes (rs : List PerfRecord) : List UInt8 := rs.flatMap PerfRecord.bytes

/-- No record is a header alone, and the header of each arrives in one piece. -/
def HeadersWhole : List PerfRecord → List Choice → Prop
  | [], _ => True
  | r :: rs, s =>
    r.bytes.length ≠ sizeofPerfEventHeader ∧ Whole sizeofPerfEventHeader s ∧
      HeadersWhole rs (scheduleAfter (r.bytes.length - sizeofPerfEventHeader)
        (scheduleAfter sizeofPerfEventHeader s))

/-- One call returns `r` and leaves the pipe right behind it. -/
def ReturnsRecord (m : Bytes) (r : PerfRecord) (rest : List UInt8) (s : List Choice) : Prop :=
  ∃ m' p', getPerfEventFromPipe m ⟨r.bytes ++ rest, s⟩ = some (.ok, m', p') ∧
    load m' 0 (headerSize m' 0) = r.bytes ∧ p'.bytes = rest

variable {m m' : Bytes} {p p' : ReadEnd} {s : List Choice} {fuel ptr h h' stride size : Nat}
  {rc : PipeStatus} {block rest : List UInt8} {r : PerfRecord}

/-! What one loop does. -/

theorem readLoop_eintr (hsize : size ≠ 0) :
    readLoop stride (fuel + 1) ptr size m ⟨block, .eintr :: s⟩ =
      readLoop stride fuel ptr size m ⟨block, s⟩ := by
  simp only [readLoop, read_eintr hsize]

/-- A delivery of everything that was asked for ends the loop. -/
theorem readLoop_done {q : ReadEnd} (hne : block ≠ [])
    (h : Pipe.read p block.length = (.data block, q)) :
    readLoop stride (fuel + 1) ptr block.length m p = some (.ok, ptr, store m ptr block, q) := by
  obtain ⟨b, bs, rfl⟩ := List.exists_cons_of_ne_nil hne
  rw [readLoop, h]
  exact if_neg (not_not_intro rfl)

/-- A short delivery moves the pointer by its stride. -/
theorem readLoop_short {k : Nat} (hk : k + 1 < size) (hlen : k + 1 ≤ block.length) :
    readLoop stride (fuel + 1) ptr size m ⟨block, .upTo k :: s⟩ =
      readLoop stride fuel (ptr + stride * (k + 1)) (size - (k + 1))
        (store m ptr (block.take (k + 1))) ⟨block.drop (k + 1), s⟩ := by
  have htake : (block.take (k + 1)).length = k + 1 := by
    rw [List.length_take]
    omega
  have hread := read_short (s := s) block hk
  obtain ⟨b, bs, hb⟩ := List.exists_cons_of_ne_nil
    (List.ne_nil_of_length_pos (by omega : 0 < (block.take (k + 1)).length))
  rw [hb] at hread htake ⊢
  simp only [readLoop, hread, htake]
  rw [if_pos (by omega)]

/-- A byte pointer collects the whole block, however it is split. -/
theorem readLoop_bytes (ptr : Nat) (rest : List UInt8) (hne : block ≠ []) (hf : .fails ∉ s) (hfuel : s.length < fuel) :
    ∃ h, readLoop 1 fuel ptr block.length m ⟨block ++ rest, s⟩ =
      some (.ok, h, store m ptr block, ⟨rest, scheduleAfter block.length s⟩) := by
  induction s generalizing fuel ptr block m with
  | nil =>
    obtain ⟨fuel, rfl⟩ := Nat.exists_eq_succ_of_ne_zero (Nat.pos_iff_ne_zero.mp hfuel)
    exact ⟨ptr, readLoop_done hne (read_unscheduled hne)⟩
  | cons c s ih =>
    obtain ⟨fuel, rfl⟩ : ∃ f, fuel = f + 1 := ⟨fuel - 1, by omega⟩
    rw [List.length_cons] at hfuel
    have hf' : .fails ∉ s := fun hm => hf (List.mem_cons_of_mem _ hm)
    cases c with
    | eintr =>
      obtain ⟨h, hh⟩ := ih (m := m) ptr hne hf' (Nat.lt_of_succ_lt_succ hfuel)
      exact ⟨h, (readLoop_eintr (mt List.length_eq_zero_iff.mp hne)).trans hh⟩
    | fails => exact (hf (List.mem_cons_self ..)).elim
    | upTo k =>
      by_cases hk : block.length ≤ k + 1
      · refine ⟨ptr, ?_⟩
        rw [scheduleAfter, if_pos hk]
        exact readLoop_done hne (read_whole hne hk)
      · -- A short read: the rest of the block goes right behind what has arrived.
        have hlt : k + 1 < block.length := Nat.lt_of_not_le hk
        have hdrop : (block.drop (k + 1)).length = block.length - (k + 1) := List.length_drop ..
        have hne' : block.drop (k + 1) ≠ [] := List.ne_nil_of_length_pos (by omega)
        obtain ⟨h, hh⟩ := ih (m := store m ptr (block.take (k + 1)))
          (ptr + (k + 1)) hne' hf' (Nat.lt_of_succ_lt_succ hfuel)
        have happ := store_append m ptr (block.take (k + 1)) (block.drop (k + 1))
        rw [List.length_take, Nat.min_eq_left (Nat.le_of_lt hlt), List.take_append_drop] at happ
        refine ⟨h, ?_⟩
        rw [scheduleAfter, if_neg hk, readLoop_short hlt (by rw [List.length_append]; omega),
          List.take_append_of_le_length (Nat.le_of_lt hlt),
          List.drop_append_of_le_length (Nat.le_of_lt hlt), Nat.one_mul, ← hdrop, hh, ← happ]

/-- A block that arrives in one piece is stored in place, whatever the pointer's type. -/
theorem readLoop_whole (stride ptr : Nat) (rest : List UInt8) (hne : block ≠ []) (hw : Whole block.length s) (hfuel : s.length < fuel) :
    readLoop stride fuel ptr block.length m ⟨block ++ rest, s⟩ =
      some (.ok, ptr, store m ptr block, ⟨rest, scheduleAfter block.length s⟩) := by
  induction s generalizing fuel with
  | nil =>
    obtain ⟨fuel, rfl⟩ := Nat.exists_eq_succ_of_ne_zero (Nat.pos_iff_ne_zero.mp hfuel)
    exact readLoop_done hne (read_unscheduled hne)
  | cons c s ih =>
    obtain ⟨fuel, rfl⟩ : ∃ f, fuel = f + 1 := ⟨fuel - 1, by omega⟩
    rw [List.length_cons] at hfuel
    cases c with
    | eintr =>
      rw [readLoop_eintr (mt List.length_eq_zero_iff.mp hne)]
      exact ih hw (Nat.lt_of_succ_lt_succ hfuel)
    | fails => exact hw.elim
    | upTo k =>
      have hk : block.length ≤ k + 1 := hw
      rw [scheduleAfter, if_pos hk]
      exact readLoop_done hne (read_whole hne hk)

/-- A block that does not arrive in one piece and meets no failure starts with a short read. -/
theorem readLoop_split (stride ptr : Nat) (hw : ¬ Whole size s) (hf : .fails ∉ s) (hsize : size ≠ 0)
    (hlen : size ≤ block.length) (hfuel : s.length < fuel) :
    ∃ fuel' k s', k + 1 < size ∧ readLoop stride fuel ptr size m ⟨block, s⟩ =
      readLoop stride fuel' (ptr + stride * (k + 1)) (size - (k + 1))
        (store m ptr (block.take (k + 1))) ⟨block.drop (k + 1), s'⟩ := by
  induction s generalizing fuel with
  | nil => exact (hw trivial).elim
  | cons c s ih =>
    obtain ⟨fuel, rfl⟩ : ∃ f, fuel = f + 1 := ⟨fuel - 1, by omega⟩
    rw [List.length_cons] at hfuel
    cases c with
    | eintr =>
      rw [readLoop_eintr hsize]
      exact ih hw (fun hm => hf (List.mem_cons_of_mem _ hm)) (Nat.lt_of_succ_lt_succ hfuel)
    | fails => exact (hf (List.mem_cons_self ..)).elim
    | upTo k =>
      have hk : k + 1 < size := Nat.lt_of_not_le hw
      exact ⟨fuel, k, s, hk, readLoop_short hk (by omega)⟩

/-- A loop that wants a single byte never moves its pointer and writes nothing else. -/
theorem readLoop_one (h : readLoop stride fuel ptr 1 m p = some (.ok, h', m', p')) :
    h' = ptr ∧ ∀ x, x ≠ ptr → m' x = m x := by
  induction fuel generalizing p with
  | zero => cases h
  | succ fuel ih =>
    rw [readLoop] at h
    split at h
    · exact ih h
    · cases h
    · cases h
    · rename_i b bs q hread
      have hbs : bs = [] := read_one hread
      subst hbs
      cases h
      exact ⟨rfl, fun x hx => store_byte_ne (by simp; omega)⟩

/-- At the end of the data a loop that wants something reports the pipe closed. -/
theorem readLoop_end (stride ptr : Nat) (hsize : size ≠ 0) (hfuel : s.length < fuel) :
    ∃ s', readLoop stride fuel ptr size m ⟨[], s⟩ = some (.closed, ptr, m, ⟨[], s'⟩) := by
  induction s generalizing fuel with
  | nil =>
    obtain ⟨fuel, rfl⟩ := Nat.exists_eq_succ_of_ne_zero (Nat.pos_iff_ne_zero.mp hfuel)
    exact ⟨[], by simp [readLoop, Pipe.read, hsize]⟩
  | cons c s ih =>
    obtain ⟨fuel, rfl⟩ : ∃ f, fuel = f + 1 := ⟨fuel - 1, by omega⟩
    rw [List.length_cons] at hfuel
    cases c with
    | eintr =>
      rw [readLoop_eintr hsize]
      exact ih (Nat.lt_of_succ_lt_succ hfuel)
    | fails => exact ⟨s, by simp [readLoop, Pipe.read, hsize]⟩
    | upTo k => exact ⟨s, by simp [readLoop, Pipe.read, hsize]⟩

/-- Nothing in front of the pointer is written. -/
theorem readLoop_frame (h : readLoop stride fuel ptr size m p = some (rc, h', m', p')) {x : Nat}
    (hx : x < ptr) : m' x = m x := by
  induction fuel generalizing ptr size m p with
  | zero => cases h
  | succ fuel ih =>
    rw [readLoop] at h
    split at h
    · exact ih h hx
    · cases h
      rfl
    · cases h
      rfl
    · rename_i b bs q _
      have hst : store m ptr (b :: bs) x = m x := store_byte_ne (Or.inl hx)
      simp only at h
      split at h
      · exact (ih h (by omega)).trans hst
      · cases h
        exact hst

/-! One call. -/

theorem headerSize_congr (h6 : m (h + 6) = m' (h + 6)) (h7 : m (h + 7) = m' (h + 7)) :
    headerSize m h = headerSize m' h := by
  simp only [headerSize, h6, h7]

theorem PerfRecord.header_length (r : PerfRecord) :
    (r.bytes.take sizeofPerfEventHeader).length = sizeofPerfEventHeader := by
  rw [List.length_take]
  exact Nat.min_eq_left r.header_le

/-- A buffer that starts with the record's header knows its length. -/
theorem PerfRecord.headerSize_eq (r : PerfRecord)
    (h : ∀ i, i < sizeofPerfEventHeader → m i = r.bytes.getD i 0) :
    headerSize m 0 = r.bytes.length := by
  rw [← r.size_eq]
  exact headerSize_congr (h 6 (by decide)) (h 7 (by decide))

theorem store_take_byte (block : List UInt8) {n i : Nat} (hi : i < n) (hn : n ≤ block.length) :
    store m 0 (block.take n) i = block.getD i 0 := by
  have hlt : i < (block.take n).length := by
    rw [List.length_take]
    omega
  have hs := store_byte (m := m) (a := 0) hlt
  rw [Nat.zero_add] at hs
  rw [hs, List.getElem_take, List.getD_eq_getElem?_getD, List.getElem?_eq_getElem (by omega),
    Option.getD_some]

/-- One call on a record that is more than a header and whose header arrives in one piece. -/
theorem getPerfEventFromPipe_record (m : Bytes) (rest : List UInt8) (hf : .fails ∉ s)
    (hlen : r.bytes.length ≠ sizeofPerfEventHeader) (hw : Whole sizeofPerfEventHeader s) :
    ∃ m', getPerfEventFromPipe m ⟨r.bytes ++ rest, s⟩ =
        some (.ok, m', ⟨rest, scheduleAfter (r.bytes.length - sizeofPerfEventHeader)
          (scheduleAfter sizeofPerfEventHeader s)⟩) ∧
      load m' 0 (headerSize m' 0) = r.bytes := by
  have hle := r.header_le
  have hhead := r.header_length
  have hbody : (r.bytes.drop sizeofPerfEventHeader).length =
      r.bytes.length - sizeofPerfEventHeader := List.length_drop ..
  have hsplit : r.bytes ++ rest = r.bytes.take sizeofPerfEventHeader ++
      (r.bytes.drop sizeofPerfEventHeader ++ rest) := by
    rw [← List.append_assoc, List.take_append_drop]
  generalize hm0 : store m 0 (List.replicate sizeofPerfEventHeader 0) = m0
  generalize hhd : r.bytes.take sizeofPerfEventHeader = hdr at *
  generalize hbd : r.bytes.drop sizeofPerfEventHeader = body at *
  have hne : hdr ≠ [] := List.ne_nil_of_length_pos (by rw [hhead]; decide)
  have hne' : body ≠ [] := List.ne_nil_of_length_pos (by omega)
  have hloop1 := readLoop_whole (m := m0) 8 0 (body ++ rest) hne (hhead ▸ hw)
    (lt_fuel (hdr ++ (body ++ rest)) s)
  have hsub : ∀ c, c ∈ scheduleAfter sizeofPerfEventHeader s → c ∈ s :=
    fun c hc => mem_of_mem_scheduleAfter hc
  obtain ⟨h, hloop2⟩ := readLoop_bytes (m := store m0 0 hdr) sizeofPerfEventHeader rest hne'
    (fun hm => hf (hsub _ hm)) (lt_fuel (body ++ rest) (scheduleAfter sizeofPerfEventHeader s))
  rw [hhead] at hloop1
  have hstore := store_append m0 0 hdr body
  have hbytes : hdr ++ body = r.bytes := by rw [← hhd, ← hbd, List.take_append_drop]
  rw [hhead, Nat.zero_add, hbytes] at hstore
  have hsz : headerSize (store m0 0 hdr) 0 = r.bytes.length := by
    apply r.headerSize_eq
    intro i hi
    rw [← hhd]
    exact store_take_byte r.bytes hi hle
  have hsz' : headerSize (store m0 0 r.bytes) 0 = r.bytes.length := by
    apply r.headerSize_eq
    intro i hi
    have hst := store_take_byte (m := m0) r.bytes (n := r.bytes.length) (i := i) (by omega)
      (Nat.le_refl _)
    rw [List.take_length] at hst
    exact hst
  refine ⟨store m0 0 r.bytes, ?_, ?_⟩
  · rw [hsplit]
    simp only [getPerfEventFromPipe, hm0, hloop1, hsz, if_neg hlen]
    rw [if_neg (by omega), ← hbody, hloop2, hstore]
  · rw [hsz']
    exact load_store m0 0 r.bytes

/-- At the end of the data a call reports the pipe closed. -/
theorem getPerfEventFromPipe_end (m : Bytes) (s : List Choice) :
    ∃ m' p', getPerfEventFromPipe m ⟨[], s⟩ = some (.closed, m', p') := by
  obtain ⟨s', hs⟩ := readLoop_end (m := store m 0 (List.replicate sizeofPerfEventHeader 0)) 8 0
    (by decide : sizeofPerfEventHeader ≠ 0) (lt_fuel [] s)
  exact ⟨store m 0 (List.replicate sizeofPerfEventHeader 0), ⟨[], s'⟩,
    by rw [getPerfEventFromPipe, hs]⟩

/-- A call that returns an event has seen a size other than the header's own. -/
theorem getPerfEventFromPipe_ok (h : getPerfEventFromPipe m p = some (.ok, m', p')) :
    ∃ header m₁ p₁,
      readLoop 8 p.fuel 0 sizeofPerfEventHeader
          (store m 0 (List.replicate sizeofPerfEventHeader 0)) p = some (.ok, header, m₁, p₁) ∧
        headerSize m₁ header ≠ sizeofPerfEventHeader ∧
        ∀ x, x < sizeofPerfEventHeader → m' x = m₁ x := by
  unfold getPerfEventFromPipe at h
  simp only at h
  split at h
  · cases h
  · cases h
  · rename_i header m₁ p₁ hloop
    refine ⟨header, m₁, p₁, hloop, ?_⟩
    split at h
    · -- The loop that wants nothing never succeeds.
      simp [ReadEnd.fuel, readLoop, Pipe.read] at h
    · rename_i hsz
      refine ⟨hsz, fun x hx => ?_⟩
      split at h
      · cases h
        rfl
      · split at h
        · cases h
        · rename_i rc _ m₂ p₂ hbody
          cases h
          exact readLoop_frame hbody hx

/-- A header alone sends the call back to the first loop with nothing to read. -/
theorem header_only_lost (hlen : r.bytes.length = sizeofPerfEventHeader)
    (hw : Whole sizeofPerfEventHeader s) : ¬ ReturnsRecord m r rest s := by
  rintro ⟨m', p', hcall, -, -⟩
  obtain ⟨header, m₁, p₁, hloop, hsz, -⟩ := getPerfEventFromPipe_ok hcall
  have hne : r.bytes ≠ [] := List.ne_nil_of_length_pos (by rw [hlen]; decide)
  generalize store m 0 (List.replicate sizeofPerfEventHeader 0) = m0 at *
  rw [← hlen, readLoop_whole _ _ _ hne (hlen ▸ hw) (lt_fuel _ s)] at hloop
  cases hloop
  refine hsz ((r.headerSize_eq fun i hi => ?_).trans hlen)
  have hst := store_take_byte (m := m0) r.bytes (n := r.bytes.length) (i := i) (by omega)
    (Nat.le_refl _)
  rw [List.take_length] at hst
  exact hst

/-- The size field of an event whose header was split. -/
theorem split_header_size (hw : ¬ Whole sizeofPerfEventHeader s) (hf : .fails ∉ s)
    (hlen : sizeofPerfEventHeader ≤ block.length)
    (h : getPerfEventFromPipe (fun i => if i = 62 then 8 else 0) ⟨block, s⟩ = some (.ok, m', p')) :
    headerSize m' 0 < sizeofPerfEventHeader := by
  obtain ⟨header, m₁, p₁, hloop, hsz, hframe⟩ := getPerfEventFromPipe_ok h
  obtain ⟨fuel, k, s', hk, hsplit⟩ := readLoop_split
    (m := store (fun i => if i = 62 then 8 else 0) 0 (List.replicate sizeofPerfEventHeader 0)) 8 0
    hw hf (by decide) hlen (lt_fuel block s)
  rw [hsplit, Nat.zero_add] at hloop
  have htake : (block.take (k + 1)).length = k + 1 := by
    rw [List.length_take]
    omega
  -- Behind the first piece the buffer is as the call found it, its first bytes zeroed.
  have hzero : ∀ x, k + 1 ≤ x → x < sizeofPerfEventHeader → m' x = 0 := by
    intro x hkx hx
    have hx8 : x < 8 := hx
    rw [hframe x hx, readLoop_frame hloop (by omega), store_byte_ne (by omega)]
    have hlt : x < (List.replicate sizeofPerfEventHeader (0 : UInt8)).length := by simpa using hx
    have hst := store_byte (m := fun i => if i = 62 then 8 else 0) (a := 0) hlt
    rw [Nat.zero_add] at hst
    rw [hst, List.getElem_replicate]
  have h7 : m' 7 = 0 := hzero 7 (by unfold sizeofPerfEventHeader at hk; omega) (by decide)
  by_cases hk6 : k + 1 ≤ 6
  · have h6 : m' 6 = 0 := hzero 6 hk6 (by decide)
    simp [headerSize, h6, h7, sizeofPerfEventHeader]
  · -- The last byte is read at offset 56, so the size is taken from offset 62.
    have hk' : k = 6 := by
      unfold sizeofPerfEventHeader at hk
      omega
    subst hk'
    obtain ⟨rfl, hother⟩ := readLoop_one hloop
    have hm : ∀ x, 57 ≤ x → m₁ x = if x = 62 then 8 else 0 := by
      intro x hx
      rw [hother x (by omega), store_byte_ne (by omega),
        store_byte_ne (by simp [sizeofPerfEventHeader]; omega)]
    refine (hsz ?_).elim
    simp [headerSize, hm, sizeofPerfEventHeader]

/-- A header split by the kernel is put together in the wrong place. -/
theorem split_header_lost (r : PerfRecord) (rest : List UInt8) (hw : ¬ Whole sizeofPerfEventHeader s) (hf : .fails ∉ s) :
    ∃ m, ¬ ReturnsRecord m r rest s := by
  refine ⟨fun i => if i = 62 then 8 else 0, ?_⟩
  rintro ⟨m', p', hcall, hload, -⟩
  have hsz := split_header_size hw hf (by rw [List.length_append]; have := r.header_le; omega) hcall
  have hlen := congrArg List.length hload
  rw [load_length] at hlen
  exact absurd r.header_le (by omega)

/-! Runs of calls. -/

/-- Records whose headers arrive whole come out one by one, then the pipe is closed. -/
theorem collectEvents_records {rs : List PerfRecord} (hf : .fails ∉ s) (hw : HeadersWhole rs s) :
    collectEvents (rs.length + 1) m ⟨pipeBytes rs, s⟩ = some (rs.map PerfRecord.bytes) := by
  induction rs generalizing m s with
  | nil =>
    obtain ⟨m', p', hcall⟩ := getPerfEventFromPipe_end m s
    simp [collectEvents, pipeBytes, hcall]
  | cons r rs ih =>
    obtain ⟨hlen, hhead, hrest⟩ := hw
    obtain ⟨m', hcall, hload⟩ :=
      getPerfEventFromPipe_record m (pipeBytes rs) hf hlen hhead
    have hrun := ih (m := m')
      (fun hm => hf (mem_of_mem_scheduleAfter (mem_of_mem_scheduleAfter hm))) hrest
    rw [List.length_cons, collectEvents, pipeBytes, List.flatMap_cons]
    rw [pipeBytes] at hcall hrun
    rw [hcall]
    simp only [hrun, hload, Option.map_some, List.map_cons]

/-- Records are reassembled in every run whose headers arrive whole and belong to more than a
header; a call delivers its record whatever the buffer holds exactly under that condition. -/
theorem pipe_records_reassembled (rs : List PerfRecord) (s : List Choice) (hf : .fails ∉ s) :
    (HeadersWhole rs s → ∀ m,
      collectEvents (rs.length + 1) m ⟨pipeBytes rs, s⟩ = some (rs.map PerfRecord.bytes)) ∧
    (∀ (r : PerfRecord) rest, (∀ m, ReturnsRecord m r rest s) ↔
      r.bytes.length ≠ sizeofPerfEventHeader ∧ Whole sizeofPerfEventHeader s) := by
  refine ⟨fun hw m => collectEvents_records hf hw, fun r rest => ⟨fun h => ?_, ?_⟩⟩
  · have hw : Whole sizeofPerfEventHeader s := by
      by_contra hw
      obtain ⟨m, hm⟩ := split_header_lost r rest hw hf
      exact hm (h m)
    exact ⟨fun hlen => header_only_lost hlen hw (h fun _ => 0), hw⟩
  · rintro ⟨hlen, hw⟩ m
    obtain ⟨m', hcall, hload⟩ := getPerfEventFromPipe_record m rest hf hlen hw
    exact ⟨m', _, hcall, hload, rfl⟩

/-- A record of a header and four bytes. -/
def smallRecord : PerfRecord where
  bytes := [9, 0, 0, 0, 2, 0, 12, 0, 1, 2, 3, 4]
  header_le := by decide
  size_eq := by decide

/-- A record that is a header alone. -/
def emptyRecord : PerfRecord where
  bytes := [9, 0, 0, 0, 2, 0, 8, 0]
  header_le := by decide
  size_eq := by decide

theorem pipe_records_reassembled_interrupted :
    collectEvents 3 (fun _ => 0)
        ⟨pipeBytes [smallRecord, smallRecord], [.eintr, .upTo 7, .upTo 1, .eintr, .upTo 0]⟩ =
      some [smallRecord.bytes, smallRecord.bytes] ∧
    ∀ m, ReturnsRecord m smallRecord [] [.eintr, .upTo 7] :=
  ⟨(pipe_records_reassembled [smallRecord, smallRecord]
      [.eintr, .upTo 7, .upTo 1, .eintr, .upTo 0] (by decide)).1
      ⟨by decide, by decide, by decide, by decide, trivial⟩ _,
    ((pipe_records_reassembled [] [.eintr, .upTo 7] (by decide)).2 smallRecord []).2
      ⟨by decide, by decide⟩⟩

/-- A record that is a header alone is taken for the end of the data, and a header that arrives
as three bytes and five is returned empty. -/
theorem pipe_records_lost :
    collectEvents 3 (fun _ => 0) ⟨pipeBytes [emptyRecord, smallRecord], []⟩ ≠
      some [emptyRecord.bytes, smallRecord.bytes] ∧
    collectEvents 2 (fun _ => 0) ⟨pipeBytes [smallRecord], [.upTo 2]⟩ ≠
      some [smallRecord.bytes] := by
  decide

end Oprofile.Operf
