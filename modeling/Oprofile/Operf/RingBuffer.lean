import Oprofile.Library.Output
import Oprofile.Library.Ring
import Mathlib.Tactic.Linarith

/-! Draining the kernel's ring buffers (`op_write_output`, `op_get_kernel_event_data`). -/
namespace Oprofile.Operf.Recording

open Output (Answer Unfailing)

/-- `op_write_output`: what is written, its length as an `int`, and the answers to the later calls. -/
def opWriteOutput (answers : List Answer) (buf : List UInt8) : Option (List UInt8 × Int32 × List Answer) :=
  (Output.writeAll answers buf).map fun r => (r.1, Int32.ofNat r.1.length, r.2)

/-- A `struct mmap_data` with the control page and the bytes behind it. -/
structure MmapData where
  dataHead : UInt64
  dataTail : UInt64
  data : Nat → UInt8
  mask : UInt64
  prev : UInt64

/-- The fields of the `operf_record` that recording changes, what is in its file, and `sample_reads`. -/
structure RecordFile where
  output : List UInt8
  totalBytesRecorded : UInt32
  sampleReads : Int32
  answers : List Answer

/-- `pr->add_to_total(op_write_output(out_fd, buf, size))` -/
def RecordFile.write (pr : RecordFile) (buf : List UInt8) : Option RecordFile :=
  (opWriteOutput pr.answers buf).map fun r =>
    { pr with
      output := pr.output ++ r.1
      totalBytesRecorded := pr.totalBytesRecorded + r.2.1.toUInt32
      answers := r.2.2 }

/-- `op_get_kernel_event_data`; nothing when it throws. -/
def opGetKernelEventData (md : MmapData) (pr : RecordFile) : Option (MmapData × RecordFile) :=
  let head := md.dataHead
  let old := md.prev
  if old = head then some (md, pr)
  else if (head - old).toInt64 < 0 then none
  else
    let pr := { pr with sampleReads := pr.sampleReads + 1 }
    let size := head - old
    let first : Option (UInt64 × RecordFile) :=
      if (old &&& md.mask) + size ≠ head &&& md.mask then
        let size := md.mask + 1 - (old &&& md.mask)
        (pr.write (Ring.segment md.data (old &&& md.mask).toNat size.toNat)).map fun pr => (old + size, pr)
      else some (old, pr)
    first.bind fun (old, pr) =>
      let size := head - old
      (pr.write (Ring.segment md.data (old &&& md.mask).toNat size.toNat)).map fun pr =>
        ({ md with prev := old + size, dataTail := old + size }, pr)

/-- `_prepare_to_record_one_fd`: the mask of a ring, from the `int` and the `unsigned int` of the globals. -/
def prepareMask (numMmapPages pagesize : UInt32) : UInt64 :=
  (numMmapPages * pagesize - 1).toUInt64

/-- A ring as `_prepare_to_record_one_fd` maps it and every drain leaves it. -/
structure Mapped (md : MmapData) : Prop where
  size : ∃ k, md.mask.toNat + 1 = 2 ^ k
  mask : md.mask.toNat < 2 ^ 32
  tail : md.dataTail = md.prev

variable {md : MmapData} {pr : RecordFile} {k : Nat}

/-- A ring just mapped, with whatever the kernel has put into it. -/
theorem mapped_prepared {numMmapPages pagesize : UInt32} {k : Nat} (hpages : 0 < k ∧ k ≤ 32)
    (hsize : numMmapPages.toNat * pagesize.toNat = 2 ^ k) (head : UInt64) (data : Nat → UInt8) :
    Mapped ⟨head, 0, data, prepareMask numMmapPages pagesize, 0⟩ := by
  have hmask : (prepareMask numMmapPages pagesize).toNat + 1 = 2 ^ k := by
    have hpow : 2 ^ k ≤ 2 ^ 32 := Nat.pow_le_pow_right (by decide) hpages.2
    have hpos : 0 < 2 ^ k := Nat.two_pow_pos k
    rw [prepareMask, UInt32.toNat_toUInt64, UInt32.toNat_sub, UInt32.toNat_mul, hsize, UInt32.toNat_one]
    omega
  exact ⟨⟨k, hmask⟩, by have := UInt32.toNat_lt (numMmapPages * pagesize - 1); exact this, rfl⟩

theorem write_ok (pr : RecordFile) (h : Unfailing pr.answers) (buf : List UInt8) :
    ∃ pr', pr.write buf = some pr' ∧ pr'.output = pr.output ++ buf ∧ Unfailing pr'.answers := by
  obtain ⟨rest, hwrite, hrest⟩ := Output.writeAll_exact h buf
  rw [RecordFile.write, opWriteOutput, hwrite]
  exact ⟨_, rfl, rfl, hrest⟩

/-- A masked position is the position modulo the size of the ring. -/
theorem toNat_and_mask {mask : UInt64} (hmask : mask.toNat + 1 = 2 ^ k) (p : UInt64) :
    (p &&& mask).toNat = p.toNat % (mask.toNat + 1) := by
  have hm : mask.toNat = 2 ^ k - 1 := by omega
  rw [UInt64.toNat_and, hm, Nat.and_two_pow_sub_one_eq_mod, ← hm, hmask]

/-- What a call with `0 ≤ head - prev ≤ mask + 1` leaves behind. -/
structure Drained (md : MmapData) (pr : RecordFile) (md' : MmapData) (pr' : RecordFile) : Prop where
  prev : md'.prev = md.dataHead
  tail : md'.dataTail = md.dataHead
  mask : md'.mask = md.mask
  output : pr'.output = pr.output ++
    Ring.around md.data (md.mask.toNat + 1) md.prev.toNat (md.dataHead.toNat - md.prev.toNat)
  answers : Unfailing pr'.answers

section Drain

variable (hmask : md.mask.toNat + 1 = 2 ^ k) (hle : md.prev.toNat ≤ md.dataHead.toNat)
  (hfit : md.dataHead.toNat - md.prev.toNat ≤ md.mask.toNat + 1)
  (hsmall : md.mask.toNat < 2 ^ 32)

include hle in
theorem toNat_size : (md.dataHead - md.prev).toNat = md.dataHead.toNat - md.prev.toNat :=
  UInt64.toNat_sub_of_le _ _ hle

include hmask hle in
theorem toNat_position_add :
    ((md.prev &&& md.mask) + (md.dataHead - md.prev)).toNat =
      md.prev.toNat % (md.mask.toNat + 1) + (md.dataHead.toNat - md.prev.toNat) := by
  have hhead := md.dataHead.toNat_lt
  have hposition := Nat.mod_le md.prev.toNat (md.mask.toNat + 1)
  rw [UInt64.toNat_add, toNat_and_mask hmask, toNat_size hle, Nat.mod_eq_of_lt (by omega)]

include hmask hle in
/-- The masked positions tell whether the bytes reach the end of the ring, the full ring included. -/
theorem wraps_iff :
    (md.prev &&& md.mask) + (md.dataHead - md.prev) ≠ md.dataHead &&& md.mask ↔
      md.mask.toNat + 1 ≤ md.prev.toNat % (md.mask.toNat + 1) + (md.dataHead.toNat - md.prev.toNat) := by
  have hhead : md.dataHead.toNat % (md.mask.toNat + 1) =
      (md.prev.toNat % (md.mask.toNat + 1) + (md.dataHead.toNat - md.prev.toNat)) % (md.mask.toNat + 1) := by
    rw [Nat.mod_add_mod]
    congr 1
    omega
  rw [ne_eq, ← UInt64.toNat_inj, toNat_position_add hmask hle, toNat_and_mask hmask, hhead]
  constructor
  · intro hne
    by_contra hlt
    exact hne (Nat.mod_eq_of_lt (by omega)).symm
  · intro hge heq
    have hlt : (md.prev.toNat % (md.mask.toNat + 1) + (md.dataHead.toNat - md.prev.toNat)) % (md.mask.toNat + 1) <
        md.mask.toNat + 1 := Nat.mod_lt _ (Nat.succ_pos _)
    omega

include hle hfit hsmall in
/-- A ring is too small for the difference to look negative. -/
theorem diff_nonneg : ¬ (md.dataHead - md.prev).toInt64 < 0 := by
  have hint : (md.dataHead - md.prev).toInt64.toInt = (md.dataHead.toNat - md.prev.toNat : Nat) := by
    rw [← toNat_size hle]
    apply BitVec.toInt_eq_toNat_of_lt
    change 2 * (md.dataHead - md.prev).toNat < 2 ^ 64
    rw [toNat_size hle]
    omega
  rw [Int64.lt_iff_toInt_lt, hint]
  exact Int.not_lt.mpr (Int.natCast_nonneg _)

include hmask hle in
/-- Where the first piece ends when the bytes reach the end of the ring. -/
theorem toNat_first_piece
    (hwrap : md.mask.toNat + 1 ≤ md.prev.toNat % (md.mask.toNat + 1) + (md.dataHead.toNat - md.prev.toNat)) :
    (md.mask + 1 - (md.prev &&& md.mask)).toNat = md.mask.toNat + 1 - md.prev.toNat % (md.mask.toNat + 1) ∧
      (md.prev + (md.mask + 1 - (md.prev &&& md.mask))).toNat =
        md.prev.toNat + (md.mask.toNat + 1 - md.prev.toNat % (md.mask.toNat + 1)) := by
  have hhead := md.dataHead.toNat_lt
  have hposition := Nat.mod_le md.prev.toNat (md.mask.toNat + 1)
  have hmasked : md.prev.toNat % (md.mask.toNat + 1) < md.mask.toNat + 1 := Nat.mod_lt _ (Nat.succ_pos _)
  have hsize : (md.mask + 1).toNat = md.mask.toNat + 1 := by
    rw [UInt64.toNat_add, UInt64.toNat_one, Nat.mod_eq_of_lt (by omega)]
  have hpiece : (md.mask + 1 - (md.prev &&& md.mask)).toNat =
      md.mask.toNat + 1 - md.prev.toNat % (md.mask.toNat + 1) := by
    rw [UInt64.toNat_sub_of_le, hsize, toNat_and_mask hmask]
    rw [UInt64.le_iff_toNat_le, hsize, toNat_and_mask hmask]
    omega
  refine ⟨hpiece, ?_⟩
  rw [UInt64.toNat_add, hpiece, Nat.mod_eq_of_lt (by omega)]

variable (md) in
include hle hfit in
theorem drain_once (hmapped : Mapped md) (h : Unfailing pr.answers) :
    ∃ md' pr', opGetKernelEventData md pr = some (md', pr') ∧ Drained md pr md' pr' := by
  obtain ⟨⟨k, hmask⟩, hsmall, htail⟩ := hmapped
  unfold opGetKernelEventData
  by_cases heq : md.prev = md.dataHead
  · refine ⟨md, pr, if_pos heq, heq, htail.trans heq, rfl, ?_, h⟩
    simp [heq, Ring.around]
  have hend (p : UInt64) : p + (md.dataHead - p) = md.dataHead := by
    rw [UInt64.add_comm, UInt64.sub_add_cancel]
  simp only [if_neg heq, if_neg (diff_nonneg hle hfit hsmall)]
  by_cases hwrap : (md.prev &&& md.mask) + (md.dataHead - md.prev) ≠ md.dataHead &&& md.mask
  · rw [if_pos hwrap]
    rw [wraps_iff hmask hle] at hwrap
    obtain ⟨hpiece, hold⟩ := toNat_first_piece hmask hle hwrap
    have hmasked : md.prev.toNat % (md.mask.toNat + 1) < md.mask.toNat + 1 := Nat.mod_lt _ (Nat.succ_pos _)
    obtain ⟨pr₁, hwrite₁, hout₁, hans₁⟩ := write_ok { pr with sampleReads := pr.sampleReads + 1 } h
      (Ring.segment md.data (md.prev &&& md.mask).toNat (md.mask + 1 - (md.prev &&& md.mask)).toNat)
    rw [hwrite₁, Option.map_some, Option.bind_some]
    generalize md.prev + (md.mask + 1 - (md.prev &&& md.mask)) = old at hold ⊢
    have hstart : (old &&& md.mask).toNat = 0 := by
      rw [toNat_and_mask hmask, hold]
      exact Ring.end_mod (Nat.succ_pos _)
    have hrest : (md.dataHead - old).toNat =
        md.dataHead.toNat - md.prev.toNat - (md.mask.toNat + 1 - md.prev.toNat % (md.mask.toNat + 1)) := by
      rw [UInt64.toNat_sub_of_le _ _ (UInt64.le_iff_toNat_le.mpr (by omega)), hold]
      omega
    obtain ⟨pr₂, hwrite₂, hout₂, hans₂⟩ := write_ok pr₁ hans₁
      (Ring.segment md.data (old &&& md.mask).toNat (md.dataHead - old).toNat)
    simp only [hwrite₂, Option.map_some]
    refine ⟨_, _, rfl, hend _, hend _, rfl, ?_, hans₂⟩
    rw [hout₂, hout₁, List.append_assoc, Ring.around_split (Nat.succ_pos _) hwrap hfit, hpiece, hrest, hstart,
      toNat_and_mask hmask]
  · rw [if_neg hwrap, Option.bind_some]
    obtain ⟨pr', hwrite, hout, hans⟩ := write_ok { pr with sampleReads := pr.sampleReads + 1 } h
      (Ring.segment md.data (md.prev &&& md.mask).toNat (md.dataHead - md.prev).toNat)
    rw [hwrite]
    refine ⟨_, _, rfl, hend _, hend _, rfl, ?_, hans⟩
    rw [wraps_iff hmask hle] at hwrap
    rw [hout, toNat_and_mask hmask, toNat_size hle, Ring.around_straight (by omega)]

end Drain

/-- A drained ring is a mapped one again, whatever the kernel publishes next. -/
theorem Drained.mapped {md' : MmapData} {pr' : RecordFile} (h : Drained md pr md' pr') (hmapped : Mapped md) :
    Mapped md' :=
  ⟨by rw [h.mask]; exact hmapped.size, by rw [h.mask]; exact hmapped.mask, h.tail.trans h.prev.symm⟩

theorem Mapped.published (h : Mapped md) (head : UInt64) (data : Nat → UInt8) :
    Mapped { md with dataHead := head, data := data } :=
  ⟨h.size, h.mask, h.tail⟩

/-! ### A sequence of drains -/

/-- What a reader finds when it comes: the head, and the bytes of the ring. -/
abbrev Published := UInt64 × (Nat → UInt8)

/-- `op_get_kernel_event_data`, once for each state in which it finds the ring. -/
def drains : List Published → MmapData → RecordFile → Option (MmapData × RecordFile)
  | [], md, pr => some (md, pr)
  | (head, data) :: rest, md, pr =>
    (opGetKernelEventData { md with dataHead := head, data := data } pr).bind fun r => drains rest r.1 r.2

/-- The head of the last visit. -/
def lastHead : UInt64 → List Published → UInt64
  | prev, [] => prev
  | _, (head, _) :: rest => lastHead head rest

/-- The kernel writes a stream of bytes into a ring of some size and never over what was not read yet. -/
def Publishes (stream : Nat → UInt8) (size : Nat) : UInt64 → List Published → Prop
  | _, [] => True
  | prev, (head, data) :: rest =>
    prev.toNat ≤ head.toNat ∧ head.toNat - prev.toNat ≤ size ∧
      (∀ q, prev.toNat ≤ q → q < head.toNat → data (q % size) = stream q) ∧ Publishes stream size head rest

theorem prev_le_lastHead {stream : Nat → UInt8} {size : Nat} {prev : UInt64} {found : List Published}
    (h : Publishes stream size prev found) : prev.toNat ≤ (lastHead prev found).toNat := by
  induction found generalizing prev with
  | nil => exact Nat.le_refl _
  | cons f rest ih =>
    obtain ⟨hle, -, -, hrest⟩ := h
    exact Nat.le_trans hle (ih hrest)

/-- The stream is written from where the reader stood to the last head, without loss or repetition. -/
theorem drains_stream {stream : Nat → UInt8} {found : List Published} (hmapped : Mapped md)
    (h : Unfailing pr.answers) (hfound : Publishes stream (md.mask.toNat + 1) md.prev found) :
    ∃ md' pr', drains found md pr = some (md', pr') ∧ md'.prev = lastHead md.prev found ∧
      md'.dataTail = lastHead md.prev found ∧
      pr'.output = pr.output ++
        Ring.segment stream md.prev.toNat ((lastHead md.prev found).toNat - md.prev.toNat) := by
  induction found generalizing md pr with
  | nil =>
    refine ⟨md, pr, rfl, rfl, hmapped.tail, ?_⟩
    simp [lastHead, Ring.segment]
  | cons f rest ih =>
    obtain ⟨head, data⟩ := f
    obtain ⟨hle, hfit, hstream, hrest⟩ := hfound
    obtain ⟨md₁, pr₁, hdrain, hone⟩ :=
      drain_once { md with dataHead := head, data := data } hle hfit (hmapped.published head data) h
    have hprev : md₁.prev = head := hone.prev
    have hmask₁ : md₁.mask = md.mask := hone.mask
    obtain ⟨md', pr', hdrains, hlast, htail', hout⟩ := ih (hone.mapped (hmapped.published head data))
      hone.answers (by rw [hmask₁, hprev]; exact hrest)
    rw [hprev] at hlast htail' hout
    refine ⟨md', pr', ?_, hlast, htail', ?_⟩
    · rw [drains, hdrain, Option.bind_some, hdrains]
    · have hfrom := prev_le_lastHead hrest
      have hsum : (lastHead head rest).toNat - md.prev.toNat =
          (head.toNat - md.prev.toNat) + ((lastHead head rest).toNat - head.toNat) := by omega
      have hto : md.prev.toNat + (head.toNat - md.prev.toNat) = head.toNat := by omega
      have hread := Ring.around_stream (n := head.toNat - md.prev.toNat) (fun q hq hlt => hstream q hq (by omega))
      rw [hout, hone.output, List.append_assoc, hread, lastHead, hsum, Ring.segment_append, hto]

/-- One call writes the bytes between `prev` and `head`, and any number of calls the stream of the kernel. -/
theorem ring_drained (md : MmapData) (pr : RecordFile) (hmapped : Mapped md) (h : Unfailing pr.answers) :
    (md.prev.toNat ≤ md.dataHead.toNat → md.dataHead.toNat - md.prev.toNat ≤ md.mask.toNat + 1 →
      ∃ md' pr', opGetKernelEventData md pr = some (md', pr') ∧ Drained md pr md' pr' ∧ Mapped md') ∧
    ∀ (stream : Nat → UInt8) (found : List Published), Publishes stream (md.mask.toNat + 1) md.prev found →
      ∃ md' pr', drains found md pr = some (md', pr') ∧ md'.prev = lastHead md.prev found ∧
        md'.dataTail = lastHead md.prev found ∧
        pr'.output = pr.output ++
          Ring.segment stream md.prev.toNat ((lastHead md.prev found).toNat - md.prev.toNat) := by
  refine ⟨fun hle hfit => ?_, fun _ _ hfound => drains_stream hmapped h hfound⟩
  obtain ⟨md', pr', hdrain, hone⟩ := drain_once md hle hfit hmapped h
  exact ⟨md', pr', hdrain, hone, hone.mapped hmapped⟩

/-- A ring of eight bytes with a record across its end. -/
def wrappedRing : MmapData := ⟨10, 5, fun i => UInt8.ofNat i, 7, 5⟩

def shortWrites : RecordFile := ⟨[], 0, 0, [.takes 2, .eintr, .takes 0]⟩

theorem ring_drained_wrapped :
    Mapped wrappedRing ∧ Unfailing shortWrites.answers ∧
      (∃ md' pr', opGetKernelEventData wrappedRing shortWrites = some (md', pr') ∧
        Drained wrappedRing shortWrites md' pr' ∧ Mapped md') ∧
      Ring.around wrappedRing.data 8 5 5 = [5, 6, 7, 0, 1] := by
  have hanswers : Unfailing shortWrites.answers := by
    unfold Unfailing
    decide
  have hmapped : Mapped wrappedRing := ⟨⟨3, rfl⟩, by decide, rfl⟩
  exact ⟨hmapped, hanswers, (ring_drained wrappedRing shortWrites hmapped hanswers).1 (by decide) (by decide), rfl⟩

end Oprofile.Operf.Recording
