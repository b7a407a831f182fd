import Oprofile.JitDump.MappedDump
import Mathlib.Data.List.TakeWhile

/-! Whether the loop over the records ends, and whether it stays inside the file. -/
namespace Oprofile.JitDump

open Records

/-! Computations that read. -/

section

variable {α β : Type} {m : Mapping} {x : Reading α} {f : α → Reading β} {a : α}

/-- The blocks lie in the file. -/
def Mapping.Within (m : Mapping) (reads : List (Nat × Nat)) : Prop :=
  ∀ r ∈ reads, r.1 + r.2 ≤ m.file.length

@[simp] theorem pure_value (a : α) : (pure a : Reading α).value = some a := rfl

@[simp] theorem pure_reads (a : α) : (pure a : Reading α).reads = [] := rfl

theorem bind_some (h : x.value = some a) : x >>= f = ⟨(f a).value, x.reads ++ (f a).reads⟩ := by
  change Reading.bind x f = _
  rw [Reading.bind, h]

theorem bind_none (h : x.value = none) : x >>= f = ⟨none, x.reads⟩ := by
  change Reading.bind x f = _
  rw [Reading.bind, h]

theorem value_bind {b : β} (h : (x >>= f).value = some b) : ∃ a, x.value = some a ∧ (f a).value = some b := by
  cases hv : x.value with
  | none =>
    rw [bind_none hv] at h
    cases h
  | some a =>
    rw [bind_some hv] at h
    exact ⟨a, rfl, h⟩

theorem within_append {as bs : List (Nat × Nat)} : m.Within (as ++ bs) ↔ m.Within as ∧ m.Within bs :=
  List.forall_mem_append

theorem within_single {ptr n : Nat} : m.Within [(ptr, n)] ↔ ptr + n ≤ m.file.length :=
  List.forall_mem_singleton

/-- A fault comes from a read outside of the file. -/
def Reading.Faults (m : Mapping) (x : Reading α) : Prop := x.value = none → ¬m.Within x.reads

theorem faults_pure (a : α) : (pure a : Reading α).Faults m := fun h => absurd h (Option.some_ne_none a)

theorem Reading.Faults.bind (hx : x.Faults m) (hf : ∀ a, (f a).Faults m) : (x >>= f).Faults m := by
  intro h
  cases hv : x.value with
  | none =>
    rw [bind_none hv]
    exact hx hv
  | some a =>
    rw [bind_some hv] at h ⊢
    intro hwithin
    exact hf a h (within_append.mp hwithin).2

theorem faults_struct (c : Format α) (ptr : Nat) : (m.readStruct c ptr).Faults m := by
  intro h hwithin
  have hle := within_single.mp hwithin
  rw [Mapping.readStruct, structAt, if_pos] at h
  · cases h
  · rw [Mapping.memory, List.length_append]
    omega

theorem within_bind : m.Within (x >>= f).reads ↔
    m.Within x.reads ∧ ∀ a, x.value = some a → m.Within (f a).reads := by
  cases hv : x.value with
  | none =>
    rw [bind_none hv]
    exact ⟨fun h => ⟨h, fun a ha => by cases ha⟩, fun h => h.1⟩
  | some a =>
    rw [bind_some hv]
    refine within_append.trans (and_congr_right fun _ => ⟨?_, fun h => h a rfl⟩)
    intro h b hb
    obtain rfl := Option.some.inj hb
    exact h

theorem length_takeWhile_lt {p : UInt8 → Bool} {bs : List UInt8} {b : UInt8} (hb : b ∈ bs) (hp : p b = false) :
    (bs.takeWhile p).length < bs.length := by
  apply Nat.lt_of_le_of_ne (List.takeWhile_sublist p).length_le
  intro heq
  have hall := (List.takeWhile_sublist p).eq_of_length heq
  rw [← hall] at hb
  rw [List.mem_takeWhile_imp hb] at hp
  cases hp

theorem takeWhile_append_of_mem {p : UInt8 → Bool} {as bs : List UInt8} {a : UInt8} (ha : a ∈ as) (hp : p a = false) :
    (as ++ bs).takeWhile p = as.takeWhile p := by
  induction as with
  | nil => cases ha
  | cons x xs ih =>
    rw [List.cons_append, List.takeWhile_cons, List.takeWhile_cons]
    split_ifs with hx
    · rcases List.mem_cons.mp ha with rfl | ha
      · rw [hp] at hx
        cases hx
      · rw [ih ha]
    · rfl

/-- The string at the place has its zero in the file. -/
theorem readString_within {ptr : Nat} :
    m.Within (m.readString ptr).reads ↔ 0 ∈ m.file.drop ptr := by
  rw [Mapping.readString, within_single, Mapping.memory]
  constructor
  · intro hle
    have hptr : ptr ≤ m.file.length := by omega
    rw [List.drop_append_of_le_length hptr] at hle
    by_contra hnone
    have hall : ∀ a ∈ m.file.drop ptr, decide (a ≠ 0) = true := by
      intro a ha
      exact decide_eq_true fun h0 => hnone (h0 ▸ ha)
    rw [List.takeWhile_append_of_pos hall, List.length_append, List.length_drop] at hle
    omega
  · intro hmem
    have hptr : ptr ≤ m.file.length := by
      by_contra hout
      rw [List.drop_eq_nil_of_le (by omega)] at hmem
      cases hmem
    have hlt := length_takeWhile_lt hmem (p := fun a => decide (a ≠ 0)) (by decide)
    rw [List.length_drop] at hlt
    rw [List.drop_append_of_le_length hptr, takeWhile_append_of_mem hmem (by decide)]
    omega

theorem readString_value {ptr : Nat} (hmem : 0 ∈ m.file.drop ptr) :
    (m.readString ptr).value = some ((m.file.drop ptr).takeWhile (· ≠ 0)) := by
  have hptr : ptr ≤ m.file.length := by
    by_contra hout
    rw [List.drop_eq_nil_of_le (by omega)] at hmem
    cases hmem
  rw [Mapping.readString, stringAt, Mapping.memory, List.drop_append_of_le_length hptr,
    if_pos (List.mem_append_left _ hmem), takeWhile_append_of_mem hmem (by decide)]

theorem faults_string (ptr : Nat) : (m.readString ptr).Faults m := by
  intro h hwithin
  rw [readString_value (readString_within.mp hwithin)] at h
  cases h

theorem readStruct_value {c : Format α} (hc : c.Local) {ptr : Nat} (hle : ptr + c.width ≤ m.file.length) :
    (m.readStruct c ptr).value = some (c.decode (m.file.drop ptr)) := by
  have hmemory : ptr + c.width ≤ m.memory.length := by
    rw [Mapping.memory, List.length_append]
    omega
  rw [Mapping.readStruct, structAt, if_pos hmemory, Mapping.memory, List.drop_append_of_le_length (by omega), hc]
  rw [List.length_drop]
  omega

end

/-! The conditions on a record, in terms of its bytes. -/

/-- What the `switch` reads of the record lies in the file. -/
structure RecordFits (file : List UInt8) (ptr : Nat) (rec' : JrPrefix) : Prop where
  load : rec'.id = jitCodeLoad → 0 ∈ file.drop (ptr + loadFormat.width)
  unload : rec'.id = jitCodeUnload → ptr + unloadFormat.width ≤ file.length
  debugInfo : rec'.id = jitCodeDebugInfo → rec'.totalSize ≠ 0 →
    ptr + (prefixFormat.pair u64).width ≤ file.length

def loadAt (file : List UInt8) (ptr : Nat) : JrCodeLoad := loadFormat.decode (file.drop ptr)

/-- The length of the symbol name of a load record. -/
def nameLength (file : List UInt8) (ptr : Nat) : Nat :=
  ((file.drop (ptr + loadFormat.width)).takeWhile (· ≠ 0)).length

/-- Where the code of a load record starts. -/
def codeStart (file : List UInt8) (ptr : Nat) : Nat := ptr + loadFormat.width + nameLength file ptr + 1

/-- The file names of a table end in the file. -/
def TableFits (file : List UInt8) : Nat → Nat → Prop
  | 0, _ => True
  | n + 1, data =>
    0 ∈ file.drop (data + u64.width + u32.width) ∧
      TableFits file n (data + u64.width + u32.width +
        ((file.drop (data + u64.width + u32.width)).takeWhile (· ≠ 0)).length + 1)

/-- `nr_entry` of a debug record. -/
def entryCount (file : List UInt8) (ptr : Nat) : Nat := (debugHeadFormat.decode (file.drop ptr)).2.2.2.toNat

/-- The code of a load record and the table of a debug record lie in the file. -/
structure ContentFits (file : List UInt8) (ptr : Nat) (rec' : JrPrefix) : Prop where
  load : rec'.id = jitCodeLoad → (loadAt file ptr).codeAddr ≠ 0 →
    0 ≤ (loadAt file ptr).codeSize.toInt32.toInt ∧
      codeStart file ptr + (loadAt file ptr).codeSize.toInt32.toInt ≤ file.length
  debugInfo : rec'.id = jitCodeDebugInfo → rec'.totalSize ≠ 0 →
    ptr + debugHeadFormat.width ≤ file.length ∧
      TableFits file (entryCount file ptr) (ptr + debugFormat.width)

/-- The code and its padding do not end where a load record of this size does. -/
def SizeMismatch (file : List UInt8) (ptr : Nat) (size : Int32) : Prop :=
  (loadAt file ptr).codeAddr ≠ 0 ∧
    (codeStart file ptr : Int) + (loadAt file ptr).codeSize.toInt32.toInt +
      (expectedPadding (nameLength file ptr) (loadAt file ptr).codeSize.toInt32).toNat ≠ ptr + size.toInt

instance (file : List UInt8) (ptr : Nat) (size : Int32) : Decidable (SizeMismatch file ptr size) :=
  inferInstanceAs (Decidable (_ ∧ _))

/-- A load record whose sizes do not agree, an unknown record, or a debug record of no size. -/
def Rejected (file : List UInt8) (ptr : Nat) (rec' : JrPrefix) : Prop :=
  if rec'.id = jitCodeLoad then SizeMismatch file ptr rec'.totalSize.toInt32
  else if rec'.id = jitCodeUnload ∨ rec'.id = jitCodeClose then False
  else if rec'.id = jitCodeDebugInfo then rec'.totalSize = 0
  else True

/-! What one record does. -/

/-- The code of the entry lies in the file, if there is any. -/
def JitEntry.Within (file : List UInt8) (e : JitEntry) : Prop :=
  ∀ code, e.code = some code → 0 ≤ e.codeSize.toInt ∧ code + e.codeSize.toInt ≤ file.length

/-- Code and tables that are kept lie in the file. -/
structure Parsed.Within (m : Mapping) (st : Parsed) : Prop where
  entries : ∀ e ∈ st.entries, e.Within m.file
  debugLines : ∀ line ∈ st.debugLines, m.Within (line.read m).reads

section

variable {m : Mapping} {endTime : UInt64} {ptr : Nat} {rec' : JrPrefix} {st : Parsed}

theorem prefixFormat_local : prefixFormat.Local := (u32_local.pair u32_local).map _ _ _

theorem loadFormat_local : loadFormat.Local :=
  (prefixFormat_local.pair (u64_local.pair (u64_local.pair (u64_local.pair (u32_local.pair u32_local))))).map _ _ _

theorem unloadFormat_local : unloadFormat.Local := (prefixFormat_local.pair (u64_local.pair u64_local)).map _ _ _

theorem debugHeadFormat_local : debugHeadFormat.Local :=
  prefixFormat_local.pair (u64_local.pair (u64_local.pair u32_local))

/-- A string that ends in the file starts in it. -/
theorem lt_of_mem_drop {file : List UInt8} {ptr : Nat} (h : 0 ∈ file.drop ptr) : ptr < file.length := by
  by_contra hout
  rw [List.drop_eq_nil_of_le (Nat.le_of_not_lt hout)] at h
  cases h

/-- The entry for a load record. -/
def loadEntry (file : List UInt8) (ptr : Nat) (endTime : UInt64) : JitEntry where
  vma := (loadAt file ptr).vma
  code := if (loadAt file ptr).codeAddr ≠ 0 then some (codeStart file ptr) else none
  codeSize := (loadAt file ptr).codeSize.toInt32
  symbolName := ptr + loadFormat.width
  lifeStart := (loadAt file ptr).timestamp
  lifeEnd := endTime

/-- `parse_code_load` of a record whose name ends in the file. -/
theorem readCodeLoad_fits {size : Int32} (h : 0 ∈ m.file.drop (ptr + loadFormat.width)) :
    (readCodeLoad m ptr size endTime).value =
        some (if SizeMismatch m.file ptr size then .fail else .ok, loadEntry m.file ptr endTime) ∧
      m.Within (readCodeLoad m ptr size endTime).reads := by
  have hle : ptr + loadFormat.width ≤ m.file.length := Nat.le_of_lt (lt_of_mem_drop h)
  have hreads : m.Within ((m.readStruct loadFormat ptr).reads ++ (m.readString (ptr + loadFormat.width)).reads) :=
    within_append.mpr ⟨within_single.mpr hle, readString_within.mpr h⟩
  rw [readCodeLoad, bind_some (readStruct_value loadFormat_local hle), bind_some (readString_value h)]
  by_cases hfail : SizeMismatch m.file ptr size
  · rw [if_pos hfail]
    dsimp only
    rw [if_pos (by exact hfail)]
    exact ⟨rfl, by rwa [pure_reads, List.append_nil]⟩
  · rw [if_neg hfail]
    dsimp only
    rw [if_neg (by exact hfail)]
    exact ⟨rfl, by rwa [pure_reads, List.append_nil]⟩

theorem loadEntry_within (h : rec'.id = jitCodeLoad) :
    (loadEntry m.file ptr endTime).Within m.file ↔ ContentFits m.file ptr rec' := by
  have hcode : (loadEntry m.file ptr endTime).code =
      if (loadAt m.file ptr).codeAddr ≠ 0 then some (codeStart m.file ptr) else none := rfl
  constructor
  · intro hwithin
    refine ⟨fun _ haddr => ?_, fun hdebug => ?_⟩
    · rw [if_pos haddr] at hcode
      exact hwithin _ hcode
    · rw [h] at hdebug
      exact absurd hdebug (by decide)
  · intro hfits code hc
    rw [hcode] at hc
    split_ifs at hc with haddr
    · obtain rfl := Option.some.inj hc
      exact hfits.load h haddr

theorem closeEntry_within {vma timestamp : UInt64} {file : List UInt8} {entries : List JitEntry} :
    (∀ e ∈ closeEntry vma timestamp endTime entries, e.Within file) ↔ ∀ e ∈ entries, e.Within file := by
  induction entries with
  | nil => exact Iff.rfl
  | cons e es ih =>
    rw [closeEntry]
    split_ifs with hmatch
    · rw [List.forall_mem_cons, List.forall_mem_cons]
      exact Iff.rfl
    · rw [List.forall_mem_cons, List.forall_mem_cons, ih]

/-- The loop of `init_debug_line_info` stays in the file when the names of the table do. -/
theorem readTable_within {n data : Nat} : m.Within (readTable m n data).reads ↔ TableFits m.file n data := by
  induction n generalizing data with
  | zero => exact ⟨fun _ => trivial, fun _ r hr => absurd hr List.not_mem_nil⟩
  | succ n ih =>
    rw [readTable, TableFits, within_bind]
    constructor
    · rintro ⟨hvma, hrest⟩
      have hlineno := within_bind.mp (hrest _ (readStruct_value u64_local (within_single.mp hvma)))
      have hname := within_bind.mp (hlineno.2 _ (readStruct_value u32_local (within_single.mp hlineno.1)))
      have hmem := readString_within.mp hname.1
      have htable := within_bind.mp (hname.2 _ (readString_value hmem))
      exact ⟨hmem, ih.mp htable.1⟩
    · rintro ⟨hmem, htable⟩
      have hlt := lt_of_mem_drop hmem
      have hvma : data + u64.width ≤ m.file.length := by omega
      refine ⟨within_single.mpr hvma, fun vma _ => ?_⟩
      refine within_bind.mpr ⟨within_single.mpr (Nat.le_of_lt hlt), fun lineno _ => ?_⟩
      refine within_bind.mpr ⟨readString_within.mpr hmem, fun name hname => ?_⟩
      obtain rfl := Option.some.inj ((readString_value hmem).symm.trans hname)
      exact within_bind.mpr ⟨ih.mpr htable, fun _ _ r hr => absurd hr List.not_mem_nil⟩

/-- What `init_debug_line_info` reads of a record stays in the file when its content does. -/
theorem read_within {line : JitEntryDebugLine} : m.Within (line.read m).reads ↔
    line.data + debugHeadFormat.width ≤ m.file.length ∧
      TableFits m.file (entryCount m.file line.data) (line.data + debugFormat.width) := by
  rw [JitEntryDebugLine.read, within_bind]
  constructor
  · rintro ⟨hhead, hrest⟩
    have hle := within_single.mp hhead
    exact ⟨hle, readTable_within.mp (hrest _ (readStruct_value debugHeadFormat_local hle))⟩
  · rintro ⟨hle, htable⟩
    refine ⟨within_single.mpr hle, fun head hhead => ?_⟩
    obtain rfl := Option.some.inj ((readStruct_value debugHeadFormat_local hle).symm.trans hhead)
    exact readTable_within.mpr htable

/-- The content of a record without any fits. -/
theorem ContentFits.of_ne (hload : rec'.id ≠ jitCodeLoad) (hdebug : rec'.id = jitCodeDebugInfo → rec'.totalSize = 0)
    (file : List UInt8) (ptr : Nat) : ContentFits file ptr rec' :=
  ⟨fun h => absurd h hload, fun h hne => absurd (hdebug h) hne⟩

theorem readCodeUnload_fits {entries : List JitEntry} (h : ptr + unloadFormat.width ≤ m.file.length) :
    ∃ entries', (readCodeUnload m ptr endTime entries).value = some entries' ∧
      m.Within (readCodeUnload m ptr endTime entries).reads ∧
      ((∀ e ∈ entries', e.Within m.file) ↔ ∀ e ∈ entries, e.Within m.file) := by
  rw [readCodeUnload, bind_some (readStruct_value unloadFormat_local h)]
  have hreads : m.Within ((m.readStruct unloadFormat ptr).reads ++ []) := by
    rw [List.append_nil]
    exact within_single.mpr h
  dsimp only
  split_ifs
  · exact ⟨_, rfl, hreads, closeEntry_within⟩
  · exact ⟨_, rfl, hreads, Iff.rfl⟩

theorem readCodeDebugInfo_fits (h : ptr + (prefixFormat.pair u64).width ≤ m.file.length) :
    ∃ line, (readCodeDebugInfo m ptr endTime).value = some line ∧
      m.Within (readCodeDebugInfo m ptr endTime).reads ∧ line.data = ptr := by
  rw [readCodeDebugInfo, bind_some (readStruct_value (prefixFormat_local.pair u64_local) h)]
  refine ⟨_, rfl, ?_, rfl⟩
  rw [pure_reads, List.append_nil]
  exact within_single.mpr h

/-- The `switch` with a record whose bytes lie in the file. -/
theorem readRecord_fits (endTime : UInt64) (st : Parsed) (h : RecordFits m.file ptr rec') :
    ∃ st', (readRecord m ptr rec' endTime st).value = some st' ∧
      m.Within (readRecord m ptr rec' endTime st).reads ∧
      (st'.Within m ↔ st.Within m ∧ ContentFits m.file ptr rec') ∧
      (st'.rc = .fail ↔ st.rc = .fail ∨ Rejected m.file ptr rec') := by
  have hnil : m.Within [] := fun r hr => absurd hr List.not_mem_nil
  rw [readRecord, Rejected]
  by_cases hload : rec'.id = jitCodeLoad
  · obtain ⟨hvalue, hreads⟩ := @readCodeLoad_fits m endTime ptr rec'.totalSize.toInt32 (h.load hload)
    rw [if_pos hload, if_pos hload, bind_some hvalue]
    refine ⟨_, rfl, within_append.mpr ⟨hreads, hnil⟩, ?_, ?_⟩
    · rw [← loadEntry_within hload]
      constructor
      · intro hst
        obtain ⟨hentry, hentries⟩ := List.forall_mem_cons.mp hst.entries
        exact ⟨⟨hentries, hst.debugLines⟩, hentry⟩
      · rintro ⟨hst, hentry⟩
        exact ⟨List.forall_mem_cons.mpr ⟨hentry, hst.entries⟩, hst.debugLines⟩
    · dsimp only
      by_cases hfail : SizeMismatch m.file ptr rec'.totalSize.toInt32
      · simp [hfail]
      · simp [hfail]
  rw [if_neg hload, if_neg hload]
  by_cases hunload : rec'.id = jitCodeUnload
  · have hle := h.unload hunload
    have hcontent : ContentFits m.file ptr rec' :=
      ContentFits.of_ne hload (fun hd => absurd (hunload.symm.trans hd) (by decide)) _ _
    obtain ⟨entries', hvalue, hreads, hentries⟩ := @readCodeUnload_fits m endTime ptr st.entries hle
    rw [if_pos hunload, if_pos (Or.inl hunload), bind_some hvalue]
    refine ⟨_, rfl, within_append.mpr ⟨hreads, hnil⟩, ?_, (or_iff_left id).symm⟩
    rw [and_iff_left hcontent]
    exact ⟨fun hst => ⟨hentries.mp hst.entries, hst.debugLines⟩,
      fun hst => ⟨hentries.mpr hst.entries, hst.debugLines⟩⟩
  rw [if_neg hunload]
  by_cases hclose : rec'.id = jitCodeClose
  · rw [if_pos hclose, if_pos (Or.inr hclose)]
    have hcontent : ContentFits m.file ptr rec' :=
      ContentFits.of_ne hload (fun hd => absurd (hclose.symm.trans hd) (by decide)) _ _
    exact ⟨st, rfl, hnil, (and_iff_left hcontent).symm, (or_iff_left id).symm⟩
  have hother : ¬(rec'.id = jitCodeUnload ∨ rec'.id = jitCodeClose) := not_or.mpr ⟨hunload, hclose⟩
  rw [if_neg hclose, if_neg hother]
  by_cases hdebug : rec'.id = jitCodeDebugInfo
  · rw [if_pos hdebug, if_pos hdebug]
    by_cases hzero : rec'.totalSize = 0
    · rw [if_pos hzero]
      have hcontent : ContentFits m.file ptr rec' := ContentFits.of_ne hload (fun _ => hzero) _ _
      refine ⟨_, rfl, hnil, ?_, iff_of_true rfl (Or.inr hzero)⟩
      exact (Iff.intro (fun hst => ⟨hst.entries, hst.debugLines⟩) fun hst => ⟨hst.entries, hst.debugLines⟩).trans
        (and_iff_left hcontent).symm
    · obtain ⟨line, hvalue, hreads, hdata⟩ := @readCodeDebugInfo_fits m endTime ptr (h.debugInfo hdebug hzero)
      rw [if_neg hzero, bind_some hvalue]
      have hcontent : ContentFits m.file ptr rec' ↔ m.Within (line.read m).reads := by
        rw [read_within, hdata]
        exact ⟨fun hc => hc.debugInfo hdebug hzero, fun hr => ⟨fun hl => absurd hl hload, fun _ _ => hr⟩⟩
      refine ⟨_, rfl, within_append.mpr ⟨hreads, hnil⟩, ?_, (or_iff_left hzero).symm⟩
      rw [hcontent]
      constructor
      · intro hst
        obtain ⟨hline, hlines⟩ := List.forall_mem_cons.mp hst.debugLines
        exact ⟨⟨hst.entries, hlines⟩, hline⟩
      · rintro ⟨hst, hline⟩
        exact ⟨hst.entries, List.forall_mem_cons.mpr ⟨hline, hst.debugLines⟩⟩
  · rw [if_neg hdebug, if_neg hdebug]
    have hcontent : ContentFits m.file ptr rec' := ContentFits.of_ne hload (fun hd => absurd hd hdebug) _ _
    refine ⟨_, rfl, hnil, ?_, iff_of_true rfl (Or.inr trivial)⟩
    exact (Iff.intro (fun hst => ⟨hst.entries, hst.debugLines⟩) fun hst => ⟨hst.entries, hst.debugLines⟩).trans
      (and_iff_left hcontent).symm

end

end Oprofile.JitDump
