import Oprofile.JitDump.History
import Mathlib.Data.List.Forall2

/-! The reader gives back what the agent wrote. -/
namespace Oprofile.JitDump

open Records Results

variable {file : List UInt8} {ptr fuel : Nat} {endTime : UInt64} {env : CallEnv} {d d' : DumpFile}
  {call : AgentCall} {calls : List (CallEnv × AgentCall)} {st st' : Parsed} {story : Story}
  {nc : NativeCode} {time : UInt64} {junk : UInt32}

/-- A size rounded up to a multiple of eight. -/
def aligned (n : Nat) : Nat := (n + 7) / 8 * 8

theorem add_padding {n : Nat} (h : n < 2 ^ 32) :
    n + (padding8Aligned (UInt32.ofNat n)).toNat = aligned n := by
  rw [padding8Aligned_toNat, UInt32.toNat_ofNat', Nat.mod_eq_of_lt h, aligned]
  omega

theorem le_aligned (n : Nat) : n ≤ aligned n := by
  rw [aligned]
  omega

/-- The total size of a record as its 32-bit field has it. -/
theorem total_toNat {n : Nat} (h : aligned n < 2 ^ 32) :
    (UInt32.ofNat n + padding8Aligned (UInt32.ofNat n)).toNat = aligned n := by
  have hle := le_aligned n
  rw [UInt32.toNat_add, UInt32.toNat_ofNat', Nat.mod_eq_of_lt (by omega : n < 2 ^ 32),
    add_padding (by omega), Nat.mod_eq_of_lt h]

/-! The agent. -/

/-- The writes of the call whose failure does not show in what it returns all work. -/
def AgentCall.Whole (env : CallEnv) : AgentCall → Prop
  | .writeNativeCode nc => nc.Whole env
  | .unloadNativeCode _ => True
  | .writeDebugLineInfo _ compileMap => compileMap ≠ [] → env.WritesTable compileMap

/-- Every record gets into the file as a whole, and every total size can be told in 32 bits. -/
def Holdable (target : AgentTarget) (calls : List (CallEnv × AgentCall)) : Prop :=
  aligned (headerFormat.width + target.bfdTargetName.bytes.length) < 2 ^ 32 ∧
  (∀ env nc, (env, AgentCall.writeNativeCode nc) ∈ calls → nc.Whole env ∧ aligned nc.recSize < 2 ^ 32) ∧
  ∀ env codeAddr compileMap, (env, AgentCall.writeDebugLineInfo codeAddr compileMap) ∈ calls →
    (compileMap ≠ [] → env.WritesTable compileMap) ∧
    aligned (debugFormat.width + (compileMap.flatMap DebugLineInfo.bytes).length) < 2 ^ 32

theorem Holdable.whole {target : AgentTarget} (h : Holdable target calls) :
    ∀ env call, (env, call) ∈ calls → call.Whole env := by
  intro env call hmem
  cases call with
  | writeNativeCode nc => exact (h.2.1 env nc hmem).1
  | unloadNativeCode vma => trivial
  | writeDebugLineInfo codeAddr compileMap => exact (h.2.2 env codeAddr compileMap hmem).1

def headerBytes (target : AgentTarget) (time : UInt64) (junk : UInt32) : List UInt8 :=
  headerFormat.encode (target.header time junk) ++ target.bfdTargetName.bytes ++ padBytes target.padCnt

theorem opOpenAgent_bytes {target : AgentTarget} (h : opOpenAgent env target = some d) :
    ∃ time, d.bytes = headerBytes target time env.junk ∧ d.AtEnd := by
  rw [opOpenAgent] at h
  cases htime : env.timeofday with
  | none =>
    rw [htime] at h
    cases h
  | some time =>
    rw [htime] at h
    have hok : ∀ {r : Except DumpFile DumpFile}, r.toOption = some d → r = .ok d := by
      intro r hr
      cases r with
      | error e => cases hr
      | ok d₁ =>
        cases hr
        rfl
    obtain ⟨d₁, h₁, h⟩ := bind_ok (hok h)
    obtain ⟨d₂, h₂, h⟩ := bind_ok h
    have hstart : (⟨[], 0⟩ : DumpFile).AtEnd := rfl
    have happ₁ := fwrite_appended hstart h₁
    have happ₂ := happ₁.comp (fwrite_appended happ₁.2 h₂)
    have happ₃ := happ₂.comp (padded_ok happ₂.2 h)
    exact ⟨time, happ₃.1, happ₃.2⟩

theorem call_appended (hd : d.AtEnd) (h : succeeded (call.run env d) = some d')
    (hwhole : call.Whole env) :
    Appended d ((recordsOf [(env, call)]).flatMap Record.bytes) d' := by
  cases call with
  | writeNativeCode nc =>
    obtain ⟨time, tail, htime, happ, htail⟩ := opWriteNativeCode_appended hd h
    rw [htail hwhole] at happ
    simpa [recordsOf, AgentCall.recordAt, Record.bytes, loadBytes, htime] using happ
  | unloadNativeCode vma =>
    obtain ⟨time, htime, happ⟩ := opUnloadNativeCode_appended hd h
    simpa [recordsOf, AgentCall.recordAt, Record.bytes, htime] using happ
  | writeDebugLineInfo codeAddr compileMap =>
    by_cases hnil : compileMap = []
    · subst hnil
      cases h
      exact Appended.refl hd
    · obtain ⟨time, htime, happ⟩ := opWriteDebugLineInfo_appended hd hnil (hwhole hnil) h
      simpa [recordsOf, AgentCall.recordAt, Record.bytes, htime, hnil] using happ

theorem recordsOf_cons (x : CallEnv × AgentCall) (calls : List (CallEnv × AgentCall)) :
    recordsOf (x :: calls) = recordsOf [x] ++ recordsOf calls := by
  simp only [recordsOf, List.filterMap_cons, List.filterMap_nil]
  cases x.2.recordAt (x.1.timeofday.getD 0) x.1.junk <;> rfl

theorem runCalls_appended (hd : d.AtEnd) (h : runCalls calls d = some d')
    (hwhole : ∀ env call, (env, call) ∈ calls → call.Whole env) :
    Appended d ((recordsOf calls).flatMap Record.bytes) d' := by
  induction calls generalizing d with
  | nil =>
    cases h
    exact Appended.refl hd
  | cons x calls ih =>
    obtain ⟨env, call⟩ := x
    obtain ⟨d₁, h₁, h⟩ := Option.bind_eq_some_iff.mp h
    have happ := call_appended hd h₁ (hwhole env call List.mem_cons_self)
    rw [recordsOf_cons, List.flatMap_append]
    exact happ.comp (ih happ.2 h fun env call hmem => hwhole env call (List.mem_cons_of_mem _ hmem))

/-! The reader. -/

/-- The entry shows the piece of code, and is open as long as no unload has closed that. -/
def EntryShows (file : List UInt8) (endTime : UInt64) (entry : JitEntry) (life : Life) : Prop :=
  entry.shows file = some (life.shown endTime) ∧ (entry.lifeEnd = endTime ↔ life.closed = none)

def LineShows (file : List UInt8) (line : JitEntryDebugLine) (compileMap : List DebugLineInfo) : Prop :=
  line.lines file = some (compileMap.map DebugLineInfo.shown)

/-- The lists the reader has built tell the story so far. -/
structure Tells (file : List UInt8) (endTime : UInt64) (st : Parsed) (story : Story) : Prop where
  entries : List.Forall₂ (EntryShows file endTime) st.entries story.lives
  lines : List.Forall₂ (LineShows file) st.debugLines story.tables
  rc : st.rc = .ok

theorem EntryShows.vma {entry : JitEntry} {life : Life} (h : EntryShows file endTime entry life) :
    entry.vma = life.nc.vma := by
  obtain ⟨name, -, hshown⟩ := Option.map_eq_some_iff.mp h.1
  exact congrArg JitCode.vma hshown

theorem EntryShows.close {entry : JitEntry} {life : Life} (h : EntryShows file endTime entry life)
    (ht : time ≠ endTime) :
    EntryShows file endTime { entry with lifeEnd := time } { life with closed := some time } := by
  obtain ⟨name, hname, hshown⟩ := Option.map_eq_some_iff.mp h.1
  refine ⟨?_, ?_⟩
  · refine (congrArg (Option.map _) hname).trans ?_
    exact congrArg (fun c : JitCode => some { c with lifeEnd := time }) hshown
  · exact ⟨fun he => absurd he ht, fun hc => by cases hc⟩

theorem closeEntry_shows {entries : List JitEntry} {lives : List Life} (vma : UInt64)
    (ht : time ≠ endTime) (h : List.Forall₂ (EntryShows file endTime) entries lives) :
    List.Forall₂ (EntryShows file endTime) (closeEntry vma time endTime entries)
      (closeNewest vma time lives) := by
  induction h with
  | nil => exact .nil
  | @cons entry life entries lives hx hxs ih =>
    have hopen : entry.vma = vma ∧ entry.lifeEnd = endTime ↔ life.nc.vma = vma ∧ life.closed = none := by
      rw [hx.vma, hx.2]
    rw [closeEntry, closeNewest]
    by_cases hc : entry.vma = vma ∧ entry.lifeEnd = endTime
    · rw [if_pos hc, if_pos (hopen.mp hc)]
      exact .cons (hx.close ht) hxs
    · rw [if_neg hc, if_neg (mt hopen.mpr hc)]
      exact .cons hx ih

theorem parseEntries_step {rec' : JrPrefix} (fuel : Nat) (hpre : structAt prefixFormat file ptr = some rec')
    (hlt : ptr + prefixFormat.width < file.length)
    (hroom : ptr + rec'.totalSize.toNat ≤ file.length)
    (hread : parseRecord file ptr rec' endTime st = some st') :
    parseEntries file endTime (fuel + 1) ptr st =
      parseEntries file endTime fuel (ptr + rec'.totalSize.toNat) st' := by
  rw [parseEntries, if_pos hlt, hpre]
  change (if file.length < ptr + rec'.totalSize.toNat then _ else _) = _
  rw [if_neg (by omega), hread]
  rfl

/-- What the reader makes of a code record: the entry it adds, and when the sizes agree. -/
theorem parseCodeLoad_record {tail : List UInt8} (endTime : UInt64) (size : Int32)
    (h : At file ptr (loadFormat.encode (nc.record time junk) ++ nc.symbolName.bytes ++ tail)) :
    ∃ entry, entry.codeSize = nc.size.toInt32 ∧ entry.lifeEnd = endTime ∧ entry.lifeStart = time ∧
      entry.vma = nc.vma ∧ stringAt file entry.symbolName = some nc.symbolName.chars ∧
      entry.code = nc.code.map (fun _ => ptr + loadFormat.width + nc.symbolName.bytes.length) ∧
      parseCodeLoad file ptr size endTime = some
        (if nc.code.isSome ∧ ((ptr + loadFormat.width + nc.symbolName.bytes.length : Nat) : Int) +
          nc.size.toInt32.toInt + (expectedPadding nc.symbolName.chars.length nc.size.toInt32).toNat ≠
          ptr + size.toInt then .fail else .ok, entry) := by
  have hrec : At file ptr (loadFormat.encode (nc.record time junk)) := (at_append.mp (at_append.mp h).1).1
  have hname := (at_append.mp (at_append.mp h).1).2.stringAt
  rw [Format.length_encode] at hname
  have hcode : (nc.record time junk).codeAddr ≠ 0 ↔ nc.code.isSome := by
    rw [NativeCode.record]
    cases nc.code with
    | none => simp
    | some code => simpa using code.addr_ne
  have hlen : nc.symbolName.bytes.length = nc.symbolName.chars.length + 1 := by simp [CName.bytes]
  refine ⟨⟨nc.vma, nc.code.map (fun _ => ptr + loadFormat.width + nc.symbolName.bytes.length),
    nc.size.toInt32, ptr + loadFormat.width, time, endTime⟩, rfl, rfl, rfl, rfl, hname, rfl, ?_⟩
  have hptr : (if (nc.record time junk).codeAddr ≠ 0 then
      some (ptr + loadFormat.width + nc.symbolName.chars.length + 1) else none) =
      nc.code.map (fun _ => ptr + loadFormat.width + nc.symbolName.bytes.length) := by
    by_cases hc : nc.code.isSome
    · rw [if_pos (hcode.mpr hc), hlen]
      obtain ⟨code, hsome⟩ := Option.isSome_iff_exists.mp hc
      rw [hsome]
      rfl
    · rw [if_neg (mt hcode.mp hc), Option.not_isSome_iff_eq_none.mp hc]
      rfl
  rw [parseCodeLoad, hrec.structAt (by decide), Option.bind_eq_bind, Option.bind_some, hname,
    Option.bind_eq_bind, Option.bind_some]
  rw [hlen] at hptr ⊢
  simp only [hptr]
  rw [apply_ite Prod.mk, ite_apply, apply_ite some]
  exact if_congr (and_congr hcode Iff.rfl) rfl rfl

theorem toInt32_toInt (x : UInt32) :
    x.toInt32.toInt = if x.toNat < 2 ^ 31 then (x.toNat : Int) else x.toNat - 2 ^ 32 := by
  change x.toBitVec.toInt = _
  rw [BitVec.toInt_eq_toNat_cond]
  change (if 2 * x.toNat < 2 ^ 32 then (x.toNat : Int) else x.toNat - _) = _
  by_cases h : x.toNat < 2 ^ 31
  · rw [if_pos h, if_pos (by omega)]
  · rw [if_neg h, if_neg (by omega)]
    rfl

/-- The sizes fit the signed integers that the reader keeps them in. -/
def NativeCode.SizesFit (nc : NativeCode) : Prop :=
  nc.size.toNat < 2 ^ 31 ∧ (nc.code.isSome → aligned nc.recSize < 2 ^ 31)

theorem NativeCode.SizesFit.codeSize (h : nc.SizesFit) : nc.size.toInt32.toInt = nc.size.toNat := by
  rw [toInt32_toInt, if_pos h.1]

theorem symbolName_length (s : CName) : s.bytes.length = s.chars.length + 1 := by simp [CName.bytes]

theorem recSize_some (h : nc.code.isSome) :
    nc.recSize = loadFormat.width + nc.symbolName.bytes.length + nc.size.toNat := by
  rw [NativeCode.recSize, if_pos h]

/-- What the reader expects behind the code is the padding there. -/
theorem sizes_agree (h : nc.SizesFit) (hcode : nc.code.isSome) :
    ((ptr + loadFormat.width + nc.symbolName.bytes.length : Nat) : Int) + nc.size.toInt32.toInt +
      (expectedPadding nc.symbolName.chars.length nc.size.toInt32).toNat =
      ptr + (nc.totalSize + nc.paddingCount).toInt32.toInt := by
  have hlt := h.2 hcode
  have hle := le_aligned nc.recSize
  have htotal : (nc.totalSize + nc.paddingCount).toNat = aligned nc.recSize := total_toNat (by omega)
  rw [toInt32_toInt (nc.totalSize + nc.paddingCount), if_pos (by omega), htotal,
    expectedPadding_toNat (by rw [h.codeSize]; exact Int.natCast_nonneg _), h.codeSize, aligned,
    recSize_some hcode, symbolName_length]
  omega

/-- Where the sizes agree they fit. -/
theorem fit_of_agree (hsize : nc.size.toNat < 2 ^ 31) (hcode : nc.code.isSome)
    (h : ((ptr + loadFormat.width + nc.symbolName.bytes.length : Nat) : Int) + nc.size.toInt32.toInt +
      (expectedPadding nc.symbolName.chars.length nc.size.toInt32).toNat =
      ptr + (nc.totalSize + nc.paddingCount).toInt32.toInt) : aligned nc.recSize < 2 ^ 31 := by
  have hpos : nc.size.toInt32.toInt = nc.size.toNat := by rw [toInt32_toInt, if_pos hsize]
  have hmax := Int32.toInt_lt (nc.totalSize + nc.paddingCount).toInt32
  rw [expectedPadding_toNat (by rw [hpos]; exact Int.natCast_nonneg _), hpos] at h
  rw [aligned, recSize_some hcode, symbolName_length]
  rw [symbolName_length] at h
  omega

theorem codeBytes_length {code : List UInt8} (h : nc.codeBytes = some code) :
    code.length = nc.size.toNat := by
  obtain ⟨ptr, -, rfl⟩ := Option.map_eq_some_iff.mp h
  simp

/-- The entry shows the code of its record. -/
theorem load_shows {entry : JitEntry} (h : At file ptr (loadBytes nc time junk)) (hfit : nc.SizesFit)
    (hsize : entry.codeSize = nc.size.toInt32) (hend : entry.lifeEnd = endTime)
    (hstart : entry.lifeStart = time) (hvma : entry.vma = nc.vma)
    (hname : stringAt file entry.symbolName = some nc.symbolName.chars)
    (hcode : entry.code = nc.code.map (fun _ => ptr + loadFormat.width + nc.symbolName.bytes.length)) :
    EntryShows file endTime entry ⟨nc, time, none⟩ := by
  have hbytes : entry.code.map (fun code => (file.drop code).take entry.codeSize.toInt.toNat) =
      nc.codeBytes := by
    rw [hcode, hsize, hfit.codeSize]
    cases hc : nc.codeBytes with
    | none =>
      rw [Option.map_eq_none_iff.mp hc]
      rfl
    | some code =>
      obtain ⟨p, hp, -⟩ := Option.map_eq_some_iff.mp hc
      have hat := (at_append.mp h).2
      rw [hc, List.length_append, Format.length_encode, ← Nat.add_assoc] at hat
      obtain ⟨rest, hrest⟩ := (at_append.mp hat).1
      rw [hp, Option.map_some, Option.map_some, ← hrest, Int.toNat_natCast, ← codeBytes_length hc]
      exact congrArg some (List.take_left ..)
  refine ⟨?_, fun _ => rfl, fun _ => hend⟩
  rw [JitEntry.shows, hname, hbytes, hsize, hfit.codeSize, hend, hstart, hvma]
  rfl

theorem parseRecord_load (h : At file ptr (loadBytes nc time junk)) (hfit : nc.SizesFit)
    (htells : Tells file endTime st story) :
    ∃ st', parseRecord file ptr (nc.record time junk).toJrPrefix endTime st = some st' ∧
      Tells file endTime st' (story.tell (.load nc time junk)) := by
  obtain ⟨entry, hsize, hend, hstart, hvma, hname, hcode, hparse⟩ :=
    parseCodeLoad_record endTime (nc.totalSize + nc.paddingCount).toInt32 h
  rw [if_neg fun hne => hne.2 (sizes_agree hfit hne.1)] at hparse
  refine ⟨{ st with entries := entry :: st.entries }, ?_, ?_, htells.lines, htells.rc⟩
  · exact congrArg (Option.map _) hparse
  · exact .cons (load_shows h hfit hsize hend hstart hvma hname hcode) htells.entries

theorem parseRecord_unload {vma : UInt64} (h : At file ptr (unloadFormat.encode (unloadRecord vma time)))
    (hne : time ≠ endTime) (htells : Tells file endTime st story) :
    ∃ st', parseRecord file ptr (unloadRecord vma time).toJrPrefix endTime st = some st' ∧
      Tells file endTime st' (story.tell (.unload vma time)) := by
  have hparse : parseCodeUnload file ptr endTime st.entries = some
      (if 0 < time ∧ vma ≠ 0 then closeEntry vma time endTime st.entries else st.entries) := by
    rw [parseCodeUnload, h.structAt (by decide)]
    rfl
  refine ⟨{ st with entries := _ }, congrArg (Option.map _) hparse, ?_⟩
  rw [Story.tell]
  split_ifs
  · exact ⟨closeEntry_shows vma hne htells.entries, htells.lines, htells.rc⟩
  · exact htells

/-! A table. -/

theorem readLines_entries {entries : List DebugLineInfo}
    (h : At file ptr (entries.flatMap DebugLineInfo.bytes)) :
    readLines file entries.length ptr = some (entries.map DebugLineInfo.shown) := by
  induction entries generalizing ptr with
  | nil => rfl
  | cons entry entries ih =>
    rw [List.flatMap_cons] at h
    obtain ⟨hentry, hrest⟩ := at_append.mp h
    rw [DebugLineInfo.bytes] at hentry hrest
    have hname := (at_append.mp hentry).2.stringAt
    have hwords := at_append.mp (at_append.mp hentry).1
    have hvma := hwords.1.structAt (by decide)
    have hlineno := hwords.2.structAt (by decide)
    simp only [List.length_append, Format.length_encode, ← Nat.add_assoc, symbolName_length] at hname hrest hlineno
    rw [List.length_cons, readLines, hvma, Option.bind_eq_bind, Option.bind_some, hlineno,
      Option.bind_eq_bind, Option.bind_some, hname, Option.bind_eq_bind, Option.bind_some, ih hrest]
    rfl

theorem table_length_lt {compileMap : List DebugLineInfo}
    (h : aligned (debugFormat.width + (compileMap.flatMap DebugLineInfo.bytes).length) < 2 ^ 32) :
    compileMap.length < 2 ^ 32 := by
  have hle := le_aligned (debugFormat.width + (compileMap.flatMap DebugLineInfo.bytes).length)
  have hmin : ∀ entries : List DebugLineInfo,
      entries.length ≤ (entries.flatMap DebugLineInfo.bytes).length := by
    intro entries
    induction entries with
    | nil => exact Nat.le_refl 0
    | cons entry entries ih =>
      rw [List.flatMap_cons, List.length_append, List.length_cons, DebugLineInfo.bytes]
      simp only [List.length_append, symbolName_length]
      omega
  have := hmin compileMap
  omega

theorem parseRecord_table {codeAddr : UInt64} {compileMap : List DebugLineInfo}
    (h : At file ptr (tableBytes codeAddr compileMap time junk))
    (hheld : aligned (debugFormat.width + (compileMap.flatMap DebugLineInfo.bytes).length) < 2 ^ 32)
    (htells : Tells file endTime st story) :
    ∃ st', parseRecord file ptr (debugRecord codeAddr compileMap time junk
        (tableSize compileMap + padding8Aligned (tableSize compileMap))).toJrPrefix endTime st = some st' ∧
      Tells file endTime st' (story.tell (.table codeAddr compileMap time junk)) := by
  rw [tableBytes] at h
  obtain ⟨⟨hrec, hentries⟩, -⟩ := (at_append.mp h).imp at_append.mp id
  have htotal : tableSize compileMap + padding8Aligned (tableSize compileMap) ≠ 0 := by
    intro h0
    have hle := le_aligned (debugFormat.width + (compileMap.flatMap DebugLineInfo.bytes).length)
    have hz : (tableSize compileMap + padding8Aligned (tableSize compileMap)).toNat = 0 := by
      rw [h0]
      rfl
    rw [tableSize, total_toNat hheld] at hz
    have hw : debugFormat.width = 32 := rfl
    omega
  have hhead : At file ptr ((prefixFormat.pair u64).encode ((debugRecord codeAddr compileMap time junk
      (tableSize compileMap + padding8Aligned (tableSize compileMap))).toJrPrefix, time)) := by
    refine List.IsPrefix.trans ?_ hrec
    exact ⟨_, List.append_assoc ..⟩
  have hparse : parseCodeDebugInfo file ptr endTime = some ⟨ptr, time, endTime, file.length⟩ := by
    rw [parseCodeDebugInfo, hhead.structAt (by decide)]
    rfl
  refine ⟨{ st with debugLines := ⟨ptr, time, endTime, file.length⟩ :: st.debugLines }, ?_,
    htells.entries, .cons ?_ htells.lines, htells.rc⟩
  · exact (if_neg htotal).trans (congrArg (Option.map _) hparse)
  · rw [LineShows, JitEntryDebugLine.lines, hrec.structAt (by decide), Option.bind_eq_bind,
      Option.bind_some]
    have hlen : (UInt32.ofNat compileMap.length).toNat = compileMap.length := by
      rw [UInt32.toNat_ofNat', Nat.mod_eq_of_lt (table_length_lt hheld)]
    change readLines file (UInt32.ofNat compileMap.length).toNat _ = _
    rw [hlen]
    rw [Format.length_encode] at hentries
    exact readLines_entries hentries

/-! One record, then all of them. -/

variable {r : Record} {records : List Record}

/-- The total size of a record can be told in 32 bits; a table has lines. -/
def Record.Held : Record → Prop
  | .load nc _ _ => aligned nc.recSize < 2 ^ 32
  | .unload _ _ => True
  | .table _ compileMap _ _ =>
    aligned (debugFormat.width + (compileMap.flatMap DebugLineInfo.bytes).length) < 2 ^ 32

def Record.SizesFit : Record → Prop
  | .load nc _ _ => nc.SizesFit
  | _ => True

/-- An unload does not bear the time that stands for a piece not unloaded. -/
def Record.NotAtEnd (endTime : UInt64) : Record → Prop
  | .unload _ time => time ≠ endTime
  | _ => True

def Record.head : Record → JrPrefix
  | .load nc time junk => (nc.record time junk).toJrPrefix
  | .unload vma time => (unloadRecord vma time).toJrPrefix
  | .table codeAddr compileMap time junk => (debugRecord codeAddr compileMap time junk
      (tableSize compileMap + padding8Aligned (tableSize compileMap))).toJrPrefix

theorem Record.head_prefix : prefixFormat.encode r.head <+: r.bytes := by
  cases r with
  | load nc time junk =>
    refine List.IsPrefix.trans ?_ ((List.prefix_append ..).trans (List.prefix_append ..))
    exact List.prefix_append ..
  | unload vma time => exact List.prefix_append ..
  | table codeAddr compileMap time junk =>
    refine List.IsPrefix.trans ?_ ((List.prefix_append ..).trans (List.prefix_append ..))
    exact List.prefix_append ..

theorem recSize_eq : nc.recSize =
    loadFormat.width + nc.symbolName.bytes.length + (nc.codeBytes.getD []).length := by
  rw [NativeCode.recSize]
  cases hc : nc.codeBytes with
  | none =>
    rw [Option.map_eq_none_iff.mp hc]
    rfl
  | some code =>
    obtain ⟨p, hp, -⟩ := Option.map_eq_some_iff.mp hc
    rw [hp, Option.getD_some, codeBytes_length hc]
    rfl

theorem loadBytes_length : (loadBytes nc time junk).length = nc.recSize + nc.paddingCount.toNat := by
  rw [loadBytes, recSize_eq]
  simp only [List.length_append, Format.length_encode, padBytes, List.length_replicate, Nat.add_assoc]

theorem Record.total_eq (h : r.Held) : r.head.totalSize.toNat = r.bytes.length := by
  cases r with
  | load nc time junk =>
    have hle := le_aligned nc.recSize
    rw [Record.Held] at h
    refine (total_toNat h).trans ?_
    rw [Record.bytes, loadBytes_length, NativeCode.paddingCount, NativeCode.totalSize,
      add_padding (by omega)]
  | unload vma time => rfl
  | table codeAddr compileMap time junk =>
    have hle := le_aligned (debugFormat.width + (compileMap.flatMap DebugLineInfo.bytes).length)
    rw [Record.Held] at h
    refine (total_toNat h).trans ?_
    rw [Record.bytes, tableBytes, ← add_padding (by omega)]
    simp only [List.length_append, Format.length_encode, padBytes, List.length_replicate, tableSize]

theorem Record.length_gt : prefixFormat.width < r.bytes.length := by
  have hw : prefixFormat.width = 8 := rfl
  have hl : loadFormat.width = 40 := rfl
  have hd : debugFormat.width = 32 := rfl
  cases r with
  | load nc time junk =>
    rw [Record.bytes, loadBytes_length, NativeCode.recSize]
    omega
  | unload vma time =>
    change 8 < 24
    decide
  | table codeAddr compileMap time junk =>
    rw [Record.bytes, tableBytes]
    simp only [List.length_append, Format.length_encode]
    omega

theorem parseRecord_record (h : At file ptr r.bytes) (hheld : r.Held) (hfit : r.SizesFit)
    (ht : r.NotAtEnd endTime) (htells : Tells file endTime st story) :
    ∃ st', parseRecord file ptr r.head endTime st = some st' ∧
      Tells file endTime st' (story.tell r) := by
  cases r with
  | load nc time junk => exact parseRecord_load h hfit htells
  | unload vma time => exact parseRecord_unload h ht htells
  | table codeAddr compileMap time junk => exact parseRecord_table h hheld htells

theorem At.head (h : At file ptr r.bytes) : JitDump.structAt prefixFormat file ptr = some r.head :=
  At.structAt (Record.head_prefix.trans h) (by decide)

theorem At.room (h : At file ptr r.bytes) : ptr + r.bytes.length ≤ file.length :=
  h.length_le (List.ne_nil_of_length_pos (Nat.zero_lt_of_lt Record.length_gt))

/-- The reader takes a record as a whole and goes on behind it. -/
theorem parseEntries_record (fuel : Nat) (h : At file ptr r.bytes) (hheld : r.Held) (hfit : r.SizesFit)
    (ht : r.NotAtEnd endTime) (htells : Tells file endTime st story) :
    ∃ st', parseEntries file endTime (fuel + 1) ptr st =
        parseEntries file endTime fuel (ptr + r.bytes.length) st' ∧
      Tells file endTime st' (story.tell r) := by
  obtain ⟨st', hread, htells'⟩ := parseRecord_record h hheld hfit ht htells
  have hroom := h.room
  have hgt : prefixFormat.width < r.bytes.length := Record.length_gt
  refine ⟨st', ?_, htells'⟩
  have htotal := Record.total_eq hheld
  have hstep := parseEntries_step fuel h.head (by omega) (by omega) hread
  rw [htotal] at hstep
  exact hstep

theorem parseEntries_records (fuel : Nat) (h : At file ptr (records.flatMap Record.bytes))
    (hheld : ∀ r ∈ records, r.Held) (hfit : ∀ r ∈ records, r.SizesFit)
    (ht : ∀ r ∈ records, r.NotAtEnd endTime) (htells : Tells file endTime st story) :
    ∃ st', parseEntries file endTime (records.length + fuel) ptr st =
        parseEntries file endTime fuel (ptr + (records.flatMap Record.bytes).length) st' ∧
      Tells file endTime st' (records.foldl Story.tell story) := by
  induction records generalizing ptr st story with
  | nil => exact ⟨st, by simp, htells⟩
  | cons r records ih =>
    rw [List.forall_mem_cons] at hheld hfit ht
    rw [List.flatMap_cons] at h
    obtain ⟨hr, hrest⟩ := at_append.mp h
    have hfuel : (r :: records).length + fuel = records.length + fuel + 1 := by
      rw [List.length_cons]
      omega
    obtain ⟨st₁, hstep, htells₁⟩ := parseEntries_record (records.length + fuel) hr hheld.1
      hfit.1 ht.1 htells
    obtain ⟨st', hrun, htells'⟩ := ih hrest hheld.2 hfit.2 ht.2 htells₁
    refine ⟨st', ?_, htells'⟩
    rw [hfuel, hstep, hrun, List.flatMap_cons, List.length_append, Nat.add_assoc]

/-! The whole dump. -/

variable {target : AgentTarget} {openEnv closeEnv : CallEnv}

/-- The reader accepts the dump and gives back what was written. -/
def RoundTrip (file : List UInt8) (endTime : UInt64) (calls : List (CallEnv × AgentCall)) : Prop :=
  ∃ st, parseAll file endTime = some st ∧ st.rc = .ok ∧
    st.entries.map (JitEntry.shows file) =
      (storyOf (recordsOf calls)).lives.map (fun life => some (life.shown endTime)) ∧
    st.debugLines.map (JitEntryDebugLine.lines file) =
      (storyOf (recordsOf calls)).tables.map fun compileMap => some (compileMap.map DebugLineInfo.shown)

theorem headerBytes_length (h : aligned (headerFormat.width + target.bfdTargetName.bytes.length) < 2 ^ 32) :
    (headerBytes target time junk).length = (target.header time junk).totalsize.toNat := by
  have hle := le_aligned (headerFormat.width + target.bfdTargetName.bytes.length)
  refine Eq.trans ?_ (total_toNat h).symm
  rw [headerBytes, ← add_padding (by omega)]
  simp only [List.length_append, Format.length_encode, padBytes, List.length_replicate,
    AgentTarget.padCnt, AgentTarget.totalsize]

theorem parseHeader_headerBytes {rest : List UInt8}
    (h : aligned (headerFormat.width + target.bfdTargetName.bytes.length) < 2 ^ 32)
    (hfile : file = headerBytes target time junk ++ rest) :
    parseHeader file = some (headerBytes target time junk).length := by
  have hlen : file.length = (headerBytes target time junk).length + rest.length := by
    rw [hfile, List.length_append]
  have hmin : headerFormat.width < (headerBytes target time junk).length := by
    rw [headerBytes]
    simp only [List.length_append, Format.length_encode, symbolName_length]
    omega
  have hdecode : headerFormat.decode file = target.header time junk := by
    rw [hfile, headerBytes, List.append_assoc, List.append_assoc]
    exact headerFormat.decode_encode ..
  rw [parseHeader, if_neg (by omega), hdecode, headerBytes_length h]
  refine if_neg ?_
  rintro (hmagic | hversion | htotal)
  · exact hmagic rfl
  · exact hversion rfl
  · rw [← headerBytes_length h] at htotal
    omega

/-- The record of `op_close_agent` ends the loop. -/
theorem parseEntries_close (fuel : Nat) (st : Parsed) (endTime : UInt64)
    (h : At file ptr (closeFormat.encode (closeRecord time)))
    (hend : ptr + closeFormat.width = file.length) :
    parseEntries file endTime (fuel + 2) ptr st = some st := by
  have hwidth : closeFormat.width = 16 := rfl
  have hprefix : prefixFormat.width = 8 := rfl
  have hhead : At file ptr (prefixFormat.encode (closeRecord time).toJrPrefix) :=
    List.IsPrefix.trans (List.prefix_append ..) h
  have htotal : (closeRecord time).toJrPrefix.totalSize.toNat = closeFormat.width := rfl
  have hread : parseRecord file ptr (closeRecord time).toJrPrefix endTime st = some st := rfl
  rw [parseEntries_step (fuel + 1) (hhead.structAt (by decide)) (by omega) (by omega) hread, htotal,
    hend, parseEntries, if_neg (by omega)]

/-- The dump is the header, the records and the closing record. -/
theorem writeDump_bytes (h : writeDump openEnv target calls closeEnv = some d)
    (hwhole : ∀ env call, (env, call) ∈ calls → call.Whole env) :
    ∃ time closeTime, d.bytes = headerBytes target time openEnv.junk ++
      ((recordsOf calls).flatMap Record.bytes ++ closeFormat.encode (closeRecord closeTime)) := by
  obtain ⟨d₁, h₁, h⟩ := Option.bind_eq_some_iff.mp h
  obtain ⟨d₂, h₂, h⟩ := Option.bind_eq_some_iff.mp h
  obtain ⟨time, hbytes, hd⟩ := opOpenAgent_bytes h₁
  have happ := runCalls_appended hd h₂ hwhole
  obtain ⟨closeTime, happ'⟩ := opCloseAgent_appended happ.2 h
  exact ⟨time, closeTime, by rw [happ'.1, happ.1, hbytes, List.append_assoc]⟩

theorem records_length_le (records : List Record) :
    records.length ≤ (records.flatMap Record.bytes).length := by
  induction records with
  | nil => exact Nat.le_refl 0
  | cons r records ih =>
    have hgt : prefixFormat.width < r.bytes.length := Record.length_gt
    rw [List.flatMap_cons, List.length_append, List.length_cons]
    omega

theorem mem_recordsOf (h : r ∈ recordsOf calls) :
    ∃ env call, (env, call) ∈ calls ∧ call.recordAt (env.timeofday.getD 0) env.junk = some r := by
  obtain ⟨⟨env, call⟩, hmem, heq⟩ := List.mem_filterMap.mp h
  exact ⟨env, call, hmem, heq⟩

theorem Holdable.held (h : Holdable target calls) : ∀ r ∈ recordsOf calls, r.Held := by
  intro r hr
  obtain ⟨env, call, hmem, heq⟩ := mem_recordsOf hr
  cases call with
  | writeNativeCode nc =>
    cases heq
    exact (h.2.1 env nc hmem).2
  | unloadNativeCode vma =>
    cases heq
    trivial
  | writeDebugLineInfo codeAddr compileMap =>
    rw [AgentCall.recordAt] at heq
    split_ifs at heq with hnil
    cases heq
    exact (h.2.2 env codeAddr compileMap hmem).2

/-- No unload happens at the very end, whose time stands for pieces not unloaded. -/
def NotAtEnd (endTime : UInt64) (calls : List (CallEnv × AgentCall)) : Prop :=
  ∀ env vma, (env, AgentCall.unloadNativeCode vma) ∈ calls → env.timeofday.getD 0 ≠ endTime

theorem NotAtEnd.of_calls (h : NotAtEnd endTime calls) : ∀ r ∈ recordsOf calls, r.NotAtEnd endTime := by
  intro r hr
  obtain ⟨env, call, hmem, heq⟩ := mem_recordsOf hr
  cases call with
  | writeNativeCode nc =>
    cases heq
    trivial
  | unloadNativeCode vma =>
    cases heq
    exact h env vma hmem
  | writeDebugLineInfo codeAddr compileMap =>
    rw [AgentCall.recordAt] at heq
    split_ifs at heq
    cases heq
    trivial

/-- Every piece of code has sizes that fit. -/
def SizesFit (calls : List (CallEnv × AgentCall)) : Prop :=
  ∀ env nc, (env, AgentCall.writeNativeCode nc) ∈ calls → nc.SizesFit

theorem sizesFit_iff : SizesFit calls ↔ ∀ r ∈ recordsOf calls, r.SizesFit := by
  constructor
  · intro h r hr
    obtain ⟨env, call, hmem, heq⟩ := mem_recordsOf hr
    cases call with
    | writeNativeCode nc =>
      cases heq
      exact h env nc hmem
    | unloadNativeCode vma =>
      cases heq
      trivial
    | writeDebugLineInfo codeAddr compileMap =>
      rw [AgentCall.recordAt] at heq
      split_ifs at heq
      cases heq
      trivial
  · intro h env nc hmem
    exact h _ (List.mem_filterMap.mpr ⟨_, hmem, rfl⟩)

theorem tells_start : Tells file endTime { entries := [], debugLines := [], rc := .ok } ⟨[], []⟩ :=
  ⟨.nil, .nil, rfl⟩

theorem map_eq_map {α β γ : Type} {R : α → β → Prop} {f : α → γ} {g : β → γ} {xs : List α}
    {ys : List β} (hR : ∀ x y, R x y → f x = g y) (h : List.Forall₂ R xs ys) : xs.map f = ys.map g := by
  induction h with
  | nil => rfl
  | cons hx _ ih => rw [List.map_cons, List.map_cons, hR _ _ hx, ih]

theorem roundTrip_of_fit (h : writeDump openEnv target calls closeEnv = some d)
    (ht : NotAtEnd endTime calls) (hheld : Holdable target calls) (hfit : SizesFit calls) :
    RoundTrip d.bytes endTime calls := by
  obtain ⟨time, closeTime, hbytes⟩ := writeDump_bytes h hheld.whole
  have hat : At d.bytes (headerBytes target time openEnv.junk).length
      ((recordsOf calls).flatMap Record.bytes ++ closeFormat.encode (closeRecord closeTime)) :=
    at_of_eq (hbytes.trans (by rw [List.append_nil]))
  have hlen := congrArg List.length hbytes
  rw [List.length_append, List.length_append, Format.length_encode] at hlen
  have hcount := records_length_le (recordsOf calls)
  have hwidth : closeFormat.width = 16 := rfl
  obtain ⟨k, hk⟩ : ∃ k, d.bytes.length + 1 = (recordsOf calls).length + (k + 2) :=
    ⟨d.bytes.length - 1 - (recordsOf calls).length, by omega⟩
  obtain ⟨st, hrun, htells⟩ := parseEntries_records (k + 2) (at_append.mp hat).1 hheld.held
    (sizesFit_iff.mp hfit) ht.of_calls tells_start
  have hclose := parseEntries_close k st endTime (at_append.mp hat).2 (by omega)
  refine ⟨st, ?_, htells.rc, ?_, ?_⟩
  · rw [parseAll, parseHeader_headerBytes hheld.1 hbytes]
    change parseEntries d.bytes endTime (d.bytes.length + 1) _ _ = _
    rw [hk, hrun, hclose]
  · exact map_eq_map (fun _ _ hx => hx.1) htells.entries
  · exact map_eq_map (fun _ _ hx => hx) htells.lines

/-! What the reader has once read stays, and so does its failure. -/

/-- The later lists hold the same code sizes, with new ones in front. -/
structure Grows (st st' : Parsed) : Prop where
  rc : st.rc = .fail → st'.rc = .fail
  sizes : st.entries.map JitEntry.codeSize <:+ st'.entries.map JitEntry.codeSize

theorem Grows.refl (st : Parsed) : Grows st st := ⟨id, List.suffix_rfl⟩

theorem Grows.trans {st'' : Parsed} (h : Grows st st') (h' : Grows st' st'') : Grows st st'' :=
  ⟨fun hf => h'.rc (h.rc hf), h.sizes.trans h'.sizes⟩

theorem closeEntry_sizes (vma : UInt64) (entries : List JitEntry) :
    (closeEntry vma time endTime entries).map JitEntry.codeSize = entries.map JitEntry.codeSize := by
  induction entries with
  | nil => rfl
  | cons entry entries ih =>
    rw [closeEntry]
    split_ifs
    · rfl
    · rw [List.map_cons, ih, List.map_cons]

theorem parseCodeUnload_sizes {entries entries' : List JitEntry}
    (h : parseCodeUnload file ptr endTime entries = some entries') :
    entries'.map JitEntry.codeSize = entries.map JitEntry.codeSize := by
  obtain ⟨rec', -, rfl⟩ := Option.map_eq_some_iff.mp h
  split_ifs
  · exact closeEntry_sizes _ _
  · rfl

theorem parseRecord_grows {rec' : JrPrefix} (h : parseRecord file ptr rec' endTime st = some st') :
    Grows st st' := by
  rw [parseRecord] at h
  split_ifs at h
  · obtain ⟨⟨rc, entry⟩, -, rfl⟩ := Option.map_eq_some_iff.mp h
    refine ⟨fun hf => ?_, List.suffix_cons ..⟩
    change (if rc = .fail then ConvResult.fail else st.rc) = .fail
    rw [hf, ite_self]
  · obtain ⟨entries, hentries, rfl⟩ := Option.map_eq_some_iff.mp h
    refine ⟨id, ?_⟩
    change _ <:+ entries.map JitEntry.codeSize
    exact ⟨[], (parseCodeUnload_sizes hentries).symm⟩
  · cases h
    exact Grows.refl st
  · cases h
    exact ⟨fun _ => rfl, List.suffix_rfl⟩
  · obtain ⟨line, -, rfl⟩ := Option.map_eq_some_iff.mp h
    exact ⟨id, List.suffix_rfl⟩
  · cases h
    exact ⟨fun _ => rfl, List.suffix_rfl⟩

theorem parseEntries_grows (h : parseEntries file endTime fuel ptr st = some st') : Grows st st' := by
  induction fuel generalizing ptr st with
  | zero => cases h
  | succ fuel ih =>
    rw [parseEntries] at h
    split_ifs at h with hlt
    · obtain ⟨rec', -, h⟩ := Option.bind_eq_some_iff.mp h
      split_ifs at h with hroom
      · cases h
        exact ⟨fun _ => rfl, List.suffix_rfl⟩
      · obtain ⟨st₁, hread, h⟩ := Option.bind_eq_some_iff.mp h
        exact (parseRecord_grows hread).trans (ih h)
    · cases h
      exact Grows.refl _

theorem closeNewest_ncs (vma : UInt64) (lives : List Life) :
    (closeNewest vma time lives).map Life.nc = lives.map Life.nc := by
  induction lives with
  | nil => rfl
  | cons life lives ih =>
    rw [closeNewest]
    split_ifs
    · rfl
    · rw [List.map_cons, ih, List.map_cons]

theorem tell_ncs : story.lives.map Life.nc <:+ (story.tell r).lives.map Life.nc := by
  cases r with
  | load nc time junk => exact List.suffix_cons ..
  | unload vma time =>
    rw [Story.tell]
    split_ifs
    · exact (closeNewest_ncs ..) ▸ List.suffix_rfl
    · exact List.suffix_rfl
  | table codeAddr compileMap time junk => exact List.suffix_rfl

theorem foldl_tell_ncs (story : Story) (records : List Record) :
    story.lives.map Life.nc <:+ (records.foldl Story.tell story).lives.map Life.nc := by
  induction records generalizing story with
  | nil => exact List.suffix_rfl
  | cons r records ih => exact tell_ncs.trans (ih _)

/-- Two lists with the same elements have the same elements at the same distance from their ends. -/
theorem eq_of_suffixes {α : Type} {x y : α} {xs ys zs : List α} (hx : x :: xs <:+ zs)
    (hy : y :: ys <:+ zs) (hlen : xs.length = ys.length) : x = y := by
  have hle : (x :: xs).length = (y :: ys).length := by rw [List.length_cons, List.length_cons, hlen]
  have heq := (List.suffix_of_suffix_length_le hx hy (Nat.le_of_eq hle)).eq_of_length hle
  injection heq

theorem forall₂_of_map_eq {α β γ : Type} {f : α → γ} {g : β → γ} {xs : List α} {ys : List β}
    (h : xs.map f = ys.map g) : List.Forall₂ (fun x y => f x = g y) xs ys := by
  rw [← List.forall₂_map_right_iff (f := g), ← List.forall₂_map_left_iff (f := f), h]
  exact List.forall₂_eq_eq_eq ▸ rfl

/-- The code sizes that the entries have, as the history tells them. -/
theorem sizes_of_shows {entries : List JitEntry} {lives : List Life}
    (h : entries.map (JitEntry.shows file) = lives.map fun life => some (life.shown endTime)) :
    (entries.map JitEntry.codeSize).map Int32.toInt =
      (lives.map Life.nc).map fun nc => (nc.size.toNat : Int) := by
  rw [List.map_map, List.map_map]
  refine map_eq_map (fun entry life hx => ?_) (forall₂_of_map_eq h)
  obtain ⟨name, -, hshown⟩ := Option.map_eq_some_iff.mp hx
  exact congrArg JitCode.codeSize hshown

/-- A code record adds its entry in any case; the reader fails unless the sizes agree. -/
theorem parseRecord_anyLoad (h : At file ptr (loadBytes nc time junk)) (endTime : UInt64)
    (st : Parsed) : ∃ entry st', parseRecord file ptr (nc.record time junk).toJrPrefix endTime st = some st' ∧
      st'.entries = entry :: st.entries ∧ entry.codeSize = nc.size.toInt32 ∧
      (st'.rc = .ok → nc.code.isSome →
        ((ptr + loadFormat.width + nc.symbolName.bytes.length : Nat) : Int) + nc.size.toInt32.toInt +
          (expectedPadding nc.symbolName.chars.length nc.size.toInt32).toNat =
          ptr + (nc.totalSize + nc.paddingCount).toInt32.toInt) := by
  obtain ⟨entry, hsize, -, -, -, -, -, hload⟩ :=
    parseCodeLoad_record endTime (nc.totalSize + nc.paddingCount).toInt32 h
  refine ⟨entry, _, congrArg (Option.map _) hload, rfl, hsize, fun hrc hcode => ?_⟩
  by_contra hne
  rw [if_pos ⟨hcode, hne⟩] at hrc
  exact absurd hrc (by simp)

/-- If the reader gives back what was written, the sizes of the first record in doubt fit. -/
theorem sizesFit_of_roundTrip {pre post : List Record} {start : Nat}
    (hat : At file start ((recordsOf calls).flatMap Record.bytes))
    (hheader : parseHeader file = some start)
    (hheld : ∀ r ∈ recordsOf calls, r.Held) (ht : ∀ r ∈ recordsOf calls, r.NotAtEnd endTime)
    (hcalls : recordsOf calls = pre ++ .load nc time junk :: post)
    (hpre : ∀ r ∈ pre, r.SizesFit) (hround : RoundTrip file endTime calls) : nc.SizesFit := by
  obtain ⟨st, hparse, hrc, hentries, -⟩ := hround
  rw [parseAll, hheader] at hparse
  change parseEntries file endTime (file.length + 1) _ _ = _ at hparse
  rw [hcalls, List.flatMap_append, List.flatMap_cons] at hat
  rw [hcalls] at hheld ht hentries
  obtain ⟨hatPre, hatPost⟩ := at_append.mp hat
  have hload := (at_append.mp hatPost).1
  have hcount := records_length_le pre
  have hroom := hload.room
  have hgt := Record.length_gt (r := .load nc time junk)
  have hheldPre : ∀ r ∈ pre, r.Held := fun r hr => hheld r (List.mem_append_left _ hr)
  have htPre : ∀ r ∈ pre, r.NotAtEnd endTime := fun r hr => ht r (List.mem_append_left _ hr)
  have htotal := Record.total_eq (hheld _ (List.mem_append_right _ List.mem_cons_self))
  obtain ⟨k, hk⟩ : ∃ k, file.length + 1 = pre.length + (k + 1) := ⟨file.length - pre.length, by omega⟩
  -- the reader gets to the record
  obtain ⟨st₁, hrun, htells⟩ := parseEntries_records (k + 1) hatPre hheldPre hpre htPre tells_start
  obtain ⟨entry, st₂, hread, hcons, hsize, hagree⟩ := parseRecord_anyLoad hload endTime st₁
  have hstep := parseEntries_step k hload.head (by omega) (by omega) hread
  -- and what it makes of it stays
  have hgrows : Grows st₂ st := by
    refine parseEntries_grows (hstep.symm.trans (hrun.symm.trans ?_))
    rw [← hk]
    exact hparse
  have hsizes := sizes_of_shows hentries
  have hnew : nc.size.toInt32.toInt = nc.size.toNat := by
    have hleft := hgrows.sizes.map Int32.toInt
    have hright : (nc :: (storyOf pre).lives.map Life.nc).map (fun nc => (nc.size.toNat : Int)) <:+
        ((storyOf (pre ++ .load nc time junk :: post)).lives.map Life.nc).map
          fun nc => (nc.size.toNat : Int) := by
      refine List.IsSuffix.map _ ?_
      rw [storyOf, storyOf, List.foldl_append]
      exact foldl_tell_ncs ((storyOf pre).tell (.load nc time junk)) post
    rw [hcons, hsizes] at hleft
    rw [← hsize]
    refine eq_of_suffixes hleft hright ?_
    simp only [List.length_map]
    exact htells.entries.length_eq
  have hsmall : nc.size.toNat < 2 ^ 31 := by
    by_contra hbig
    rw [toInt32_toInt, if_neg hbig] at hnew
    omega
  refine ⟨hsmall, fun hcode => fit_of_agree hsmall hcode (hagree ?_ hcode)⟩
  cases hrc₂ : st₂.rc with
  | ok => rfl
  | fail => rw [hgrows.rc hrc₂] at hrc; cases hrc

theorem forall_of_first {α : Type} {P : α → Prop} {xs : List α}
    (h : ∀ pre x post, xs = pre ++ x :: post → (∀ y ∈ pre, P y) → P x) : ∀ x ∈ xs, P x := by
  induction xs with
  | nil => exact fun x hx => by cases hx
  | cons x xs ih =>
    have hx : P x := h [] x xs rfl (List.forall_mem_nil P)
    refine List.forall_mem_cons.mpr ⟨hx, ih fun pre y post heq hpre => ?_⟩
    exact h (x :: pre) y post (by rw [heq, List.cons_append]) (List.forall_mem_cons.mpr ⟨hx, hpre⟩)

/-- Where the sizes fit the signed integers of the reader it gives back what was written, and it does
so for no other dump whose records are whole and have total sizes below 4 GiB. The file is what the
calls have put into the stream: their `fflush` is taken to succeed. -/
theorem jitDump_roundTrip_iff {target : AgentTarget} {openEnv closeEnv : CallEnv}
    {calls : List (CallEnv × AgentCall)} {d : DumpFile} {endTime : UInt64}
    (h : writeDump openEnv target calls closeEnv = some d) (ht : NotAtEnd endTime calls) :
    (Holdable target calls ∧ SizesFit calls → RoundTrip d.bytes endTime calls) ∧
    (Holdable target calls → RoundTrip d.bytes endTime calls → SizesFit calls) := by
  refine ⟨fun hfit => roundTrip_of_fit h ht hfit.1 hfit.2, fun hheld hround => ?_⟩
  obtain ⟨time, closeTime, hbytes⟩ := writeDump_bytes h hheld.whole
  have hat : At d.bytes (headerBytes target time openEnv.junk).length
      ((recordsOf calls).flatMap Record.bytes) := at_of_eq hbytes
  refine sizesFit_iff.mpr (forall_of_first fun pre r post hcalls hpre => ?_)
  cases r with
  | load nc time junk =>
    exact sizesFit_of_roundTrip hat (parseHeader_headerBytes hheld.1 hbytes) hheld.held ht.of_calls
      hcalls hpre hround
  | unload vma time => trivial
  | table codeAddr compileMap time junk => trivial

def targetX86 : AgentTarget := ⟨⟨[101, 108, 102], by decide⟩, 9, 8⟩

/-- Code of 16 bytes at an address of its own, one line of a table, and the unload. -/
def smallCalls : List (CallEnv × AgentCall) :=
  [(.fine 2, .writeNativeCode ⟨⟨[102], by decide⟩, 4096, some ⟨64, by decide, fun _ => 144⟩, 16⟩),
    (.fine 3, .writeDebugLineInfo 4096 [⟨4096, 7, ⟨[97], noNul_a⟩⟩]),
    (.fine 4, .unloadNativeCode 4096)]

theorem smallCalls_notAtEnd : NotAtEnd 6 smallCalls := by
  intro env vma hmem
  simp only [smallCalls, List.mem_cons, Prod.mk.injEq, List.not_mem_nil] at hmem
  rcases hmem with ⟨-, hcall⟩ | ⟨-, hcall⟩ | ⟨rfl, -⟩ | hnil
  · cases hcall
  · cases hcall
  · decide
  · exact hnil.elim

theorem smallCalls_holdable : Holdable targetX86 smallCalls := by
  refine ⟨by decide, fun env nc hmem => ?_, fun env codeAddr compileMap hmem => ?_⟩
  · simp only [smallCalls, List.mem_cons, Prod.mk.injEq, List.not_mem_nil] at hmem
    rcases hmem with ⟨rfl, hcall⟩ | ⟨-, hcall⟩ | ⟨-, hcall⟩ | hnil
    · cases hcall
      exact ⟨⟨fun k hk => (by cases hk), fun k hk => (by cases hk)⟩, by decide⟩
    · cases hcall
    · cases hcall
    · exact hnil.elim
  · simp only [smallCalls, List.mem_cons, Prod.mk.injEq, List.not_mem_nil] at hmem
    rcases hmem with ⟨-, hcall⟩ | ⟨rfl, hcall⟩ | ⟨-, hcall⟩ | hnil
    · cases hcall
    · cases hcall
      exact ⟨fun _ => ⟨⟨rfl, rfl⟩, ⟨rfl, rfl⟩, fun _ _ => rfl, fun _ => rfl, rfl⟩, by decide⟩
    · cases hcall
    · exact hnil.elim

theorem smallCalls_fit : SizesFit smallCalls := by
  intro env nc hmem
  simp only [smallCalls, List.mem_cons, Prod.mk.injEq, List.not_mem_nil] at hmem
  rcases hmem with ⟨-, hcall⟩ | ⟨-, hcall⟩ | ⟨-, hcall⟩ | hnil
  · cases hcall
    exact ⟨by decide, fun _ => by decide⟩
  · cases hcall
  · cases hcall
  · exact hnil.elim

theorem small_dump_roundTrip : ∃ d, writeDump (.fine 1) targetX86 smallCalls (.fine 5) = some d ∧
    RoundTrip d.bytes 6 smallCalls := by
  obtain ⟨d, hd⟩ : ∃ d, writeDump (.fine 1) targetX86 smallCalls (.fine 5) = some d :=
    Option.isSome_iff_exists.mp (by decide)
  exact ⟨d, hd, (jitDump_roundTrip_iff hd smallCalls_notAtEnd).1 ⟨smallCalls_holdable, smallCalls_fit⟩⟩

/-- Code of 2 GiB that the agent names without giving its bytes. -/
def bigCalls : List (CallEnv × AgentCall) :=
  [(.fine 2, .writeNativeCode ⟨⟨[102], by decide⟩, 4096, none, 0x80000000⟩)]

/-- The reader keeps the size of such code as a negative number. -/
theorem big_code_shrinks : ∃ d, writeDump (.fine 1) targetX86 bigCalls (.fine 3) = some d ∧
    NotAtEnd 6 bigCalls ∧ ¬ RoundTrip d.bytes 6 bigCalls := by
  obtain ⟨d, hd⟩ : ∃ d, writeDump (.fine 1) targetX86 bigCalls (.fine 3) = some d :=
    Option.isSome_iff_exists.mp (by decide)
  refine ⟨d, hd, fun env vma hmem => ?_, ?_⟩
  · simp only [bigCalls, List.mem_singleton, Prod.mk.injEq] at hmem
    cases hmem.2
  · rintro ⟨st, hparse, -, hentries, -⟩
    have hread : (writeDump (.fine 1) targetX86 bigCalls (.fine 3)).bind (fun d =>
        (parseAll d.bytes 6).map fun st => st.entries.map JitEntry.codeSize) = some [-2147483648] := by
      decide +kernel
    rw [hd, Option.bind_some, hparse, Option.map_some] at hread
    have hsizes := sizes_of_shows hentries
    rw [Option.some.inj hread] at hsizes
    exact absurd hsizes (by decide)

end Oprofile.JitDump
