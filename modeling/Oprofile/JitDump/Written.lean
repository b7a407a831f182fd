import Oprofile.JitDump.Agent
import Oprofile.Library.Results
import Mathlib.Tactic.Common

/-! What successful calls leave in the dump file. -/
namespace Oprofile.JitDump

open Records Results

variable {env : CallEnv} {d d' : DumpFile} {i : Nat} {bs : List UInt8} {call : AgentCall}
  {calls : List (CallEnv × AgentCall)}

/-- The stream stands at the end of the file. -/
def DumpFile.AtEnd (d : DumpFile) : Prop := d.pos = d.bytes.length

/-- The file has grown by a block, and the stream stands behind it. -/
def Appended (d : DumpFile) (bs : List UInt8) (d' : DumpFile) : Prop :=
  d'.bytes = d.bytes ++ bs ∧ d'.AtEnd

theorem Appended.refl (h : d.AtEnd) : Appended d [] d := ⟨(List.append_nil _).symm, h⟩

theorem Appended.comp {cs : List UInt8} {d'' : DumpFile} (h : Appended d bs d')
    (h' : Appended d' cs d'') : Appended d (bs ++ cs) d'' :=
  ⟨by rw [h'.1, h.1, List.append_assoc], h'.2⟩

theorem put_appended (h : d.AtEnd) (bs : List UInt8) : Appended d bs (d.put bs) := by
  have hlen : d.bytes.length ≤ d.bytes.length + bs.length := Nat.le_add_right ..
  have hbytes : (d.put bs).bytes = d.bytes ++ bs := by
    simp only [DumpFile.put]
    rw [h, List.take_length, List.drop_eq_nil_of_le hlen, List.append_nil]
  refine ⟨hbytes, ?_⟩
  change d.pos + bs.length = _
  rw [hbytes, h, List.length_append]

theorem succeeded_returned {r : Except DumpFile DumpFile} (h : succeeded (returned r) = some d') :
    r = .ok d' := by
  cases r with
  | error e => cases h
  | ok d₁ =>
    cases h
    rfl

theorem fwrite_ok (h : fwrite env i bs d = .ok d') : d' = d.put bs := by
  rw [fwrite] at h
  cases hs : env.short i with
  | none =>
    rw [hs] at h
    cases h
    rfl
  | some k =>
    rw [hs] at h
    cases h

theorem ftell_ok {pos : Nat} (h : ftell env i d = .ok pos) : pos = d.pos := by
  rw [ftell] at h
  split_ifs at h
  cases h
  rfl

theorem fseek_ok {pos : Nat} (h : fseek env i pos d = .ok d') : d' = { d with pos := pos } := by
  rw [fseek] at h
  split_ifs at h
  cases h
  rfl

theorem fwrite_appended (hd : d.AtEnd) (h : fwrite env i bs d = .ok d') : Appended d bs d' := by
  rw [fwrite_ok h]
  exact put_appended hd bs

/-- A write that is not checked leaves all of its bytes, or those before it fell short. -/
def Whole (env : CallEnv) (i : Nat) (bs : List UInt8) : Prop :=
  ∀ k, env.short i = some k → bs.length ≤ k

theorem fwriteUnchecked_appended (hd : d.AtEnd) (i : Nat) (bs : List UInt8) :
    ∃ cs, Appended d cs (fwriteUnchecked env i bs d) ∧ (Whole env i bs → cs = bs) := by
  rw [fwriteUnchecked, fwrite]
  cases hs : env.short i with
  | none => exact ⟨bs, put_appended hd bs, fun _ => rfl⟩
  | some k =>
    refine ⟨bs.take k, put_appended hd _, fun hw => ?_⟩
    exact List.take_of_length_le (hw k hs)

/-! One call. -/

/-- Both writes that `op_write_native_code` does not check leave all of their bytes. -/
def NativeCode.Whole (env : CallEnv) (nc : NativeCode) : Prop :=
  JitDump.Whole env 2 (nc.codeBytes.getD []) ∧ JitDump.Whole env 3 (padBytes nc.paddingCount)

theorem padBytes_zero {count : UInt32} (h : ¬ count ≠ 0) : padBytes count = [] := by
  rw [not_not.mp h]
  rfl

theorem padded_appended (hd : d.AtEnd) (count : UInt32) :
    ∃ ps, Appended d ps (if count ≠ 0 then fwriteUnchecked env 3 (padBytes count) d else d) ∧
      (JitDump.Whole env 3 (padBytes count) → ps = padBytes count) := by
  split_ifs with hzero
  · exact fwriteUnchecked_appended hd 3 _
  · exact ⟨[], Appended.refl hd, fun _ => (padBytes_zero hzero).symm⟩

theorem opWriteNativeCode_appended {nc : NativeCode} (hd : d.AtEnd)
    (h : succeeded (opWriteNativeCode env nc d) = some d') :
    ∃ time tail, env.timeofday = some time ∧
      Appended d (loadFormat.encode (nc.record time env.junk) ++ nc.symbolName.bytes ++ tail) d' ∧
      (nc.Whole env → tail = nc.codeBytes.getD [] ++ padBytes nc.paddingCount) := by
  rw [opWriteNativeCode] at h
  cases htime : env.timeofday with
  | none =>
    rw [htime] at h
    cases h
  | some time =>
    rw [htime] at h
    by_cases hlock : ¬ env.locked
    · simp only [if_pos hlock] at h
      cases h
    simp only [if_neg hlock] at h
    obtain ⟨d₁, h₁, h⟩ := bind_ok (succeeded_returned h)
    obtain ⟨d₂, h₂, h⟩ := bind_ok h
    have happ₁ := fwrite_appended hd h₁
    have happ₂ := happ₁.comp (fwrite_appended happ₁.2 h₂)
    obtain ⟨cs, d₃, happ₃, hcs, h⟩ : ∃ cs d₃, Appended d₂ cs d₃ ∧
        (JitDump.Whole env 2 (nc.codeBytes.getD []) → cs = nc.codeBytes.getD []) ∧
        Except.ok (if nc.paddingCount ≠ 0 then fwriteUnchecked env 3 (padBytes nc.paddingCount) d₃ else d₃) =
          Except.ok d' := by
      cases hcode : nc.codeBytes with
      | none =>
        rw [hcode] at h
        exact ⟨[], d₂, Appended.refl happ₂.2, fun _ => rfl, h⟩
      | some code =>
        rw [hcode] at h
        obtain ⟨cs, hcs, hwhole⟩ := fwriteUnchecked_appended happ₂.2 2 code
        exact ⟨cs, _, hcs, hwhole, h⟩
    obtain ⟨ps, happ₄, hps⟩ := padded_appended happ₃.2 nc.paddingCount
    refine ⟨time, cs ++ ps, rfl, ?_, fun hw => ?_⟩
    · rw [← Except.ok.inj h]
      exact happ₂.comp (happ₃.comp happ₄)
    · rw [hcs hw.1, hps hw.2]

theorem opUnloadNativeCode_appended {vma : UInt64} (hd : d.AtEnd)
    (h : succeeded (opUnloadNativeCode env vma d) = some d') :
    ∃ time, env.timeofday = some time ∧
      Appended d (unloadFormat.encode (unloadRecord vma time)) d' := by
  rw [opUnloadNativeCode] at h
  cases htime : env.timeofday with
  | none =>
    rw [htime] at h
    cases h
  | some time =>
    rw [htime] at h
    simp only at h
    split_ifs at h with hlock
    · exact ⟨time, rfl, fwrite_appended hd (succeeded_returned h)⟩
    · cases h

theorem opCloseAgent_appended (hd : d.AtEnd) (h : succeeded (opCloseAgent env d) = some d') :
    ∃ time, Appended d (closeFormat.encode (closeRecord time)) d' := by
  rw [opCloseAgent] at h
  cases htime : env.timeofday with
  | none =>
    rw [htime] at h
    cases h
  | some time =>
    rw [htime] at h
    simp only at h
    split_ifs at h with hlock
    · exact ⟨time, fwrite_appended hd (succeeded_returned h)⟩
    · cases h

/-- A line of a table as it lies in the file. -/
def DebugLineInfo.bytes (entry : DebugLineInfo) : List UInt8 :=
  u64.encode entry.vma ++ u32.encode entry.lineno ++ entry.filename.bytes

theorem writeEntries_appended {entries : List DebugLineInfo} (hd : d.AtEnd)
    (h : writeEntries env i entries d = .ok d') :
    Appended d (entries.flatMap DebugLineInfo.bytes) d' := by
  induction entries generalizing i d with
  | nil =>
    cases h
    exact Appended.refl hd
  | cons entry entries ih =>
    obtain ⟨d₁, h₁, h⟩ := bind_ok h
    obtain ⟨d₂, h₂, h⟩ := bind_ok h
    obtain ⟨d₃, h₃, h⟩ := bind_ok h
    have happ₁ := fwrite_appended hd h₁
    have happ₂ := happ₁.comp (fwrite_appended happ₁.2 h₂)
    have happ₃ := happ₂.comp (fwrite_appended happ₂.2 h₃)
    rw [List.flatMap_cons]
    exact happ₃.comp (ih happ₃.2 h)

/-- What `last_pos - cur_pos` comes to. -/
def tableSize (compileMap : List DebugLineInfo) : UInt32 :=
  UInt32.ofNat (debugFormat.width + (compileMap.flatMap DebugLineInfo.bytes).length)

/-- A whole debug record. -/
def tableBytes (codeAddr : UInt64) (compileMap : List DebugLineInfo) (time : UInt64) (junk : UInt32) :
    List UInt8 :=
  debugFormat.encode (debugRecord codeAddr compileMap time junk
    (tableSize compileMap + padding8Aligned (tableSize compileMap))) ++
  compileMap.flatMap DebugLineInfo.bytes ++ padBytes (padding8Aligned (tableSize compileMap))

theorem padded_ok {count : UInt32} (hd : d.AtEnd)
    (h : (if count ≠ 0 then fwrite env i (padBytes count) d else .ok d) = .ok d') :
    Appended d (padBytes count) d' := by
  split_ifs at h with hzero
  · exact fwrite_appended hd h
  · cases h
    rw [padBytes_zero hzero]
    exact Appended.refl hd

/-- The second write of the record replaces the first one and nothing else. -/
theorem put_back {rec₀ rest : List UInt8} (rec₁ : List UInt8) (h : d'.bytes = d.bytes ++ (rec₀ ++ rest))
    (hlen : rec₀.length = rec₁.length) :
    (({ d' with pos := d.bytes.length } : DumpFile).put rec₁).bytes = d.bytes ++ (rec₁ ++ rest) := by
  simp only [DumpFile.put]
  rw [h, List.take_left, List.drop_append, ← hlen, List.append_assoc]
  simp

/-- The calls that write a table and put its total size into the record all work. -/
structure CallEnv.WritesTable (env : CallEnv) (compileMap : List DebugLineInfo) : Prop where
  tells : env.tellFails 0 = false ∧ env.tellFails 1 = false
  seeks : env.seekFails 0 = false ∧ env.seekFails 1 = false
  entries : ∀ i ≤ 3 * compileMap.length, env.short i = none
  padding : padding8Aligned (tableSize compileMap) ≠ 0 → env.short (1 + 3 * compileMap.length) = none
  record : env.short (1 + 3 * compileMap.length + 1) = none

theorem fwrite_works (h : env.short i = none) (bs : List UInt8) (d : DumpFile) : fwrite env i bs d = .ok (d.put bs) := by
  rw [fwrite, h]

theorem short_of_ok (h : fwrite env i bs d = .ok d') : env.short i = none := by
  rw [fwrite] at h
  cases hs : env.short i with
  | none => rfl
  | some k =>
    rw [hs] at h
    cases h

theorem tellFails_of_ok {pos : Nat} (h : ftell env i d = .ok pos) : env.tellFails i = false := by
  rw [ftell] at h
  split_ifs at h with hfails
  exact Bool.eq_false_iff.mpr hfails

theorem seekFails_of_ok {pos : Nat} (h : fseek env i pos d = .ok d') : env.seekFails i = false := by
  rw [fseek] at h
  split_ifs at h with hfails
  exact Bool.eq_false_iff.mpr hfails

theorem put_pos (d : DumpFile) (bs : List UInt8) : (d.put bs).pos = d.pos + bs.length := rfl

/-- The writes of the loop move the stream by the bytes of the entries. -/
theorem writeEntries_pos {entries : List DebugLineInfo} (h : writeEntries env i entries d = .ok d') :
    d'.pos = d.pos + (entries.flatMap DebugLineInfo.bytes).length := by
  induction entries generalizing i d with
  | nil =>
    cases h
    rfl
  | cons entry entries ih =>
    obtain ⟨d₁, h₁, h⟩ := bind_ok h
    obtain ⟨d₂, h₂, h⟩ := bind_ok h
    obtain ⟨d₃, h₃, h⟩ := bind_ok h
    have hpos := ih h
    rw [fwrite_ok h₃, put_pos, fwrite_ok h₂, put_pos, fwrite_ok h₁, put_pos] at hpos
    rw [hpos, List.flatMap_cons, DebugLineInfo.bytes]
    simp only [List.length_append]
    omega

theorem writeEntries_ok_iff {entries : List DebugLineInfo} :
    (∃ d', writeEntries env i entries d = .ok d') ↔ ∀ k < 3 * entries.length, env.short (i + k) = none := by
  induction entries generalizing i d with
  | nil => exact ⟨fun _ k hk => absurd hk (Nat.not_lt_zero k), fun _ => ⟨d, rfl⟩⟩
  | cons entry entries ih =>
    rw [List.length_cons]
    constructor
    · rintro ⟨d', h⟩ k hk
      obtain ⟨d₁, h₁, h⟩ := bind_ok h
      obtain ⟨d₂, h₂, h⟩ := bind_ok h
      obtain ⟨d₃, h₃, h⟩ := bind_ok h
      rcases Nat.lt_or_ge k 3 with hlt | hge
      · rcases (show k = 0 ∨ k = 1 ∨ k = 2 by omega) with rfl | rfl | rfl
        · exact short_of_ok h₁
        · exact short_of_ok h₂
        · exact short_of_ok h₃
      · have hrest := ih.mp ⟨d', h⟩ (k - 3) (by omega)
        rwa [show i + 3 + (k - 3) = i + k by omega] at hrest
    · intro h
      have hrest : ∀ k < 3 * entries.length, env.short (i + 3 + k) = none := by
        intro k hk
        rw [Nat.add_assoc]
        exact h (3 + k) (by omega)
      have h₁ := fwrite_works (h 0 (by omega)) (u64.encode entry.vma) d
      have h₂ := fwrite_works (h 1 (by omega)) (u32.encode entry.lineno) (d.put (u64.encode entry.vma))
      have h₃ := fwrite_works (h 2 (by omega)) entry.filename.bytes
        ((d.put (u64.encode entry.vma)).put (u32.encode entry.lineno))
      obtain ⟨d', h'⟩ := (ih (d := ((d.put (u64.encode entry.vma)).put (u32.encode entry.lineno)).put
        entry.filename.bytes)).mpr hrest
      refine ⟨d', ?_⟩
      rw [Nat.add_zero] at h₁
      rw [writeEntries, ok_bind h₁, ok_bind h₂, ok_bind h₃]
      exact h'

theorem ftell_works (h : env.tellFails i = false) (d : DumpFile) : ftell env i d = .ok d.pos := by
  rw [ftell, h]
  rfl

theorem fseek_works (h : env.seekFails i = false) (pos : Nat) (d : DumpFile) :
    fseek env i pos d = .ok { d with pos := pos } := by
  rw [fseek, h]
  rfl

/-- What `last_pos - cur_pos` is once the entries are written. -/
theorem lastPos_sub {compileMap : List DebugLineInfo} {rec₀ : JrCodeDebugInfo} {d₁ d₂ : DumpFile}
    (h₁ : d₁ = d.put (debugFormat.encode rec₀)) (h₂ : writeEntries env i compileMap d₁ = .ok d₂) :
    UInt32.ofNat (d₂.pos - d.pos) = tableSize compileMap := by
  rw [writeEntries_pos h₂, h₁, put_pos, Format.length_encode, tableSize]
  congr 1
  omega

/-- The writes come to their end exactly when all the calls work. -/
theorem writeDebugRecord_ok_iff {codeAddr : UInt64} {compileMap : List DebugLineInfo} {time : UInt64} :
    (∃ d', writeDebugRecord env codeAddr compileMap time d = .ok d') ↔ env.WritesTable compileMap := by
  constructor
  · rintro ⟨d', h⟩
    obtain ⟨curPos, hcur, h⟩ := bind_ok h
    obtain ⟨d₁, h₁, h⟩ := bind_ok h
    obtain ⟨d₂, h₂, h⟩ := bind_ok h
    obtain ⟨lastPos, hlast, h⟩ := bind_ok h
    obtain ⟨d₃, h₃, h⟩ := ite_bind_ok h
    obtain ⟨d₄, h₄, h⟩ := bind_ok h
    obtain ⟨d₅, h₅, h⟩ := bind_ok h
    rw [ftell_ok hlast, ftell_ok hcur, lastPos_sub (fwrite_ok h₁) h₂] at h₃
    have hentries := writeEntries_ok_iff.mp ⟨d₂, h₂⟩
    refine ⟨⟨tellFails_of_ok hcur, tellFails_of_ok hlast⟩, ⟨seekFails_of_ok h₄, seekFails_of_ok h⟩, ?_, ?_,
      short_of_ok h₅⟩
    · intro k hk
      rcases Nat.eq_zero_or_pos k with rfl | hpos
      · exact short_of_ok h₁
      · have hk' := hentries (k - 1) (by omega)
        rwa [show 1 + (k - 1) = k by omega] at hk'
    · intro hne
      rw [if_pos hne] at h₃
      exact short_of_ok h₃
  · intro h
    have h₁ := fwrite_works (h.entries 0 (Nat.zero_le _))
      (debugFormat.encode (debugRecord codeAddr compileMap time env.junk 0)) d
    have hentries : ∀ k < 3 * compileMap.length, env.short (1 + k) = none := by
      intro k hk
      exact h.entries (1 + k) (by omega)
    obtain ⟨d₂, h₂⟩ := writeEntries_ok_iff.mpr hentries
    rw [writeDebugRecord]
    dsimp only
    rw [ok_bind (ftell_works h.tells.1 d), ok_bind h₁, ok_bind h₂, ok_bind (ftell_works h.tells.2 d₂),
      lastPos_sub rfl h₂]
    have hlast : ∀ d₃ : DumpFile, ∃ d', (do
        let d ← fseek env 0 d.pos d₃
        let d ← fwrite env (1 + 3 * compileMap.length + 1) (debugFormat.encode (debugRecord codeAddr compileMap time
          env.junk (tableSize compileMap + padding8Aligned (tableSize compileMap)))) d
        fseek env 1 (d₂.pos + (padding8Aligned (tableSize compileMap)).toNat) d) = .ok d' := by
      intro d₃
      rw [ok_bind (fseek_works h.seeks.1 d.pos d₃), ok_bind (fwrite_works h.record _ _)]
      exact ⟨_, fseek_works h.seeks.2 _ _⟩
    by_cases hpad : padding8Aligned (tableSize compileMap) ≠ 0
    · rw [if_pos hpad, ok_bind (fwrite_works (h.padding hpad) _ _)]
      exact hlast _
    · rw [if_neg hpad]
      exact hlast _

theorem opWriteDebugLineInfo_appended {codeAddr : UInt64} {compileMap : List DebugLineInfo}
    (hd : d.AtEnd) (hne : compileMap ≠ []) (hworks : env.WritesTable compileMap)
    (h : succeeded (opWriteDebugLineInfo env codeAddr compileMap d) = some d') :
    ∃ time, env.timeofday = some time ∧
      Appended d (tableBytes codeAddr compileMap time env.junk) d' := by
  rw [opWriteDebugLineInfo, if_neg hne] at h
  cases htime : env.timeofday with
  | none =>
    rw [htime] at h
    cases h
  | some time =>
    rw [htime] at h
    by_cases hlock : ¬ env.locked
    · simp only [if_pos hlock] at h
      cases h
    simp only [if_neg hlock] at h
    obtain ⟨d₀, hwritten⟩ := writeDebugRecord_ok_iff.mpr hworks
    rw [hwritten] at h
    cases h
    obtain ⟨curPos, hcur, h⟩ := bind_ok hwritten
    obtain ⟨d₁, h₁, h⟩ := bind_ok h
    obtain ⟨d₂, h₂, h⟩ := bind_ok h
    obtain ⟨lastPos, hlast, h⟩ := bind_ok h
    obtain ⟨d₃, h₃, h⟩ := ite_bind_ok h
    obtain ⟨d₄, h₄, h⟩ := bind_ok h
    obtain ⟨d₅, h₅, h⟩ := bind_ok h
    have hcur' : curPos = d.bytes.length := (ftell_ok hcur).trans hd
    have happ₁ := fwrite_appended hd h₁
    have happ₂ := happ₁.comp (writeEntries_appended happ₁.2 h₂)
    have hlast' : lastPos = d₂.bytes.length := (ftell_ok hlast).trans happ₂.2
    have hsize : UInt32.ofNat (lastPos - curPos) = tableSize compileMap := by
      rw [ftell_ok hlast, ftell_ok hcur]
      exact lastPos_sub (fwrite_ok h₁) h₂
    rw [hsize] at h₃ h₅ h
    have happ₃ := happ₂.comp (padded_ok happ₂.2 h₃)
    rw [fseek_ok h₄, hcur'] at h₅
    rw [fseek_ok h, fwrite_ok h₅]
    have hbytes : d₃.bytes = d.bytes ++ (debugFormat.encode (debugRecord codeAddr compileMap time
        env.junk 0) ++ (compileMap.flatMap DebugLineInfo.bytes ++
          padBytes (padding8Aligned (tableSize compileMap)))) := by
      rw [happ₃.1]
      simp only [List.append_assoc]
    have hback := put_back (debugFormat.encode (debugRecord codeAddr compileMap time env.junk
      (tableSize compileMap + padding8Aligned (tableSize compileMap)))) hbytes (by simp)
    refine ⟨time, rfl, ?_, ?_⟩
    · rw [tableBytes, List.append_assoc]
      exact hback
    · refine Eq.trans ?_ (congrArg List.length hback).symm
      change lastPos + (padding8Aligned (tableSize compileMap)).toNat = _
      rw [hlast', happ₂.1]
      simp only [List.length_append, Format.length_encode, padBytes, List.length_replicate]
      omega

end Oprofile.JitDump
