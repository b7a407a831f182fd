import Oprofile.JitDump.Written

/-! The locks that the writers of the agent take, and what they return (`opagent.c`). -/
namespace Oprofile.JitDump

open Records Results

/-- A dump file with the lock on it and the lock count of its stream, and whether an `fwrite`, an `ftell` or
an `fseek` has failed. -/
structure LockedDump where
  dump : DumpFile
  flocked : Bool
  streamLocks : Nat
  failed : Bool

/-- `flock(LOCK_EX)`, which succeeds, and `flockfile`. -/
def LockedDump.lock (s : LockedDump) : LockedDump := { s with flocked := true, streamLocks := s.streamLocks + 1 }

/-- `funlockfile` and `flock(LOCK_UN)`. -/
def LockedDump.unlock (s : LockedDump) : LockedDump :=
  { s with flocked := false, streamLocks := s.streamLocks - 1 }

/-- The dump after calls on the stream. -/
def LockedDump.wrote (s : LockedDump) : Except DumpFile DumpFile → LockedDump
  | .ok d => { s with dump := d }
  | .error d => { s with dump := d, failed := true }

/-- An `fwrite` whose result is not looked at; there is nothing to fail if it has no bytes. -/
def LockedDump.fwriteUnchecked (env : CallEnv) (i : Nat) (bs : List UInt8) (s : LockedDump) : LockedDump :=
  if bs = [] then s else s.wrote (fwrite env i bs s.dump)

/-- `op_write_native_code`. -/
def LockedDump.opWriteNativeCode (env : CallEnv) (nc : NativeCode) (s : LockedDump) : Int × LockedDump :=
  match env.timeofday with
  | none => (-1, s)
  | some time =>
    if ¬ env.locked then (-1, s)
    else
      let s := s.lock
      let written := do
        let d ← fwrite env 0 (loadFormat.encode (nc.record time env.junk)) s.dump
        fwrite env 1 nc.symbolName.bytes d
      match written with
      | .error d => (-1, (s.wrote (.error d)).unlock)
      | .ok d =>
        let s := s.wrote (.ok d)
        let s := match nc.codeBytes with
          | some code => s.fwriteUnchecked env 2 code
          | none => s
        let s := if nc.paddingCount ≠ 0 then s.fwriteUnchecked env 3 (padBytes nc.paddingCount) else s
        (0, s.unlock)

/-- `op_write_debug_line_info`. -/
def LockedDump.opWriteDebugLineInfo (env : CallEnv) (codeAddr : UInt64) (compileMap : List DebugLineInfo)
    (s : LockedDump) : Int × LockedDump :=
  if compileMap = [] then (0, s)
  else
    match env.timeofday with
    | none => (-1, s)
    | some time =>
      if ¬ env.locked then (-1, s)
      else (0, (s.lock.wrote (writeDebugRecord env codeAddr compileMap time s.dump)).unlock)

/-- `op_unload_native_code`, which returns with both locks if the write fails. -/
def LockedDump.opUnloadNativeCode (env : CallEnv) (vma : UInt64) (s : LockedDump) : Int × LockedDump :=
  match env.timeofday with
  | none => (-1, s)
  | some time =>
    if ¬ env.locked then (-1, s)
    else
      match fwrite env 0 (unloadFormat.encode (unloadRecord vma time)) s.dump with
      | .error d => (-1, s.lock.wrote (.error d))
      | .ok d => (0, (s.lock.wrote (.ok d)).unlock)

def AgentCall.runLocked (env : CallEnv) : AgentCall → LockedDump → Int × LockedDump
  | .writeNativeCode nc => LockedDump.opWriteNativeCode env nc
  | .unloadNativeCode vma => LockedDump.opUnloadNativeCode env vma
  | .writeDebugLineInfo codeAddr compileMap => LockedDump.opWriteDebugLineInfo env codeAddr compileMap

/-- The call gets as far as the lock on the file, and obtains it. -/
structure AgentCall.ObtainsLock (env : CallEnv) (call : AgentCall) : Prop where
  time : env.timeofday.isSome
  locked : env.locked = true
  entries : ∀ codeAddr compileMap, call = .writeDebugLineInfo codeAddr compileMap → compileMap ≠ []

/-- On return both locks are released, and zero is returned only if nothing has failed. The last `fseek` of debug info
counts too, though the record is complete before it. -/
structure AgentCall.Balanced (env : CallEnv) (call : AgentCall) (s : LockedDump) : Prop where
  flocked : (call.runLocked env s).2.flocked = false
  streamLocks : (call.runLocked env s).2.streamLocks = s.streamLocks
  reports : (call.runLocked env s).1 = 0 → (call.runLocked env s).2.failed = false

/-- The stream calls that must work: of a native-code record the code and the padding, once record and name
are written; of the other records all. -/
def AgentCall.Works (env : CallEnv) : AgentCall → Prop
  | .writeNativeCode nc => env.short 0 = none → env.short 1 = none →
      (nc.codeBytes.getD [] ≠ [] → env.short 2 = none) ∧ (nc.paddingCount ≠ 0 → env.short 3 = none)
  | .writeDebugLineInfo _ compileMap => env.WritesTable compileMap
  | .unloadNativeCode _ => env.short 0 = none

section

variable {env : CallEnv} {d d' : DumpFile} {s : LockedDump} {i : Nat} {bs : List UInt8} {call : AgentCall}

theorem padBytes_eq_nil {count : UInt32} (h : padBytes count = []) : count = 0 := by
  have hlen := congrArg List.length h
  rw [padBytes, List.length_replicate] at hlen
  exact UInt32.toNat_inj.mp hlen

theorem error_of_short {k : Nat} (h : env.short i = some k) (bs : List UInt8) (d : DumpFile) :
    fwrite env i bs d = .error (d.put (bs.take k)) := by
  rw [fwrite, h]

/-- An unchecked write keeps the locks, and it has failed when it had bytes and fell short. -/
theorem fwriteUnchecked_spec (env : CallEnv) (i : Nat) (bs : List UInt8) (s : LockedDump) :
    (s.fwriteUnchecked env i bs).flocked = s.flocked ∧
    (s.fwriteUnchecked env i bs).streamLocks = s.streamLocks ∧
    ((s.fwriteUnchecked env i bs).failed = false ↔ s.failed = false ∧ (bs ≠ [] → env.short i = none)) := by
  rw [LockedDump.fwriteUnchecked]
  split_ifs with hnil
  · exact ⟨rfl, rfl, (and_iff_left fun hne => absurd hnil hne).symm⟩
  · cases hs : env.short i with
    | none =>
      rw [fwrite_works hs]
      exact ⟨rfl, rfl, (and_iff_left fun _ => rfl).symm⟩
    | some k =>
      rw [error_of_short hs]
      refine ⟨rfl, rfl, ?_⟩
      constructor
      · intro hok
        cases hok
      · rintro ⟨-, hshort⟩
        cases hshort hnil

/-! What each writer leaves of its locks. -/

theorem unloadNativeCode_balanced_iff {vma : UInt64} (h : (AgentCall.unloadNativeCode vma).ObtainsLock env)
    (hs : s.failed = false) : (AgentCall.unloadNativeCode vma).Balanced env s ↔ env.short 0 = none := by
  obtain ⟨time, htime⟩ := Option.isSome_iff_exists.mp h.time
  have hrun : (AgentCall.unloadNativeCode vma).runLocked env s =
      match fwrite env 0 (unloadFormat.encode (unloadRecord vma time)) s.dump with
      | .error d => (-1, s.lock.wrote (.error d))
      | .ok d => (0, (s.lock.wrote (.ok d)).unlock) := by
    rw [AgentCall.runLocked, LockedDump.opUnloadNativeCode, htime]
    dsimp only
    rw [if_neg (not_not.mpr h.locked)]
  constructor
  · intro hbalanced
    cases hshort : env.short 0 with
    | none => rfl
    | some k =>
      have hheld := hbalanced.flocked
      rw [hrun, error_of_short hshort] at hheld
      cases hheld
  · intro hshort
    rw [fwrite_works hshort] at hrun
    refine ⟨?_, ?_, fun _ => ?_⟩
    · rw [hrun]
      rfl
    · rw [hrun]
      rfl
    · rw [hrun]
      exact hs

theorem writeDebugLineInfo_balanced_iff {codeAddr : UInt64} {compileMap : List DebugLineInfo}
    (h : (AgentCall.writeDebugLineInfo codeAddr compileMap).ObtainsLock env) (hs : s.failed = false) :
    (AgentCall.writeDebugLineInfo codeAddr compileMap).Balanced env s ↔ env.WritesTable compileMap := by
  obtain ⟨time, htime⟩ := Option.isSome_iff_exists.mp h.time
  have hrun : (AgentCall.writeDebugLineInfo codeAddr compileMap).runLocked env s =
      (0, (s.lock.wrote (writeDebugRecord env codeAddr compileMap time s.dump)).unlock) := by
    rw [AgentCall.runLocked, LockedDump.opWriteDebugLineInfo, if_neg (h.entries _ _ rfl), htime]
    dsimp only
    rw [if_neg (not_not.mpr h.locked)]
  have hiff : (∃ d, writeDebugRecord env codeAddr compileMap time s.dump = .ok d) ↔ env.WritesTable compileMap :=
    writeDebugRecord_ok_iff
  rw [← hiff]
  constructor
  · intro hbalanced
    have hok := hbalanced.reports
    rw [hrun] at hok
    cases hwritten : writeDebugRecord env codeAddr compileMap time s.dump with
    | error d =>
      rw [hwritten] at hok
      cases hok rfl
    | ok d => exact ⟨d, rfl⟩
  · rintro ⟨d, hwritten⟩
    rw [hwritten] at hrun
    refine ⟨?_, ?_, fun _ => ?_⟩
    · rw [hrun]
      rfl
    · rw [hrun]
      rfl
    · rw [hrun]
      exact hs

/-- The record and the name, the writes that `op_write_native_code` checks. -/
theorem nativeHead_cases (env : CallEnv) (rec' name : List UInt8) (d : DumpFile) :
    (∃ d', (do
        let d ← fwrite env 0 rec' d
        fwrite env 1 name d) = .ok d' ∧ env.short 0 = none ∧ env.short 1 = none) ∨
      ∃ d', (do
        let d ← fwrite env 0 rec' d
        fwrite env 1 name d) = .error d' ∧ ¬(env.short 0 = none ∧ env.short 1 = none) := by
  cases h₀ : env.short 0 with
  | some k =>
    right
    refine ⟨d.put (rec'.take k), ?_, fun h => by cases h.1⟩
    rw [error_of_short h₀]
    rfl
  | none =>
    rw [ok_bind (fwrite_works h₀ rec' d)]
    cases h₁ : env.short 1 with
    | some k => exact Or.inr ⟨_, error_of_short h₁ _ _, fun h => by cases h.2⟩
    | none => exact Or.inl ⟨_, fwrite_works h₁ _ _, rfl, rfl⟩

theorem padBytes_ne_nil {count : UInt32} : padBytes count ≠ [] ↔ count ≠ 0 := by
  refine not_congr ⟨padBytes_eq_nil, ?_⟩
  rintro rfl
  rfl

/-- The dump with the code and the padding behind the name. -/
def LockedDump.withCode (env : CallEnv) (nc : NativeCode) (s : LockedDump) : LockedDump :=
  (s.fwriteUnchecked env 2 (nc.codeBytes.getD [])).fwriteUnchecked env 3 (padBytes nc.paddingCount)

/-- Code or padding that is not there is the same as none of their bytes. -/
theorem withCode_eq (env : CallEnv) (nc : NativeCode) (s : LockedDump) :
    (let s := match nc.codeBytes with
      | some code => s.fwriteUnchecked env 2 code
      | none => s
    if nc.paddingCount ≠ 0 then s.fwriteUnchecked env 3 (padBytes nc.paddingCount) else s) = s.withCode env nc := by
  have hcode : (match nc.codeBytes with
      | some code => s.fwriteUnchecked env 2 code
      | none => s) = s.fwriteUnchecked env 2 (nc.codeBytes.getD []) := by
    cases nc.codeBytes with
    | none => rfl
    | some code => rfl
  dsimp only
  rw [hcode, LockedDump.withCode]
  split_ifs with hpad
  · rfl
  · have hnil : padBytes nc.paddingCount = [] := not_not.mp fun hne => hpad (padBytes_ne_nil.mp hne)
    rw [hnil]
    rfl

theorem withCode_spec (env : CallEnv) (nc : NativeCode) (s : LockedDump) :
    (s.withCode env nc).flocked = s.flocked ∧ (s.withCode env nc).streamLocks = s.streamLocks ∧
      ((s.withCode env nc).failed = false ↔ s.failed = false ∧
        (nc.codeBytes.getD [] ≠ [] → env.short 2 = none) ∧ (nc.paddingCount ≠ 0 → env.short 3 = none)) := by
  obtain ⟨hflocked, hlocks, hfailed⟩ := fwriteUnchecked_spec env 2 (nc.codeBytes.getD []) s
  obtain ⟨hflocked', hlocks', hfailed'⟩ := fwriteUnchecked_spec env 3 (padBytes nc.paddingCount)
    (s.fwriteUnchecked env 2 (nc.codeBytes.getD []))
  refine ⟨hflocked'.trans hflocked, hlocks'.trans hlocks, ?_⟩
  rw [LockedDump.withCode, hfailed', hfailed, padBytes_ne_nil, and_assoc]

theorem writeNativeCode_balanced_iff {nc : NativeCode} (h : (AgentCall.writeNativeCode nc).ObtainsLock env)
    (hs : s.failed = false) :
    (AgentCall.writeNativeCode nc).Balanced env s ↔ (AgentCall.writeNativeCode nc).Works env := by
  obtain ⟨time, htime⟩ := Option.isSome_iff_exists.mp h.time
  rw [AgentCall.Works]
  rcases nativeHead_cases env (loadFormat.encode (nc.record time env.junk)) nc.symbolName.bytes s.dump with
    ⟨d, hhead, h₀, h₁⟩ | ⟨d, hhead, hfails⟩
  · have hrun : (AgentCall.writeNativeCode nc).runLocked env s =
        (0, ((s.lock.wrote (.ok d)).withCode env nc).unlock) := by
      rw [AgentCall.runLocked, LockedDump.opWriteNativeCode, htime]
      dsimp only
      rw [if_neg (not_not.mpr h.locked), ← withCode_eq]
      dsimp only [LockedDump.lock]
      rw [hhead]
    obtain ⟨-, hlocks, hfailed⟩ := withCode_spec env nc (s.lock.wrote (.ok d))
    constructor
    · intro hbalanced _ _
      have hok := hbalanced.reports
      rw [hrun] at hok
      exact (hfailed.mp (hok rfl)).2
    · intro hworks
      refine ⟨?_, ?_, fun _ => ?_⟩
      · rw [hrun]
        rfl
      · rw [hrun]
        change ((s.lock.wrote (.ok d)).withCode env nc).streamLocks - 1 = s.streamLocks
        rw [hlocks]
        rfl
      · rw [hrun]
        exact hfailed.mpr ⟨hs, hworks h₀ h₁⟩
  · have hrun : (AgentCall.writeNativeCode nc).runLocked env s = (-1, (s.lock.wrote (.error d)).unlock) := by
      rw [AgentCall.runLocked, LockedDump.opWriteNativeCode, htime]
      dsimp only
      rw [if_neg (not_not.mpr h.locked)]
      dsimp only [LockedDump.lock]
      rw [hhead]
    refine iff_of_true ⟨?_, ?_, ?_⟩ fun h₀ h₁ => absurd ⟨h₀, h₁⟩ hfails
    · rw [hrun]
      rfl
    · rw [hrun]
      rfl
    · rw [hrun]
      intro hzero
      cases hzero

/-- A writer that obtains the lock on the file gives both locks back, and reports what failed, exactly when
these calls on the stream work. -/
theorem agentCall_balanced_iff (env : CallEnv) (call : AgentCall) (s : LockedDump) (h : call.ObtainsLock env)
    (hs : s.failed = false) : call.Balanced env s ↔ call.Works env := by
  cases call with
  | writeNativeCode nc => exact writeNativeCode_balanced_iff h hs
  | unloadNativeCode vma => exact unloadNativeCode_balanced_iff h hs
  | writeDebugLineInfo codeAddr compileMap => exact writeDebugLineInfo_balanced_iff h hs

theorem put_nil (d : DumpFile) : d.put [] = d := by
  rw [DumpFile.put, List.append_nil, List.length_nil, Nat.add_zero, List.take_append_drop]

end

/-- The unload of a method, written without a failure. -/
theorem agentCall_balanced_iff_fine :
    (AgentCall.unloadNativeCode 4096).Balanced (.fine 2) ⟨⟨[], 0⟩, false, 0, false⟩ :=
  (agentCall_balanced_iff (.fine 2) (.unloadNativeCode 4096) ⟨⟨[], 0⟩, false, 0, false⟩
    ⟨rfl, rfl, fun _ _ h => by cases h⟩ rfl).mpr rfl

/-- A call where the first write fails. -/
def failingEnv : CallEnv := { CallEnv.fine 2 with short := fun _ => some 0 }

def unlockedDump : LockedDump := ⟨⟨[], 0⟩, false, 0, false⟩

/-- `op_unload_native_code` fails and keeps both locks; `op_write_debug_line_info` fails and returns zero. -/
theorem failed_write_keeps_locks :
    (AgentCall.unloadNativeCode 4096).ObtainsLock failingEnv ∧
      ((AgentCall.unloadNativeCode 4096).runLocked failingEnv unlockedDump).1 = -1 ∧
      ((AgentCall.unloadNativeCode 4096).runLocked failingEnv unlockedDump).2.flocked = true ∧
      ((AgentCall.unloadNativeCode 4096).runLocked failingEnv unlockedDump).2.streamLocks = 1 ∧
      ¬(AgentCall.unloadNativeCode 4096).Balanced failingEnv unlockedDump := by
  refine ⟨⟨rfl, rfl, fun _ _ h => by cases h⟩, rfl, rfl, rfl, fun h => ?_⟩
  have hreleased := h.flocked
  cases hreleased

end Oprofile.JitDump
