import Oprofile.Library.Turns
import Oprofile.JitDump.AgentLocks
import Mathlib.Data.List.Basic
import Mathlib.Logic.Function.Basic
import Mathlib.Logic.Relation

/-! Threads that write to one dump through one stream, and the process that copies it meanwhile
(`opagent.c`, `opjitconv.c`). -/
namespace Oprofile.JitDump

open Records Turns

/-- What a call has still to do with the stream it has locked; at its end it gives its locks back, or not. -/
inductive StreamProg
  | ret (rc : Int) (unlocks : Bool)
  | put (bs : List UInt8) (next : StreamProg)
  | tell (next : Nat → StreamProg)
  | seek (pos : Nat) (next : StreamProg)

namespace StreamProg

/-- The `i`-th `fwrite` of a call, and how the call goes on. -/
def fwrite (env : CallEnv) (i : Nat) (bs : List UInt8) (ok fail : StreamProg) : StreamProg :=
  match env.short i with
  | none => .put bs ok
  | some k => .put (bs.take k) fail

def ftell (env : CallEnv) (i : Nat) (ok : Nat → StreamProg) (fail : StreamProg) : StreamProg :=
  if env.tellFails i then fail else .tell ok

def fseek (env : CallEnv) (i : Nat) (pos : Nat) (ok fail : StreamProg) : StreamProg :=
  if env.seekFails i then fail else .seek pos ok

/-- `op_write_native_code` between its locks. -/
def writeNativeCode (env : CallEnv) (nc : NativeCode) (time : UInt64) : StreamProg :=
  let padding := if nc.paddingCount ≠ 0
    then fwrite env 3 (padBytes nc.paddingCount) (.ret 0 true) (.ret 0 true)
    else .ret 0 true
  let code := match nc.codeBytes with
    | some code => fwrite env 2 code padding padding
    | none => padding
  fwrite env 0 (loadFormat.encode (nc.record time env.junk))
    (fwrite env 1 nc.symbolName.bytes code (.ret (-1) true)) (.ret (-1) true)

/-- The loop over the entries, from the `i`-th write on. -/
def writeEntries (env : CallEnv) : Nat → List DebugLineInfo → StreamProg → StreamProg → StreamProg
  | _, [], ok, _ => ok
  | i, entry :: entries, ok, fail =>
    fwrite env i (u64.encode entry.vma)
      (fwrite env (i + 1) (u32.encode entry.lineno)
        (fwrite env (i + 2) entry.filename.bytes (writeEntries env (i + 3) entries ok fail) fail) fail) fail

/-- The end of `op_write_debug_line_info`: the padding, and the record once more with its total size. -/
def patchRecord (env : CallEnv) (codeAddr : UInt64) (compileMap : List DebugLineInfo) (time : UInt64)
    (curPos lastPos : Nat) : StreamProg :=
  let done := 1 + 3 * compileMap.length
  let totalSize := UInt32.ofNat (lastPos - curPos)
  let paddingCount := padding8Aligned totalSize
  let record := fseek env 0 curPos
    (fwrite env (done + 1)
      (debugFormat.encode (debugRecord codeAddr compileMap time env.junk (totalSize + paddingCount)))
      (fseek env 1 (lastPos + paddingCount.toNat) (.ret 0 true) (.ret 0 true)) (.ret 0 true)) (.ret 0 true)
  if paddingCount ≠ 0 then fwrite env done (padBytes paddingCount) record (.ret 0 true) else record

/-- `op_write_debug_line_info` between its locks. -/
def writeDebugLineInfo (env : CallEnv) (codeAddr : UInt64) (compileMap : List DebugLineInfo) (time : UInt64) :
    StreamProg :=
  ftell env 0 (fun curPos =>
    fwrite env 0 (debugFormat.encode (debugRecord codeAddr compileMap time env.junk 0))
      (writeEntries env 1 compileMap
        (ftell env 1 (patchRecord env codeAddr compileMap time curPos) (.ret 0 true)) (.ret 0 true))
      (.ret 0 true)) (.ret 0 true)

/-- `op_unload_native_code` between its locks, which it keeps if the write fails. -/
def unloadNativeCode (env : CallEnv) (vma time : UInt64) : StreamProg :=
  fwrite env 0 (unloadFormat.encode (unloadRecord vma time)) (.ret 0 true) (.ret (-1) false)

/-- What the call returns, and the dump it leaves. -/
def run : StreamProg → DumpFile → Int × DumpFile
  | .ret rc _, d => (rc, d)
  | .put bs next, d => next.run (d.put bs)
  | .tell next, d => (next d.pos).run d
  | .seek pos next, d => next.run { d with pos := pos }

/-- One call on the stream, as it changes the dump. -/
def step : StreamProg → DumpFile → Option (StreamProg × DumpFile)
  | .ret _ _, _ => none
  | .put bs next, d => some (next, d.put bs)
  | .tell next, d => some (next d.pos, d)
  | .seek pos next, d => some (next, { d with pos := pos })

end StreamProg

/-- A call that comes as far as its locks, and what it does then. -/
def AgentCall.prog (env : CallEnv) (call : AgentCall) : Option StreamProg :=
  match env.timeofday with
  | none => none
  | some time =>
    match call with
    | .writeNativeCode nc => some (.writeNativeCode env nc time)
    | .unloadNativeCode vma => some (.unloadNativeCode env vma time)
    | .writeDebugLineInfo codeAddr compileMap =>
      if compileMap = [] then none else some (.writeDebugLineInfo env codeAddr compileMap time)

/-- The stream: what the file holds, and the bytes from `start` on that are still in the buffer. -/
structure Stream where
  disk : List UInt8
  start : Nat
  buffer : List UInt8

namespace Stream

/-- The dump as the writers see it. -/
def dump (s : Stream) : DumpFile := (⟨s.disk, s.start⟩ : DumpFile).put s.buffer

/-- The first bytes of the buffer go to the file. -/
def spill (s : Stream) (k : Nat) : Stream where
  disk := ((⟨s.disk, s.start⟩ : DumpFile).put (s.buffer.take k)).bytes
  start := s.start + (s.buffer.take k).length
  buffer := s.buffer.drop k

/-- `fflush`, where it succeeds. -/
def flush (s : Stream) : Stream := s.spill s.buffer.length

def write (s : Stream) (bs : List UInt8) : Stream := { s with buffer := s.buffer ++ bs }

/-- `fseek`, which flushes first. -/
def seek (s : Stream) (pos : Nat) : Stream := { s.flush with start := pos }

end Stream

/-- One call on the stream. -/
def StreamProg.access : StreamProg → Stream → Option (StreamProg × Stream)
  | .ret _ _, _ => none
  | .put bs next, s => some (next, s.write bs)
  | .tell next, s => some (next s.dump.pos, s)
  | .seek pos next, s => some (next, s.seek pos)

/-- Where a thread is in the writers. -/
inductive WriterPlace
  | out
  | flocked (call : CallEnv × AgentCall) (prog : StreamProg)
  | inside (call : CallEnv × AgentCall) (prog rest : StreamProg)
  | flushed
  | unlocked

/-- Which open file has the lock of `flock`: one descriptor serves all threads of the agent. -/
inductive FileLock
  | free
  | agent
  | converter
  deriving DecidableEq

/-- A dump with the threads `T` that write to it. The stream lock has an owner and counts how often he took it
before; `ended` and `copies` are the calls and the copies that have come to their end. -/
structure SharedDump (T : Type) where
  stream : Stream
  fileLock : FileLock
  streamLock : Option (T × Nat)
  place : T → WriterPlace
  ended : List (CallEnv × AgentCall)
  copying : Option (List UInt8)
  copies : List (List UInt8)

namespace SharedDump

variable {T : Type} [DecidableEq T]

/-- `flockfile`, where it does not block. -/
def takeStream (t : T) : Option (T × Nat) → Option (T × Nat)
  | none => some (t, 0)
  | some (u, n) => some (u, n + 1)

/-- `funlockfile`. -/
def giveStream : Option (T × Nat) → Option (T × Nat)
  | some (t, n + 1) => some (t, n)
  | _ => none

/-- `flock(LOCK_UN)` by the agent, which leaves the lock of another open file alone. -/
def giveFile : FileLock → FileLock
  | .agent => .free
  | lock => lock

/-- The threads, the stream buffer and the copying process move in any order. Which first parts of its buffer the
stream may write out by itself is up to `spills`. -/
inductive Step (spills : Stream → Nat → Prop) : SharedDump T → SharedDump T → Prop
  | flock {s : SharedDump T} {t : T} {call : CallEnv × AgentCall} {prog : StreamProg} :
      s.place t = .out → call.1.locked = true → s.fileLock ≠ .converter → call.2.prog call.1 = some prog →
      Step spills s { s with fileLock := .agent, place := Function.update s.place t (.flocked call prog) }
  | flockfile {s : SharedDump T} {t : T} {call : CallEnv × AgentCall} {prog : StreamProg} :
      s.place t = .flocked call prog → (∀ u n, s.streamLock = some (u, n) → u = t) →
      Step spills s { s with streamLock := takeStream t s.streamLock,
                             place := Function.update s.place t (.inside call prog prog) }
  | access {s : SharedDump T} {t : T} {call : CallEnv × AgentCall} {prog rest rest' : StreamProg}
      {stream : Stream} : s.place t = .inside call prog rest → rest.access s.stream = some (rest', stream) →
      Step spills s { s with stream := stream, place := Function.update s.place t (.inside call prog rest') }
  | spill {s : SharedDump T} {k : Nat} : spills s.stream k →
      Step spills s { s with stream := s.stream.spill k }
  -- `fflush_unlocked` is taken to succeed: no writer looks at what it returns
  | fflush {s : SharedDump T} {t : T} {call : CallEnv × AgentCall} {prog : StreamProg} {rc : Int} :
      s.place t = .inside call prog (.ret rc true) →
      Step spills s { s with stream := s.stream.flush, place := Function.update s.place t .flushed,
                             ended := s.ended ++ [call] }
  | keepLocks {s : SharedDump T} {t : T} {call : CallEnv × AgentCall} {prog : StreamProg} {rc : Int} :
      s.place t = .inside call prog (.ret rc false) →
      Step spills s { s with place := Function.update s.place t .out, ended := s.ended ++ [call] }
  | funlockfile {s : SharedDump T} {t : T} : s.place t = .flushed →
      Step spills s { s with streamLock := giveStream s.streamLock, place := Function.update s.place t .unlocked }
  | unflock {s : SharedDump T} {t : T} : s.place t = .unlocked →
      Step spills s { s with fileLock := giveFile s.fileLock, place := Function.update s.place t .out }
  | lockCopy {s : SharedDump T} : s.copying = none → s.fileLock = .free →
      Step spills s { s with fileLock := .converter, copying := some [] }
  | readCopy {s : SharedDump T} {got : List UInt8} (k : Nat) : s.copying = some got →
      got.length < s.stream.disk.length →
      Step spills s { s with copying := some (got ++ (s.stream.disk.drop got.length).take (k + 1)) }
  | closeCopy {s : SharedDump T} {got : List UInt8} : s.copying = some got →
      s.stream.disk.length ≤ got.length →
      Step spills s { s with fileLock := .free, copying := none, copies := s.copies ++ [got] }

/-- The dump that `op_open_agent` has left, and no thread in a call. -/
def opened (d : DumpFile) : SharedDump T where
  stream := ⟨d.bytes, d.pos, []⟩
  fileLock := .free
  streamLock := none
  place := fun _ => .out
  ended := []
  copying := none
  copies := []

/-- The states that the threads and the copying process can come to. -/
def Reachable (spills : Stream → Nat → Prop) (d : DumpFile) (s : SharedDump T) : Prop :=
  Relation.ReflTransGen (Step spills) (opened d) s

end SharedDump

/-! The programs do what the calls do to the dump. -/

section Calls

variable {env : CallEnv} {i : Nat} {bs : List UInt8} {d d' : DumpFile} {ok fail prog rest : StreamProg}
  {call : AgentCall}

namespace StreamProg

theorem run_fwrite_ok (h : JitDump.fwrite env i bs d = .ok d') : (fwrite env i bs ok fail).run d = ok.run d' := by
  rw [fwrite_ok h, fwrite, short_of_ok h]
  rfl

theorem run_fwrite_error (h : JitDump.fwrite env i bs d = .error d') :
    (fwrite env i bs ok fail).run d = fail.run d' := by
  rw [JitDump.fwrite] at h
  rw [fwrite]
  cases hshort : env.short i with
  | none =>
    rw [hshort] at h
    cases h
  | some k =>
    rw [hshort] at h
    cases h
    rfl

/-- A write whose result is not looked at. -/
theorem run_unchecked (env : CallEnv) (i : Nat) (bs : List UInt8) (next : StreamProg) (d : DumpFile) :
    (fwrite env i bs next next).run d = next.run (fwriteUnchecked env i bs d) := by
  rw [fwriteUnchecked]
  cases h : JitDump.fwrite env i bs d with
  | ok d' => exact run_fwrite_ok h
  | error d' => exact run_fwrite_error h

theorem run_writeNativeCode (hlocked : env.locked = true) (nc : NativeCode) {time : UInt64}
    (htime : env.timeofday = some time) (d : DumpFile) :
    (writeNativeCode env nc time).run d = opWriteNativeCode env nc d := by
  rw [opWriteNativeCode, htime]
  dsimp only
  rw [if_neg (not_not.mpr hlocked)]
  cases hrec : JitDump.fwrite env 0 (loadFormat.encode (nc.record time env.junk)) d with
  | error d₁ => exact run_fwrite_error hrec
  | ok d₁ =>
    refine (run_fwrite_ok hrec).trans ?_
    rw [Results.ok_bind rfl]
    cases hname : JitDump.fwrite env 1 nc.symbolName.bytes d₁ with
    | error d₂ => exact run_fwrite_error hname
    | ok d₂ =>
      refine (run_fwrite_ok hname).trans ?_
      rw [Results.ok_bind rfl]
      have hpadding : ∀ d : DumpFile, (if nc.paddingCount ≠ 0
          then fwrite env 3 (padBytes nc.paddingCount) (.ret 0 true) (.ret 0 true)
          else .ret 0 true : StreamProg).run d =
            (0, if nc.paddingCount ≠ 0 then fwriteUnchecked env 3 (padBytes nc.paddingCount) d else d) := by
        intro d
        split_ifs
        · exact run_unchecked ..
        · rfl
      cases nc.codeBytes with
      | none => exact hpadding d₂
      | some code => exact (run_unchecked ..).trans (hpadding _)

theorem run_unloadNativeCode (hlocked : env.locked = true) (vma : UInt64) {time : UInt64}
    (htime : env.timeofday = some time) (d : DumpFile) :
    (unloadNativeCode env vma time).run d = opUnloadNativeCode env vma d := by
  rw [opUnloadNativeCode, htime]
  dsimp only
  rw [if_neg (not_not.mpr hlocked)]
  cases hrec : JitDump.fwrite env 0 (unloadFormat.encode (unloadRecord vma time)) d with
  | error d₁ => exact run_fwrite_error hrec
  | ok d₁ => exact run_fwrite_ok hrec

theorem run_writeEntries_ok {entries : List DebugLineInfo} (h : JitDump.writeEntries env i entries d = .ok d') :
    (writeEntries env i entries ok fail).run d = ok.run d' := by
  induction entries generalizing i d with
  | nil =>
    cases h
    rfl
  | cons entry entries ih =>
    obtain ⟨d₁, h₁, h⟩ := Results.bind_ok h
    obtain ⟨d₂, h₂, h⟩ := Results.bind_ok h
    obtain ⟨d₃, h₃, h⟩ := Results.bind_ok h
    exact (run_fwrite_ok h₁).trans ((run_fwrite_ok h₂).trans ((run_fwrite_ok h₃).trans (ih h)))

theorem run_writeEntries_error {entries : List DebugLineInfo}
    (h : JitDump.writeEntries env i entries d = .error d') :
    (writeEntries env i entries ok fail).run d = fail.run d' := by
  induction entries generalizing i d with
  | nil => cases h
  | cons entry entries ih =>
    rw [JitDump.writeEntries] at h
    cases h₁ : JitDump.fwrite env i (u64.encode entry.vma) d with
    | error d₁ =>
      rw [h₁] at h
      cases h
      exact run_fwrite_error h₁
    | ok d₁ =>
      refine (run_fwrite_ok h₁).trans ?_
      rw [Results.ok_bind h₁] at h
      cases h₂ : JitDump.fwrite env (i + 1) (u32.encode entry.lineno) d₁ with
      | error d₂ =>
        rw [h₂] at h
        cases h
        exact run_fwrite_error h₂
      | ok d₂ =>
        refine (run_fwrite_ok h₂).trans ?_
        rw [Results.ok_bind h₂] at h
        cases h₃ : JitDump.fwrite env (i + 2) entry.filename.bytes d₂ with
        | error d₃ =>
          rw [h₃] at h
          cases h
          exact run_fwrite_error h₃
        | ok d₃ =>
          rw [Results.ok_bind h₃] at h
          exact (run_fwrite_ok h₃).trans (ih h)

theorem run_ftell_ok {pos : Nat} {next : Nat → StreamProg} (h : JitDump.ftell env i d = .ok pos) :
    (ftell env i next fail).run d = (next pos).run d := by
  rw [ftell_ok h, ftell, tellFails_of_ok h]
  rfl

theorem run_ftell_error {next : Nat → StreamProg} (h : JitDump.ftell env i d = .error d') :
    (ftell env i next fail).run d = fail.run d' := by
  rw [JitDump.ftell] at h
  split_ifs at h with htell
  cases h
  rw [ftell, if_pos htell]

theorem run_fseek_ok {pos : Nat} (h : JitDump.fseek env i pos d = .ok d') :
    (fseek env i pos ok fail).run d = ok.run d' := by
  rw [fseek_ok h, fseek, seekFails_of_ok h]
  rfl

theorem run_fseek_error {pos : Nat} (h : JitDump.fseek env i pos d = .error d') :
    (fseek env i pos ok fail).run d = fail.run d' := by
  rw [JitDump.fseek] at h
  split_ifs at h with hseek
  cases h
  rw [fseek, if_pos hseek]

/-- The dump, whether a write of the table has failed or not. -/
def tableEnd : Except DumpFile DumpFile → Int × DumpFile
  | .ok d => (0, d)
  | .error d => (0, d)

theorem run_patchRecord (env : CallEnv) (codeAddr : UInt64) (compileMap : List DebugLineInfo) (time : UInt64)
    (curPos lastPos : Nat) (d : DumpFile) :
    (patchRecord env codeAddr compileMap time curPos lastPos).run d = tableEnd (do
      let totalSize := UInt32.ofNat (lastPos - curPos)
      let paddingCount := padding8Aligned totalSize
      let d ← if paddingCount ≠ 0
        then JitDump.fwrite env (1 + 3 * compileMap.length) (padBytes paddingCount) d
        else .ok d
      let d ← JitDump.fseek env 0 curPos d
      let d ← JitDump.fwrite env (1 + 3 * compileMap.length + 1)
        (debugFormat.encode (debugRecord codeAddr compileMap time env.junk (totalSize + paddingCount))) d
      JitDump.fseek env 1 (lastPos + paddingCount.toNat) d) := by
  have hrecord : ∀ (bs : List UInt8) (pos : Nat) (d : DumpFile),
      (fseek env 0 curPos (fwrite env (1 + 3 * compileMap.length + 1) bs
        (fseek env 1 pos (.ret 0 true) (.ret 0 true)) (.ret 0 true)) (.ret 0 true)).run d = tableEnd (do
        let d ← JitDump.fseek env 0 curPos d
        let d ← JitDump.fwrite env (1 + 3 * compileMap.length + 1) bs d
        JitDump.fseek env 1 pos d) := by
    intro bs pos d
    cases h₁ : JitDump.fseek env 0 curPos d with
    | error d₁ => exact run_fseek_error h₁
    | ok d₁ =>
      refine (run_fseek_ok h₁).trans ?_
      rw [Results.ok_bind rfl]
      cases h₂ : JitDump.fwrite env (1 + 3 * compileMap.length + 1) bs d₁ with
      | error d₂ => exact run_fwrite_error h₂
      | ok d₂ =>
        refine (run_fwrite_ok h₂).trans ?_
        rw [Results.ok_bind rfl]
        cases h₃ : JitDump.fseek env 1 pos d₂ with
        | error d₃ => exact run_fseek_error h₃
        | ok d₃ => exact run_fseek_ok h₃
  rw [patchRecord]
  dsimp only
  split_ifs with hpad
  · cases h₀ : JitDump.fwrite env (1 + 3 * compileMap.length)
      (padBytes (padding8Aligned (UInt32.ofNat (lastPos - curPos)))) d with
    | error d₁ => exact run_fwrite_error h₀
    | ok d₁ => exact (run_fwrite_ok h₀).trans (hrecord ..)
  · exact hrecord ..

theorem run_writeDebugLineInfo (hlocked : env.locked = true) (codeAddr : UInt64) {compileMap : List DebugLineInfo}
    (hne : compileMap ≠ []) {time : UInt64} (htime : env.timeofday = some time) (d : DumpFile) :
    (writeDebugLineInfo env codeAddr compileMap time).run d = opWriteDebugLineInfo env codeAddr compileMap d := by
  have hend : opWriteDebugLineInfo env codeAddr compileMap d =
      tableEnd (writeDebugRecord env codeAddr compileMap time d) := by
    rw [opWriteDebugLineInfo, if_neg hne, htime]
    dsimp only
    rw [if_neg (not_not.mpr hlocked)]
    cases writeDebugRecord env codeAddr compileMap time d with
    | error d₁ => rfl
    | ok d₁ => rfl
  rw [hend, writeDebugRecord]
  dsimp only
  cases h₀ : JitDump.ftell env 0 d with
  | error d₁ => exact run_ftell_error h₀
  | ok curPos =>
    refine (run_ftell_ok h₀).trans ?_
    rw [Results.ok_bind rfl]
    cases h₁ : JitDump.fwrite env 0 (debugFormat.encode (debugRecord codeAddr compileMap time env.junk 0)) d with
    | error d₁ => exact run_fwrite_error h₁
    | ok d₁ =>
      refine (run_fwrite_ok h₁).trans ?_
      rw [Results.ok_bind rfl]
      cases h₂ : JitDump.writeEntries env 1 compileMap d₁ with
      | error d₂ => exact run_writeEntries_error h₂
      | ok d₂ =>
        refine (run_writeEntries_ok h₂).trans ?_
        rw [Results.ok_bind rfl]
        cases h₃ : JitDump.ftell env 1 d₂ with
        | error d₃ => exact run_ftell_error h₃
        | ok lastPos =>
          rw [Results.ok_bind rfl]
          exact (run_ftell_ok h₃).trans (run_patchRecord ..)

/-- Where the seeks of a program go, the file has already grown to. -/
def SeeksInside : StreamProg → DumpFile → Prop
  | .ret _ _, _ => True
  | .put bs next, d => next.SeeksInside (d.put bs)
  | .tell next, d => (next d.pos).SeeksInside d
  | .seek pos next, d => pos ≤ d.bytes.length ∧ next.SeeksInside { d with pos := pos }

theorem step_run (h : prog.step d = some (rest, d')) : prog.run d = rest.run d' := by
  cases prog with
  | ret rc unlocks => cases h
  | put bs next =>
    cases h
    rfl
  | tell next =>
    cases h
    rfl
  | seek pos next =>
    cases h
    rfl

theorem run_end (h : prog.step d = none) : (prog.run d).2 = d := by
  cases prog with
  | ret rc unlocks => rfl
  | put bs next => cases h
  | tell next => cases h
  | seek pos next => cases h

theorem SeeksInside.step (hin : prog.SeeksInside d) (h : prog.step d = some (rest, d')) : rest.SeeksInside d' := by
  cases prog with
  | ret rc unlocks => cases h
  | put bs next =>
    cases h
    exact hin
  | tell next =>
    cases h
    exact hin
  | seek pos next =>
    cases h
    exact hin.2

end StreamProg

/-! A stream that stands inside its file, and what the calls on it keep. -/

def DumpFile.Inside (d : DumpFile) : Prop := d.pos ≤ d.bytes.length

theorem put_length (hd : d.Inside) (bs : List UInt8) :
    (d.put bs).bytes.length = max d.bytes.length (d.pos + bs.length) := by
  have hpos : d.pos ≤ d.bytes.length := hd
  simp only [DumpFile.put, List.length_append, List.length_take, List.length_drop]
  omega

theorem put_inside (hd : d.Inside) (bs : List UInt8) : (d.put bs).Inside := by
  rw [DumpFile.Inside, put_length hd, put_pos]
  exact Nat.le_max_right ..

theorem put_put (hd : d.Inside) (as bs : List UInt8) : (d.put as).put bs = d.put (as ++ bs) := by
  have hpos : d.pos ≤ d.bytes.length := hd
  have hhead : (d.bytes.take d.pos ++ as).length = d.pos + as.length := by
    rw [List.length_append, List.length_take, Nat.min_eq_left hpos]
  have hrest : (d.bytes.take d.pos ++ as ++ d.bytes.drop (d.pos + as.length)).drop (d.pos + as.length + bs.length) =
      d.bytes.drop (d.pos + (as ++ bs).length) := by
    rw [List.drop_append, List.drop_eq_nil_of_le (by omega), hhead, List.nil_append, List.drop_drop,
      List.length_append]
    congr 1
    omega
  simp only [DumpFile.put, DumpFile.mk.injEq]
  refine ⟨?_, ?_⟩
  · rw [List.take_left' hhead, hrest, List.append_assoc (d.bytes.take d.pos)]
  · rw [List.length_append]
    omega

namespace StreamProg

theorem seeksInside_fwrite (hd : d.Inside)
    (hok : (d.put bs).Inside → ok.SeeksInside (d.put bs)) (hfail : ∀ d' : DumpFile, fail.SeeksInside d') :
    (fwrite env i bs ok fail).SeeksInside d := by
  rw [fwrite]
  cases env.short i with
  | none => exact hok (put_inside hd bs)
  | some k => exact hfail _

theorem seeksInside_writeNativeCode (env : CallEnv) (nc : NativeCode) (time : UInt64) (d : DumpFile) :
    (writeNativeCode env nc time).SeeksInside d := by
  have hput : ∀ (i : Nat) (bs : List UInt8) (ok fail : StreamProg), (∀ d : DumpFile, ok.SeeksInside d) →
      (∀ d : DumpFile, fail.SeeksInside d) → ∀ d : DumpFile, (fwrite env i bs ok fail).SeeksInside d := by
    intro i bs ok fail hok hfail d
    rw [fwrite]
    cases env.short i with
    | none => exact hok _
    | some k => exact hfail _
  have hret : ∀ (rc : Int) (unlocks : Bool) (d : DumpFile), (ret rc unlocks).SeeksInside d :=
    fun _ _ _ => trivial
  have hpadding : ∀ d : DumpFile, (if nc.paddingCount ≠ 0
      then fwrite env 3 (padBytes nc.paddingCount) (.ret 0 true) (.ret 0 true)
      else .ret 0 true : StreamProg).SeeksInside d := by
    intro d
    split_ifs
    · exact hput _ _ _ _ (hret _ _) (hret _ _) d
    · trivial
  refine hput _ _ _ _ (hput _ _ _ _ ?_ (hret _ _)) (hret _ _) d
  intro d
  cases nc.codeBytes with
  | none => exact hpadding d
  | some code => exact hput _ _ _ _ hpadding hpadding d

theorem seeksInside_writeEntries {entries : List DebugLineInfo} (hd : d.Inside)
    (hok : ∀ d' : DumpFile, d'.Inside → d.bytes.length ≤ d'.bytes.length → ok.SeeksInside d')
    (hfail : ∀ d' : DumpFile, fail.SeeksInside d') : (writeEntries env i entries ok fail).SeeksInside d := by
  induction entries generalizing i d with
  | nil => exact hok d hd (Nat.le_refl _)
  | cons entry entries ih =>
    rw [writeEntries]
    refine seeksInside_fwrite hd (fun h₁ => ?_) hfail
    refine seeksInside_fwrite h₁ (fun h₂ => ?_) hfail
    refine seeksInside_fwrite h₂ (fun h₃ => ?_) hfail
    refine ih h₃ fun d' hd' hle => hok d' hd' ?_
    rw [put_length h₂, put_length h₁, put_length hd] at hle
    omega

theorem seeksInside_patchRecord {curPos lastPos : Nat} (codeAddr : UInt64) (compileMap : List DebugLineInfo)
    (time : UInt64) (hd : d.Inside) (hcur : curPos ≤ d.bytes.length) (hlast : d.pos = lastPos) :
    (patchRecord env codeAddr compileMap time curPos lastPos).SeeksInside d := by
  have hrecord : ∀ (bs : List UInt8) (pos : Nat) (d' : DumpFile), curPos ≤ d'.bytes.length → pos ≤ d'.bytes.length →
      (fseek env 0 curPos (fwrite env (1 + 3 * compileMap.length + 1) bs
        (fseek env 1 pos (.ret 0 true) (.ret 0 true)) (.ret 0 true)) (.ret 0 true)).SeeksInside d' := by
    intro bs pos d' hcur' hpos
    rw [fseek]
    split_ifs
    · trivial
    refine ⟨hcur', ?_⟩
    have hd' : (⟨d'.bytes, curPos⟩ : DumpFile).Inside := hcur'
    refine seeksInside_fwrite hd' (fun _ => ?_) fun _ => trivial
    rw [fseek]
    split_ifs
    · trivial
    refine ⟨?_, trivial⟩
    rw [put_length hd']
    exact Nat.le_trans hpos (Nat.le_max_left ..)
  rw [patchRecord]
  split_ifs with hpad
  · refine seeksInside_fwrite hd (fun _ => ?_) fun _ => trivial
    apply hrecord
    · rw [put_length hd]
      exact Nat.le_trans hcur (Nat.le_max_left ..)
    · rw [put_length hd, hlast, padBytes, List.length_replicate]
      exact Nat.le_max_right ..
  · apply hrecord _ _ _ hcur
    rw [not_not.mp hpad, ← hlast]
    exact hd

theorem seeksInside_writeDebugLineInfo (codeAddr : UInt64) (compileMap : List DebugLineInfo) (time : UInt64)
    (hd : d.Inside) : (writeDebugLineInfo env codeAddr compileMap time).SeeksInside d := by
  rw [writeDebugLineInfo, ftell]
  split_ifs
  · trivial
  refine seeksInside_fwrite hd (fun h₁ => ?_) fun _ => trivial
  refine seeksInside_writeEntries h₁ (fun d' hd' hle => ?_) fun _ => trivial
  rw [ftell]
  split_ifs
  · trivial
  refine seeksInside_patchRecord codeAddr compileMap time hd' ?_ rfl
  have hpos : d.pos ≤ d.bytes.length := hd
  rw [put_length hd] at hle
  omega

theorem access_step {stream stream' : Stream} (hs : stream.start ≤ stream.disk.length)
    (hin : prog.SeeksInside stream.dump) (h : prog.access stream = some (rest, stream')) :
    prog.step stream.dump = some (rest, stream'.dump) ∧ stream'.start ≤ stream'.disk.length := by
  cases prog with
  | ret rc unlocks => cases h
  | put bs next =>
    cases h
    refine ⟨?_, hs⟩
    have hdump : (stream.write bs).dump = stream.dump.put bs := (put_put (d := ⟨stream.disk, stream.start⟩) hs _ _).symm
    rw [hdump]
    rfl
  | tell next =>
    cases h
    exact ⟨rfl, hs⟩
  | seek pos next =>
    cases h
    have hdisk : (stream.seek pos).disk = stream.dump.bytes := by
      simp only [Stream.seek, Stream.flush, Stream.spill, Stream.dump, List.take_length]
    have hdump : (stream.seek pos).dump = { stream.dump with pos := pos } := by
      have hbuffer : (stream.seek pos).buffer = [] := List.drop_length
      rw [Stream.dump, hbuffer, put_nil, hdisk]
      rfl
    refine ⟨by rw [hdump]; rfl, ?_⟩
    rw [hdisk]
    exact hin.1

end StreamProg

theorem spill_dump {stream : Stream} (hs : stream.start ≤ stream.disk.length) (k : Nat) :
    (stream.spill k).dump = stream.dump ∧ (stream.spill k).start ≤ (stream.spill k).disk.length := by
  have hbase : (⟨stream.disk, stream.start⟩ : DumpFile).Inside := hs
  refine ⟨?_, put_inside hbase _⟩
  have hput := put_put hbase (stream.buffer.take k) (stream.buffer.drop k)
  rw [List.take_append_drop] at hput
  exact hput

theorem dump_inside {stream : Stream} (hs : stream.start ≤ stream.disk.length) : stream.dump.Inside :=
  put_inside (d := ⟨stream.disk, stream.start⟩) hs _

/-- A call has come as far as its locks. -/
structure Started (call : CallEnv × AgentCall) (prog : StreamProg) : Prop where
  locked : call.1.locked = true
  prog_eq : call.2.prog call.1 = some prog

theorem prog_cases (h : call.prog env = some prog) : ∃ time, env.timeofday = some time ∧
    ((∃ nc, call = .writeNativeCode nc ∧ prog = .writeNativeCode env nc time) ∨
      (∃ vma, call = .unloadNativeCode vma ∧ prog = .unloadNativeCode env vma time) ∨
      ∃ codeAddr compileMap, call = .writeDebugLineInfo codeAddr compileMap ∧ compileMap ≠ [] ∧
        prog = .writeDebugLineInfo env codeAddr compileMap time) := by
  rw [AgentCall.prog] at h
  cases htime : env.timeofday with
  | none =>
    rw [htime] at h
    cases h
  | some time =>
    rw [htime] at h
    refine ⟨time, rfl, ?_⟩
    cases call with
    | writeNativeCode nc =>
      cases h
      exact Or.inl ⟨nc, rfl, rfl⟩
    | unloadNativeCode vma =>
      cases h
      exact Or.inr (Or.inl ⟨vma, rfl, rfl⟩)
    | writeDebugLineInfo codeAddr compileMap =>
      dsimp only at h
      split_ifs at h with hnil
      cases h
      exact Or.inr (Or.inr ⟨codeAddr, compileMap, rfl, hnil, rfl⟩)

/-- The program of a call returns what the call returns and leaves the same dump. -/
theorem Started.run_eq {call : CallEnv × AgentCall} (h : Started call prog) (d : DumpFile) :
    prog.run d = call.2.run call.1 d := by
  obtain ⟨time, htime, ⟨nc, hcall, rfl⟩ | ⟨vma, hcall, rfl⟩ | ⟨codeAddr, compileMap, hcall, hne, rfl⟩⟩ :=
    prog_cases h.prog_eq
  · rw [hcall]
    exact StreamProg.run_writeNativeCode h.locked nc htime d
  · rw [hcall]
    exact StreamProg.run_unloadNativeCode h.locked vma htime d
  · rw [hcall]
    exact StreamProg.run_writeDebugLineInfo h.locked codeAddr hne htime d

theorem Started.seeksInside {call : CallEnv × AgentCall} (h : Started call prog) (hd : d.Inside) :
    prog.SeeksInside d := by
  obtain ⟨time, -, ⟨nc, -, rfl⟩ | ⟨vma, -, rfl⟩ | ⟨codeAddr, compileMap, -, -, rfl⟩⟩ := prog_cases h.prog_eq
  · exact StreamProg.seeksInside_writeNativeCode ..
  · exact StreamProg.seeksInside_fwrite hd (fun _ => trivial) fun _ => trivial
  · exact StreamProg.seeksInside_writeDebugLineInfo codeAddr compileMap time hd

end Calls

end Oprofile.JitDump
