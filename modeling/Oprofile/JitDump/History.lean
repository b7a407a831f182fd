import Oprofile.JitDump.Written
import Oprofile.JitDump.ParseDump
import Mathlib.Data.List.TakeWhile

/-! What a dump tells, record by record, and what the reader makes of one record. -/
namespace Oprofile.JitDump

open Records

variable {α : Type} {c : Format α} {file as bs : List UInt8} {ptr : Nat} {endTime : UInt64}

/-- The block stands at that place of the file. -/
def At (file : List UInt8) (ptr : Nat) (bs : List UInt8) : Prop := bs <+: file.drop ptr

theorem at_append : At file ptr (as ++ bs) ↔ At file ptr as ∧ At file (ptr + as.length) bs := by
  constructor
  · rintro ⟨rest, h⟩
    refine ⟨⟨bs ++ rest, by rw [← h, List.append_assoc]⟩, rest, ?_⟩
    rw [← List.drop_drop, ← h, List.append_assoc, List.drop_left]
  · rintro ⟨⟨rest, h⟩, rest', h'⟩
    rw [← List.drop_drop, ← h, List.drop_left] at h'
    exact ⟨rest', by rw [← h, ← h', List.append_assoc]⟩

theorem at_of_eq {pre rest : List UInt8} (h : file = pre ++ (bs ++ rest)) : At file pre.length bs := by
  rw [At, h, List.drop_left]
  exact List.prefix_append ..

theorem At.length_le (h : At file ptr bs) (hne : bs ≠ []) : ptr + bs.length ≤ file.length := by
  have hle := List.IsPrefix.length_le h
  have hpos := List.length_pos_iff.mpr hne
  rw [List.length_drop] at hle
  omega

theorem At.structAt {a : α} (h : At file ptr (c.encode a)) (hpos : 0 < c.width) :
    structAt c file ptr = some a := by
  have hne : c.encode a ≠ [] := by
    rw [← List.length_pos_iff, c.length_encode]
    exact hpos
  have hle := h.length_le hne
  rw [c.length_encode] at hle
  obtain ⟨rest, hrest⟩ := h
  rw [JitDump.structAt, if_pos hle, ← hrest, c.decode_encode]

theorem At.stringAt {s : CName} (h : At file ptr s.bytes) : stringAt file ptr = some s.chars := by
  obtain ⟨rest, hrest⟩ := h
  have hmem : 0 ∈ file.drop ptr := by
    rw [← hrest, CName.bytes]
    simp
  have hchars : ∀ ch ∈ s.chars, decide (ch ≠ 0) = true := by
    intro ch hch
    exact decide_eq_true fun h0 => s.noNul (h0 ▸ hch)
  rw [JitDump.stringAt, if_pos hmem, ← hrest, CName.bytes, List.append_assoc,
    List.takeWhile_append_of_pos hchars]
  simp

/-! Padding. -/

theorem xor_seven : ∀ n < 8, n ^^^ 7 = 7 - n := by decide

theorem padding8Aligned_toNat (x : UInt32) : (padding8Aligned x).toNat = 7 - (x.toNat + 7) % 8 := by
  have hand : (x + 7 &&& 7).toNat = (x.toNat + 7) % 8 := by
    rw [UInt32.toNat_and, UInt32.toNat_add]
    change ((x.toNat + 7) % 2 ^ 32) &&& (2 ^ 3 - 1) = _
    rw [Nat.and_two_pow_sub_one_eq_mod]
    omega
  rw [padding8Aligned, UInt32.toNat_xor, hand]
  exact xor_seven _ (Nat.mod_lt _ (by omega))

theorem expectedPadding_toNat {nameLen : Nat} {codeSize : Int32} (h : 0 ≤ codeSize.toInt) :
    (expectedPadding nameLen codeSize).toNat =
      7 - (loadFormat.width + nameLen + 1 + codeSize.toInt.toNat + 7) % 8 := by
  have hsize : codeSize.toInt64.toUInt64.toNat = codeSize.toInt.toNat := by
    have h64 := Int32.toInt_toInt64 codeSize
    have hneg : (0 : Int64) ≤ codeSize.toInt64 := by
      rw [Int64.le_iff_toInt_le, h64]
      exact h
    rw [Int64.toNat_toUInt64_of_le hneg, ← Int64.toNat_toInt, h64]
  have hand : (UInt64.ofNat (loadFormat.width + nameLen + 1) + codeSize.toInt64.toUInt64 + 7 &&& 7).toNat
      = (loadFormat.width + nameLen + 1 + codeSize.toInt.toNat + 7) % 8 := by
    rw [UInt64.toNat_and, UInt64.toNat_add, UInt64.toNat_add, hsize, UInt64.toNat_ofNat']
    change (_ % 2 ^ 64) &&& (2 ^ 3 - 1) = _
    rw [Nat.and_two_pow_sub_one_eq_mod]
    change ((_ + 7) % 2 ^ 64) % 8 = _
    omega
  rw [expectedPadding, UInt64.toNat_xor, hand]
  exact xor_seven _ (Nat.mod_lt _ (by omega))

/-! The records of a dump and their meaning. -/

/-- What one call leaves in the file. -/
inductive Record
  | load (nc : NativeCode) (time : UInt64) (junk : UInt32)
  | unload (vma time : UInt64)
  | table (codeAddr : UInt64) (compileMap : List DebugLineInfo) (time : UInt64) (junk : UInt32)

def loadBytes (nc : NativeCode) (time : UInt64) (junk : UInt32) : List UInt8 :=
  loadFormat.encode (nc.record time junk) ++ nc.symbolName.bytes ++
    (nc.codeBytes.getD [] ++ padBytes nc.paddingCount)

def Record.bytes : Record → List UInt8
  | .load nc time junk => loadBytes nc time junk
  | .unload vma time => unloadFormat.encode (unloadRecord vma time)
  | .table codeAddr compileMap time junk => tableBytes codeAddr compileMap time junk

/-- The record of a call made at a given time; a table without lines leaves none. -/
def AgentCall.recordAt (time : UInt64) (junk : UInt32) : AgentCall → Option Record
  | .writeNativeCode nc => some (.load nc time junk)
  | .unloadNativeCode vma => some (.unload vma time)
  | .writeDebugLineInfo codeAddr compileMap =>
    if compileMap = [] then none else some (.table codeAddr compileMap time junk)

/-- The records of calls that all succeed. -/
def recordsOf (calls : List (CallEnv × AgentCall)) : List Record :=
  calls.filterMap fun (env, call) => call.recordAt (env.timeofday.getD 0) env.junk

/-- A piece of code from its load on: `closed` is the time of the unload that closes it. -/
structure Life where
  nc : NativeCode
  start : UInt64
  closed : Option UInt64

/-- An unload closes the piece loaded last among those of its address that are not closed yet. -/
def closeNewest (vma time : UInt64) : List Life → List Life
  | [] => []
  | life :: lives =>
    if life.nc.vma = vma ∧ life.closed = none then { life with closed := some time } :: lives
    else life :: closeNewest vma time lives

/-- The code of a dump, newest first, and its tables, newest first. -/
structure Story where
  lives : List Life
  tables : List (List DebugLineInfo)

def Story.tell (story : Story) : Record → Story
  | .load nc time _ => { story with lives := ⟨nc, time, none⟩ :: story.lives }
  | .unload vma time =>
    if 0 < time ∧ vma ≠ 0 then { story with lives := closeNewest vma time story.lives } else story
  | .table _ compileMap _ _ => { story with tables := compileMap :: story.tables }

def storyOf (records : List Record) : Story := records.foldl Story.tell ⟨[], []⟩

def Life.shown (endTime : UInt64) (life : Life) : JitCode where
  symbolName := life.nc.symbolName.chars
  vma := life.nc.vma
  codeSize := life.nc.size.toNat
  code := life.nc.codeBytes
  lifeStart := life.start
  lifeEnd := life.closed.getD endTime

def DebugLineInfo.shown (entry : DebugLineInfo) : LineEntry :=
  (entry.vma, entry.lineno, entry.filename.chars)

end Oprofile.JitDump
