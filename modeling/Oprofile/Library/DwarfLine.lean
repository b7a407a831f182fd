import Mathlib.Tactic.Common
import Oprofile.Library.Records

/-! Little-endian base 128 numbers. -/
namespace Leb128

variable {b : UInt8} {rest rest' : List UInt8} {n : Nat} {i : Int}

/-- An unsigned number and what is behind it. -/
def decodeU : List UInt8 → Option (Nat × List UInt8)
  | [] => none
  | b :: rest =>
    if b.toNat < 128 then some (b.toNat, rest)
    else (decodeU rest).map fun (n, rest) => (b.toNat - 128 + 128 * n, rest)

/-- A signed number and what is behind it; bit 6 of the last byte is its sign. -/
def decodeS : List UInt8 → Option (Int × List UInt8)
  | [] => none
  | b :: rest =>
    if b.toNat < 128 then some (if b.toNat < 64 then (b.toNat : Int) else b.toNat - 128, rest)
    else (decodeS rest).map fun (i, rest) => (b.toNat - 128 + 128 * i, rest)

theorem decodeU_last (h : b.toNat = n) (hn : n < 128) : decodeU (b :: rest) = some (n, rest) := by
  rw [decodeU, h, if_pos hn]

theorem decodeU_more {m : Nat} (h : b.toNat = m + 128) (hrest : decodeU rest = some (n, rest')) :
    decodeU (b :: rest) = some (m + 128 * n, rest') := by
  rw [decodeU, h, if_neg (by omega), hrest, Nat.add_sub_cancel]
  rfl

theorem decodeS_last (h : b.toNat = n) (hn : n < 64) : decodeS (b :: rest) = some ((n : Int), rest) := by
  rw [decodeS, h, if_pos (by omega), if_pos hn]

theorem decodeS_more {m : Nat} (h : b.toNat = m + 128) (hrest : decodeS rest = some (i, rest')) :
    decodeS (b :: rest) = some (m + 128 * i, rest') := by
  have hlow : ((m + 128 : Nat) : Int) - 128 = m := by omega
  rw [decodeS, h, if_neg (by omega), hrest, Option.map_some, hlow]

end Leb128

/-! The line number programs of DWARF 2 and what they mean. -/
namespace DwarfLine

open Records Leb128

/-- The parameters in the header of a program. -/
structure Params where
  minimumInstructionLength : Nat
  defaultIsStmt : Bool
  lineBase : Int
  lineRange : Nat
  opcodeBase : Nat
  standardOpcodeLengths : List Nat

/-- The registers of the state machine, and the names of the files known so far. -/
structure State where
  address : UInt64
  file : Nat
  line : UInt32
  column : Nat
  isStmt : Bool
  basicBlock : Bool
  files : List (List UInt8)

def State.start (p : Params) (files : List (List UInt8)) : State where
  address := 0
  file := 1
  line := 1
  column := 0
  isStmt := p.defaultIsStmt
  basicBlock := false
  files := files

/-- What a program tells: rows with the name of their file, and the ends of its sequences. -/
inductive Entry
  | row (address : UInt64) (line : UInt32) (file : Option (List UInt8))
  | endSequence (address : UInt64)
  deriving DecidableEq

/-- The row of the registers; files count from one. -/
def State.row (st : State) : Entry :=
  .row st.address st.line (if st.file = 0 then none else st.files[st.file - 1]?)

def State.advance (p : Params) (st : State) (operationAdvance : Nat) : State :=
  { st with address := st.address + UInt64.ofNat (p.minimumInstructionLength * operationAdvance) }

def State.addLine (st : State) (i : Int) : State := { st with line := st.line + UInt32.ofInt i }

/-- A special opcode moves address and line and gives a row. -/
def special (p : Params) (opcode : Nat) (st : State) : State × List Entry :=
  let adjusted := opcode - p.opcodeBase
  let st := (st.advance p (adjusted / p.lineRange)).addLine (p.lineBase + (adjusted % p.lineRange : Nat))
  ({ st with basicBlock := false }, [st.row])

/-- A string with its end, and what is behind it. -/
def readString (bytes : List UInt8) : Option (List UInt8 × List UInt8) :=
  if 0 ∈ bytes then some (bytes.takeWhile (· ≠ 0), (bytes.dropWhile (· ≠ 0)).drop 1) else none

/-- A file entry: name, directory, time and size. -/
def readFile (bytes : List UInt8) : Option (List UInt8 × List UInt8) := do
  let (name, bytes) ← readString bytes
  let (_, bytes) ← decodeU bytes
  let (_, bytes) ← decodeU bytes
  let (_, bytes) ← decodeU bytes
  some (name, bytes)

/-- An extended opcode with its operands. -/
def extended (p : Params) (st : State) : List UInt8 → Option (State × List Entry)
  | [] => none
  | opcode :: operands =>
    if opcode = 1 then some (State.start p st.files, [.endSequence st.address])
    else if opcode = 2 then
      if operands.length = 8 then some ({ st with address := u64.decode operands }, []) else none
    else if opcode = 3 then (readFile operands).map fun (name, _) => ({ st with files := st.files ++ [name] }, [])
    else some (st, [])

/-- Operands of an unknown opcode are skipped. -/
def skipOperands : Nat → List UInt8 → Option (List UInt8)
  | 0, bytes => some bytes
  | n + 1, bytes => (decodeU bytes).bind fun (_, bytes) => skipOperands n bytes

/-- A standard opcode; its operands are taken from the bytes. -/
def standard (p : Params) (opcode : Nat) (bytes : List UInt8) (st : State) :
    Option (List UInt8 × State × List Entry) :=
  match opcode with
  | 1 => some (bytes, { st with basicBlock := false }, [st.row])
  | 2 => (decodeU bytes).map fun (n, bytes) => (bytes, st.advance p n, [])
  | 3 => (decodeS bytes).map fun (i, bytes) => (bytes, st.addLine i, [])
  | 4 => (decodeU bytes).map fun (n, bytes) => (bytes, { st with file := n }, [])
  | 5 => (decodeU bytes).map fun (n, bytes) => (bytes, { st with column := n }, [])
  | 6 => some (bytes, { st with isStmt := ! st.isStmt }, [])
  | 7 => some (bytes, { st with basicBlock := true }, [])
  | 8 => some (bytes, st.advance p ((255 - p.opcodeBase) / p.lineRange), [])
  | 9 =>
    match bytes with
    | lo :: hi :: bytes =>
      some (bytes, { st with address := st.address + UInt64.ofNat (lo.toNat + 256 * hi.toNat) }, [])
    | _ => none
  | _ => (skipOperands (p.standardOpcodeLengths.getD (opcode - 1) 0) bytes).map fun bytes => (bytes, st, [])

/-- One instruction: what is behind it, the registers after it, and what it tells. -/
def instruction (p : Params) (st : State) : List UInt8 → Option (List UInt8 × State × List Entry)
  | [] => none
  | opcode :: bytes =>
    if p.opcodeBase ≤ opcode.toNat then
      let (st, told) := special p opcode.toNat st
      some (bytes, st, told)
    else if opcode = 0 then do
      let (len, bytes) ← decodeU bytes
      if bytes.length < len then none
      else
        let (st, told) ← extended p st (bytes.take len)
        some (bytes.drop len, st, told)
    else standard p opcode.toNat bytes st

/-- A whole program; nothing if it is not done after so many instructions. -/
def run (p : Params) : Nat → List UInt8 → State → Option (List Entry)
  | _, [], _ => some []
  | 0, _ :: _, _ => none
  | fuel + 1, bytes, st => do
    let (bytes, st, told) ← instruction p st bytes
    (run p fuel bytes st).map (told ++ ·)

/-- The strings of a table that an empty one ends. -/
def readStrings : Nat → List UInt8 → Option (List (List UInt8) × List UInt8)
  | 0, _ => none
  | fuel + 1, bytes => do
    let (name, bytes) ← readString bytes
    if name = [] then some ([], bytes)
    else (readStrings fuel bytes).map fun (names, bytes) => (name :: names, bytes)

/-- The file entries of a table that an empty name ends. -/
def readFiles : Nat → List UInt8 → Option (List (List UInt8) × List UInt8)
  | 0, _ => none
  | _, [] => none
  | fuel + 1, b :: bytes =>
    if b = 0 then some ([], bytes)
    else do
      let (name, bytes) ← readFile (b :: bytes)
      (readFiles fuel bytes).map fun (names, bytes) => (name :: names, bytes)

/-- The two lengths, the version, and the five parameters of a header. -/
def lengthsFormat : Format (UInt32 × { bs : List UInt8 // bs.length = 2 } × UInt32) :=
  u32.pair ((raw 2).pair u32)

/-- The rest of a header: the parameters, the directories and the names of the files. -/
def readProlog : List UInt8 → Option (Params × List (List UInt8))
  | minimumInstructionLength :: isStmt :: lineBase :: lineRange :: opcodeBase :: prolog => do
    let lengths := prolog.take (opcodeBase.toNat - 1)
    let (_, prolog) ← readStrings prolog.length (prolog.drop (opcodeBase.toNat - 1))
    let (files, _) ← readFiles prolog.length prolog
    some ({ minimumInstructionLength := minimumInstructionLength.toNat, defaultIsStmt := isStmt ≠ 0
            lineBase := lineBase.toInt8.toInt, lineRange := lineRange.toNat
            opcodeBase := opcodeBase.toNat, standardOpcodeLengths := lengths.map UInt8.toNat }, files)
  | _ => none

/-- A unit: its length, its header and its program; what it tells, and what is behind it. -/
def readUnit (bytes : List UInt8) : Option (List Entry × List UInt8) :=
  if bytes.length < lengthsFormat.width then none
  else
    let (totalLength, version, prologLength) := lengthsFormat.decode bytes
    let unitEnd := u32.width + totalLength.toNat
    let programStart := lengthsFormat.width + prologLength.toNat
    if version.1 ≠ [2, 0] ∨ bytes.length < unitEnd ∨ unitEnd < programStart then none
    else do
      let (p, files) ← readProlog ((bytes.take programStart).drop lengthsFormat.width)
      let program := (bytes.take unitEnd).drop programStart
      let told ← run p program.length program (State.start p files)
      some (told, bytes.drop unitEnd)

/-! Programs piece by piece. -/

variable {p : Params} {st st' st'' : State} {code code' : List UInt8} {told told' : List Entry}

/-- The code runs to its end, from one state to the other, and tells so much. -/
def Emits (p : Params) (st : State) (code : List UInt8) (told : List Entry) (st' : State) : Prop :=
  ∃ n ≤ code.length, ∀ fuel rest,
    run p (n + fuel) (code ++ rest) st = (run p fuel rest st').map (told ++ ·)

theorem Emits.nil (p : Params) (st : State) : Emits p st [] [] st := by
  refine ⟨0, Nat.le_refl 0, fun fuel rest => ?_⟩
  rw [Nat.zero_add, List.nil_append]
  exact (Option.map_id' ..).symm

theorem Emits.append (h : Emits p st code told st') (h' : Emits p st' code' told' st'') :
    Emits p st (code ++ code') (told ++ told') st'' := by
  obtain ⟨n, hn, hrun⟩ := h
  obtain ⟨n', hn', hrun'⟩ := h'
  refine ⟨n + n', ?_, fun fuel rest => ?_⟩
  · rw [List.length_append]
    omega
  · rw [Nat.add_assoc, List.append_assoc, hrun, hrun', Option.map_map]
    refine congrArg (Option.map · _) (funext fun told'' => ?_)
    exact (List.append_assoc ..).symm

/-- One instruction. -/
theorem Emits.instruction {opcode : UInt8} {operands : List UInt8}
    (h : ∀ rest, DwarfLine.instruction p st (opcode :: operands ++ rest) = some (rest, st', told)) :
    Emits p st (opcode :: operands) told st' := by
  refine ⟨1, Nat.succ_le_succ (Nat.zero_le _), fun fuel rest => ?_⟩
  have hstep := h rest
  rw [List.cons_append] at hstep ⊢
  rw [Nat.add_comm, run, hstep]
  · rfl
  · simp

/-- A program that runs to its end tells what it tells. -/
theorem Emits.run (h : Emits p st code told st') : run p code.length code st = some told := by
  obtain ⟨n, hn, hrun⟩ := h
  obtain ⟨k, hk⟩ := Nat.le.dest hn
  have hcode := hrun k []
  have hnil : DwarfLine.run p k [] st' = some [] := by
    cases k <;> rfl
  rw [hk, List.append_nil, hnil, Option.map_some, List.append_nil] at hcode
  exact hcode

theorem emits_copy (hbase : 1 < p.opcodeBase) :
    Emits p st [1] [st.row] { st with basicBlock := false } := by
  refine Emits.instruction fun rest => ?_
  refine (if_neg ?_).trans ?_
  · exact Nat.not_le.mpr hbase
  · rfl

theorem emits_advancePc {operands : List UInt8} {n : Nat} (hbase : 2 < p.opcodeBase)
    (h : ∀ rest, decodeU (operands ++ rest) = some (n, rest)) :
    Emits p st (2 :: operands) [] (st.advance p n) := by
  refine Emits.instruction fun rest => ?_
  refine (if_neg (Nat.not_le.mpr hbase)).trans ?_
  exact congrArg (Option.map _) (h rest)

theorem emits_advanceLine {operands : List UInt8} {i : Int} (hbase : 3 < p.opcodeBase)
    (h : ∀ rest, decodeS (operands ++ rest) = some (i, rest)) :
    Emits p st (3 :: operands) [] (st.addLine i) := by
  refine Emits.instruction fun rest => ?_
  refine (if_neg (Nat.not_le.mpr hbase)).trans ?_
  exact congrArg (Option.map _) (h rest)

theorem emits_setFile {operands : List UInt8} {n : Nat} (hbase : 4 < p.opcodeBase)
    (h : ∀ rest, decodeU (operands ++ rest) = some (n, rest)) :
    Emits p st (4 :: operands) [] { st with file := n } := by
  refine Emits.instruction fun rest => ?_
  refine (if_neg (Nat.not_le.mpr hbase)).trans ?_
  exact congrArg (Option.map _) (h rest)

theorem emits_special {opcode : UInt8} (hbase : p.opcodeBase ≤ opcode.toNat) :
    Emits p st [opcode] (special p opcode.toNat st).2 (special p opcode.toNat st).1 := by
  refine Emits.instruction fun rest => ?_
  exact if_pos hbase

/-- An extended opcode: its length, then the opcode with its operands. -/
theorem emits_extended {len operands : List UInt8} (hbase : 0 < p.opcodeBase)
    (hlen : ∀ rest, decodeU (len ++ rest) = some (operands.length, rest))
    (h : extended p st operands = some (st', told)) : Emits p st (0 :: len ++ operands) told st' := by
  refine Emits.instruction fun rest => ?_
  refine (if_neg (Nat.not_le.mpr hbase)).trans ((if_pos rfl).trans ?_)
  have hdecode : decodeU (len ++ operands ++ rest) = some (operands.length, operands ++ rest) := by
    rw [List.append_assoc, hlen]
  refine (congrArg (Option.bind · _) hdecode).trans ?_
  change (if (operands ++ rest).length < operands.length then _ else _) = _
  rw [if_neg (by rw [List.length_append]; omega), List.take_left, List.drop_left, h]
  rfl

theorem readString_nul {name rest : List UInt8} (h : 0 ∉ name) :
    readString (name ++ 0 :: rest) = some (name, rest) := by
  have hname : ∀ c ∈ name, decide (c ≠ 0) = true := fun c hc => decide_eq_true fun h0 => h (h0 ▸ hc)
  rw [readString, if_pos (List.mem_append_right _ List.mem_cons_self),
    List.takeWhile_append_of_pos hname, List.dropWhile_append_of_pos hname]
  simp

end DwarfLine
