import Oprofile.Opjitconv.DebugLine
import Oprofile.Library.DwarfLine

/-! The line program decodes to the agent's table. -/
namespace Oprofile.Opjitconv

open Records JitDump Leb128 DwarfLine

variable {n : Nat} {rest : List UInt8}

/-! Instructions. -/

/-- The parameters in the header that `add_debug_line` emits. -/
def params : Params where
  minimumInstructionLength := 1
  defaultIsStmt := true
  lineBase := -5
  lineRange := 14
  opcodeBase := 10
  standardOpcodeLengths := [0, 1, 1, 1, 1, 0, 0, 0, 1]

variable {st : State} {line : DebugLineInfo} {ls : LineState}

theorem advancePc_emits (st : State) (delta : UInt64) :
    Emits params st (emitAdvancePc delta) [] { st with address := st.address + delta } := by
  have hemits : Emits params st _ _ _ := emits_advancePc (by decide) (emitUnsigned_decode delta)
  rw [State.advance, params, Nat.one_mul, UInt64.ofNat_toNat] at hemits
  exact hemits

theorem ofInt_toNat (x : UInt32) : UInt32.ofInt x.toNat = x := by
  have hlt := x.toNat_lt
  have hmod : ((x.toNat : Int) % 2 ^ 32).toNat = x.toNat := by omega
  rw [UInt32.ofInt, hmod, UInt32.ofNat_toNat]

theorem advanceLineno_emits (st : State) (delta : UInt32) :
    Emits params st (emitAdvanceLineno delta.toUInt64.toInt64 (lineno_defined delta)) []
      { st with line := st.line + delta } := by
  have hread (rest : List UInt8) : decodeS ((emitSignedLEB128 delta.toUInt64.toInt64).get (lineno_defined delta) ++
      rest) = some ((delta.toNat : Int), rest) := by
    obtain ⟨bytes, hbytes, hdecode⟩ := emitSigned_decode (lineno_toInt delta)
    rw [Option.get_of_eq_some _ hbytes]
    exact hdecode rest
  have hemits : Emits params st _ _ _ := emits_advanceLine (by decide) hread
  rw [State.addLine, ofInt_toNat] at hemits
  exact hemits

theorem setFile_emits (index : UInt64) :
    Emits params st (emitSetFile index) [] { st with file := index.toNat } :=
  emits_setFile (by decide) (emitUnsigned_decode index)

theorem length_plus_toNat {k : Nat} (m : Nat) (h : k + m < 2 ^ 64) :
    (UInt64.ofNat k + UInt64.ofNat m).toNat = k + m := by
  rw [← UInt64.ofNat_add, UInt64.toNat_ofNat', Nat.mod_eq_of_lt h]

theorem extendedOpcode_emits {opcode : UInt8} {data : List UInt8} {st' : State} {told : List Entry}
    (hlen : data.length + 1 < 2 ^ 64) (h : extended params st (opcode :: data) = some (st', told)) :
    Emits params st (emitExtendedOpcode opcode data) told st' := by
  have hparts : emitExtendedOpcode opcode data =
      0 :: emitUnsignedLEB128 (UInt64.ofNat data.length + 1) ++ (opcode :: data) := by
    simp [emitExtendedOpcode]
  rw [hparts]
  refine emits_extended (by decide) (fun rest => ?_) h
  refine (emitUnsigned_decode _ rest).trans (congrArg (fun n => some (n, rest)) ?_)
  exact length_plus_toNat 1 hlen

theorem setAddress_emits (st : State) (address : UInt64) :
    Emits params st (emitLneSetAddress address) [] { st with address := address } := by
  have hlen : (u64.encode address).length = 8 := Format.length_encode ..
  refine extendedOpcode_emits (by omega) ?_
  change (if (u64.encode address).length = 8 then
    some ({ st with address := u64.decode (u64.encode address) }, []) else none) = _
  rw [if_pos hlen, Format.decode_encode_self]

theorem endOfSequence_emits :
    Emits params st emitLneEndOfSequence [.endSequence st.address] (State.start params st.files) :=
  extendedOpcode_emits (by decide) rfl

theorem defineFilename_emits {filename : CName} (h : filename.chars.length + 5 < 2 ^ 64) :
    Emits params st (emitLneDefineFilename filename) []
      { st with files := st.files ++ [filename.chars] } := by
  have hparts : emitLneDefineFilename filename =
      0 :: emitUnsignedLEB128 (UInt64.ofNat filename.chars.length + 5) ++
        (dwLneDefineFile :: (filename.chars ++ 0 :: [0, 0, 0])) := by
    simp [emitLneDefineFilename, CName.bytes]
  rw [hparts]
  refine emits_extended (by decide) (fun rest => ?_) ?_
  · refine (emitUnsigned_decode _ rest).trans (congrArg (fun n => some (n, rest)) ?_)
    refine (length_plus_toNat 5 h).trans ?_
    simp
  · have hread : readFile (filename.chars ++ 0 :: [0, 0, 0]) = some (filename.chars, []) := by
      rw [readFile, readString_nul filename.noNul]
      rfl
    exact congrArg (Option.map _) hread

/-! Special opcodes. -/

theorem special_eq {opcode temp delta : Nat} (hop : opcode = temp + delta * 14 + 10) (ht : temp < 14) :
    special params opcode st =
      ({ st with address := st.address + UInt64.ofNat delta,
                 line := st.line + UInt32.ofInt (-5 + (temp : Int)), basicBlock := false },
        [.row (st.address + UInt64.ofNat delta) (st.line + UInt32.ofInt (-5 + (temp : Int)))
          (if st.file = 0 then none else st.files[st.file - 1]?)]) := by
  have hdiv : (opcode - 10) / 14 = delta := by omega
  have hmod : (opcode - 10) % 14 = temp := by omega
  rw [special, params, hdiv, hmod]
  simp only [State.advance, State.addLine, State.row, Nat.one_mul]

/-- What a special opcode says about the line it is chosen for. -/
theorem getSpecialOpcode_spec {lastLineno : UInt32} {lastVma : UInt64}
    (h : getSpecialOpcode line lastLineno lastVma ≠ 0) :
    ∃ temp delta : Nat, (getSpecialOpcode line lastLineno lastVma).toNat = temp + delta * 14 + 10 ∧
      temp < 14 ∧ lastVma + UInt64.ofNat delta = line.vma ∧
      lastLineno + UInt32.ofInt (-5 + (temp : Int)) = line.lineno := by
  have hbase : defaultDebugLineHeader.lineBase.toInt32.toUInt32 = UInt32.ofInt (-5) := by decide
  rw [getSpecialOpcode, hbase] at h ⊢
  generalize htemp : line.lineno - lastLineno - UInt32.ofInt (-5) = temp at h ⊢
  have hdelta : (line.vma - lastVma) / defaultDebugLineHeader.minimumInstructionLength.toUInt64 =
      line.vma - lastVma := by
    rw [← UInt64.toNat_inj, UInt64.toNat_div]
    exact Nat.div_one _
  simp only [hdelta] at h ⊢
  generalize hvma : line.vma - lastVma = delta at h ⊢
  split_ifs at h ⊢ with hrange hlow hbyte
  · exact absurd rfl h
  · have htempLt : temp.toNat < 14 := by
      rw [UInt32.le_iff_toNat_le] at hrange
      exact Nat.not_le.mp hrange
    have hdeltaLe : delta.toNat ≤ 18 := UInt64.le_iff_toNat_le.mp hlow
    have hopcode : (temp.toUInt64 + delta * defaultDebugLineHeader.lineRange.toUInt64 +
        defaultDebugLineHeader.opcodeBase.toUInt64).toNat = temp.toNat + delta.toNat * 14 + 10 := by
      rw [UInt64.toNat_add, UInt64.toNat_add, UInt64.toNat_mul, UInt32.toNat_toUInt64]
      change ((temp.toNat + delta.toNat * 14 % 2 ^ 64) % 2 ^ 64 + 10) % 2 ^ 64 = _
      omega
    rw [UInt64.le_iff_toNat_le, hopcode] at hbyte
    change temp.toNat + delta.toNat * 14 + 10 ≤ 255 at hbyte
    refine ⟨temp.toNat, delta.toNat, ?_, htempLt, ?_, ?_⟩
    · rw [UInt64.toNat_toUInt8, hopcode, Nat.mod_eq_of_lt (by omega)]
    · rw [UInt64.ofNat_toNat, ← hvma, UInt64.add_comm, UInt64.sub_add_cancel]
    · rw [UInt32.ofInt_add, ofInt_toNat, ← htemp, UInt32.add_comm (UInt32.ofInt (-5)),
        UInt32.sub_add_cancel, UInt32.add_comm, UInt32.sub_add_cancel]
  · exact absurd rfl h
  · exact absurd rfl h

/-- A line at the place reached already has a special opcode. -/
theorem getSpecialOpcode_same : getSpecialOpcode line line.lineno line.vma ≠ 0 := by
  rw [getSpecialOpcode, UInt32.sub_self, UInt64.sub_self]
  decide

/-! The loop. -/

/-- The registers hold what the variables of the loop say. -/
structure Follows (ls : LineState) (st : State) (cur : CName) : Prop where
  address : st.address = ls.lastVma
  line : st.line = ls.lastLineno
  curFilename : ls.curFilename = some cur
  name : st.files.getLast? = some cur.chars
  file : st.file = st.files.length
  index : ls.curFileIndex.toNat = st.files.length

theorem Follows.row {cur : CName} (h : Follows ls st cur) :
    st.row = .row ls.lastVma ls.lastLineno (some cur.chars) := by
  have hne : st.file ≠ 0 := by
    intro h0
    have hnil := List.eq_nil_of_length_eq_zero (h.file.symm.trans h0)
    have hlast := h.name
    rw [hnil] at hlast
    cases hlast
  rw [State.row, if_neg hne, h.address, h.line, h.file, ← List.getLast?_eq_getElem?, h.name]

theorem emitFile_emits {cur : CName} (line : DebugLineInfo) (h : Follows ls st cur) (hindex : st.files.length + 1 < 2 ^ 64)
    (hlen : (emitFile ls line).1.length < 2 ^ 64) :
    ∃ st' cur', Emits params st (emitFile ls line).1 [] st' ∧ Follows (emitFile ls line).2 st' cur' ∧
      cur'.chars = line.filename.chars ∧ st'.files.length ≤ st.files.length + 1 := by
  rw [emitFile] at hlen ⊢
  by_cases hchange : ls.fileChanges line
  · rw [if_pos hchange] at hlen ⊢
    have hname : line.filename.chars.length + 5 < 2 ^ 64 := by
      simp only [emitLneDefineFilename, CName.bytes, List.length_append, List.length_cons,
        List.length_nil] at hlen
      omega
    have hnext : (ls.curFileIndex + 1).toNat = st.files.length + 1 := by
      rw [UInt64.toNat_add, h.index]
      exact Nat.mod_eq_of_lt hindex
    refine ⟨_, line.filename, (defineFilename_emits hname).append (setFile_emits _), ?_, rfl, ?_⟩
    · refine ⟨h.address, h.line, rfl, List.getLast?_concat .., ?_, ?_⟩
      · rw [hnext]
        simp
      · rw [hnext]
        simp
    · simp
  · rw [if_neg hchange]
    refine ⟨st, cur, Emits.nil params st, h, ?_, Nat.le_succ _⟩
    rw [LineState.fileChanges, h.curFilename] at hchange
    simpa using hchange

/-- The steps to a line that is not the one reached already: at least one, then the row. -/
theorem emitSteps_eq (needCopy : Bool) (hmove : getSpecialOpcode line ls.lastLineno ls.lastVma = 0) :
    emitSteps needCopy ls line =
      ((if ls.lastLineno ≠ line.lineno then
          emitAdvanceLineno (line.lineno - ls.lastLineno).toUInt64.toInt64 (lineno_defined _) else []) ++
        (if ls.lastVma ≠ line.vma then emitAdvancePc (line.vma - ls.lastVma) else []) ++ [dwLnsCopy],
        { ls with lastLineno := line.lineno, lastVma := line.vma }) := by
  rw [emitSteps]
  by_cases hl : ls.lastLineno = line.lineno
  · by_cases hv : ls.lastVma = line.vma
    · rw [hl, hv] at hmove
      exact absurd hmove getSpecialOpcode_same
    · simp only [ne_eq, hl, hv, not_true, not_false_iff, if_true, if_false]
  · by_cases hv : ls.lastVma = line.vma
    · simp only [ne_eq, hl, hv, not_true, not_false_iff, if_true, if_false]
    · simp only [ne_eq, hl, hv, not_false_iff, if_true]

theorem lineno_emits (line : DebugLineInfo) (h : st.line = ls.lastLineno) :
    Emits params st (if ls.lastLineno ≠ line.lineno then
      emitAdvanceLineno (line.lineno - ls.lastLineno).toUInt64.toInt64 (lineno_defined _) else []) []
      { st with line := line.lineno } := by
  split_ifs with hl
  · have hemits := advanceLineno_emits st (line.lineno - ls.lastLineno)
    rw [h, UInt32.add_comm, UInt32.sub_add_cancel] at hemits
    exact hemits
  · rw [← not_not.mp hl, ← h]
    exact Emits.nil params st

theorem pc_emits (line : DebugLineInfo) (h : st.address = ls.lastVma) :
    Emits params st (if ls.lastVma ≠ line.vma then emitAdvancePc (line.vma - ls.lastVma) else []) []
      { st with address := line.vma } := by
  split_ifs with hv
  · have hemits := advancePc_emits st (line.vma - ls.lastVma)
    rw [h, UInt64.add_comm, UInt64.sub_add_cancel] at hemits
    exact hemits
  · rw [← not_not.mp hv, ← h]
    exact Emits.nil params st

theorem emitSteps_emits {cur : CName} (needCopy : Bool) (h : Follows ls st cur)
    (hmove : getSpecialOpcode line ls.lastLineno ls.lastVma = 0) :
    ∃ st', Emits params st (emitSteps needCopy ls line).1 [.row line.vma line.lineno (some cur.chars)] st' ∧
      Follows (emitSteps needCopy ls line).2 st' cur ∧ st'.files = st.files := by
  rw [emitSteps_eq needCopy hmove]
  have hthere : Follows { ls with lastLineno := line.lineno, lastVma := line.vma }
      { st with line := line.lineno, address := line.vma } cur :=
    ⟨rfl, rfl, h.curFilename, h.name, h.file, h.index⟩
  have hsteps := (lineno_emits line h.line).append (pc_emits line h.address)
  have hcopy := hsteps.append (emits_copy (by decide))
  rw [hthere.row] at hcopy
  exact ⟨_, hcopy, ⟨rfl, rfl, h.curFilename, h.name, h.file, h.index⟩, rfl⟩

theorem special_emits {cur : CName} (h : Follows ls st cur)
    (hmove : getSpecialOpcode line ls.lastLineno ls.lastVma ≠ 0) :
    ∃ st', Emits params st [getSpecialOpcode line ls.lastLineno ls.lastVma]
        [.row line.vma line.lineno (some cur.chars)] st' ∧
      Follows { ls with lastLineno := line.lineno, lastVma := line.vma } st' cur ∧
      st'.files = st.files := by
  obtain ⟨temp, delta, hopcode, htemp, hvma, hlineno⟩ := getSpecialOpcode_spec hmove
  have hbase : params.opcodeBase ≤ (getSpecialOpcode line ls.lastLineno ls.lastVma).toNat := by
    rw [hopcode]
    exact Nat.le_add_left ..
  have hemits : Emits params st _ _ _ := emits_special hbase
  rw [special_eq hopcode htemp, h.address, h.line, hvma, hlineno] at hemits
  have hthere : Follows { ls with lastLineno := line.lineno, lastVma := line.vma }
      { st with address := line.vma, line := line.lineno, basicBlock := false } cur :=
    ⟨rfl, rfl, h.curFilename, h.name, h.file, h.index⟩
  exact ⟨_, hthere.row ▸ hemits, hthere, rfl⟩

theorem emitLine_special
    (h : getSpecialOpcode line (emitFile ls line).2.lastLineno (emitFile ls line).2.lastVma ≠ 0) :
    emitLine ls line = ((emitFile ls line).1 ++
      [getSpecialOpcode line (emitFile ls line).2.lastLineno (emitFile ls line).2.lastVma],
      { (emitFile ls line).2 with lastLineno := line.lineno, lastVma := line.vma }) := if_pos h

theorem emitLine_steps
    (h : ¬ getSpecialOpcode line (emitFile ls line).2.lastLineno (emitFile ls line).2.lastVma ≠ 0) :
    emitLine ls line = ((emitFile ls line).1 ++
      (emitSteps (ls.fileChanges line) (emitFile ls line).2 line).1,
      (emitSteps (ls.fileChanges line) (emitFile ls line).2 line).2) := if_neg h

theorem emitFile_length_le : (emitFile ls line).1.length ≤ (emitLine ls line).1.length := by
  by_cases h : getSpecialOpcode line (emitFile ls line).2.lastLineno (emitFile ls line).2.lastVma ≠ 0
  · rw [emitLine_special h, List.length_append]
    exact Nat.le_add_right ..
  · rw [emitLine_steps h, List.length_append]
    exact Nat.le_add_right ..

theorem emitLine_length_pos (ls : LineState) (line : DebugLineInfo) : 0 < (emitLine ls line).1.length := by
  by_cases h : getSpecialOpcode line (emitFile ls line).2.lastLineno (emitFile ls line).2.lastVma ≠ 0
  · rw [emitLine_special h]
    simp
  · rw [emitLine_steps h, emitSteps_eq _ (not_not.mp h)]
    simp

/-- A round of the loop gives the row of its line. -/
theorem emitLine_emits {cur : CName} (line : DebugLineInfo) (h : Follows ls st cur) (hindex : st.files.length + 1 < 2 ^ 64)
    (hlen : (emitLine ls line).1.length < 2 ^ 64) :
    ∃ st' cur', Emits params st (emitLine ls line).1
        [.row line.vma line.lineno (some line.filename.chars)] st' ∧
      Follows (emitLine ls line).2 st' cur' ∧ st'.files.length ≤ st.files.length + 1 ∧
      (emitLine ls line).2.lastVma = line.vma := by
  have hfileLen : (emitFile ls line).1.length ≤ (emitLine ls line).1.length := emitFile_length_le
  obtain ⟨st₁, cur', hfile, h₁, hname, hfiles⟩ := emitFile_emits line h hindex (by omega)
  by_cases hmove : getSpecialOpcode line (emitFile ls line).2.lastLineno (emitFile ls line).2.lastVma ≠ 0
  · obtain ⟨st₂, hspecial, h₂, hsame⟩ := special_emits h₁ hmove
    rw [hname] at hspecial
    rw [emitLine_special hmove]
    exact ⟨st₂, cur', hfile.append hspecial, h₂, hsame ▸ hfiles, rfl⟩
  · obtain ⟨st₂, hsteps, h₂, hsame⟩ := emitSteps_emits (ls.fileChanges line) h₁ (not_not.mp hmove)
    rw [hname] at hsteps
    rw [emitLine_steps hmove]
    refine ⟨st₂, cur', hfile.append hsteps, h₂, hsame ▸ hfiles, ?_⟩
    rw [emitSteps_eq _ (not_not.mp hmove)]

/-- The row of a line. -/
def rowOf (line : DebugLineInfo) : Entry := .row line.vma line.lineno (some line.filename.chars)

variable {lines : List DebugLineInfo}

theorem emitLines_emits {cur : CName} (lines : List DebugLineInfo) (h : Follows ls st cur)
    (hlen : st.files.length + (emitLines ls lines).length < 2 ^ 64) :
    ∃ st', Emits params st (emitLines ls lines) (lines.map rowOf) st' ∧
      st'.address = (lines.getLast?.map DebugLineInfo.vma).getD ls.lastVma := by
  induction lines generalizing ls st cur with
  | nil => exact ⟨st, Emits.nil params st, h.address⟩
  | cons line lines ih =>
    have hpos := emitLine_length_pos ls line
    rw [emitLines, List.length_append] at hlen
    obtain ⟨st₁, cur', hline, h₁, hfiles, hvma⟩ := emitLine_emits line h (by omega) (by omega)
    obtain ⟨st₂, hlines, haddress⟩ := ih h₁ (by omega)
    refine ⟨st₂, hline.append hlines, ?_⟩
    rw [haddress, hvma]
    cases lines with
    | nil => rfl
    | cons line' lines => rfl

/-! The whole program and its header. -/

variable {first : DebugLineInfo} {codeAddr : UInt64}

/-- What the agent's table says, with a first row for the start of the code. -/
def tableOf (line : List DebugLineInfo) (hne : line ≠ []) (codeAddr : UInt64) : List Entry :=
  .row codeAddr (line.head hne).lineno (some (line.head hne).filename.chars) :: line.map rowOf ++
    [.endSequence (line.getLast hne).vma]

def program (line : List DebugLineInfo) (codeAddr : UInt64) : List UInt8 :=
  emitLinenoInfo line codeAddr ++ emitLneEndOfSequence

theorem program_emits (codeAddr : UInt64) (hne : line :: lines ≠ []) (hlen : (program (line :: lines) codeAddr).length < 2 ^ 64) :
    ∃ st, Emits params (State.start params []) (program (line :: lines) codeAddr)
      (tableOf (line :: lines) hne codeAddr) st := by
  rw [program, emitLinenoInfo] at hlen ⊢
  simp only [List.length_append] at hlen
  have hname : line.filename.chars.length + 5 < 2 ^ 64 := by
    simp only [emitLneDefineFilename, CName.bytes, List.length_append, List.length_cons,
      List.length_nil] at hlen
    omega
  have hstart := (setAddress_emits (State.start params []) codeAddr).append
    (advanceLineno_emits _ (line.lineno - 1))
  have hfile := (hstart.append (defineFilename_emits hname)).append (setFile_emits 1)
  have hlineno : (1 : UInt32) + (line.lineno - 1) = line.lineno := by
    rw [UInt32.add_comm, UInt32.sub_add_cancel]
  have hfollows : Follows ⟨codeAddr, line.lineno, some line.filename, 1⟩
      { State.start params [] with
        address := codeAddr
        line := (State.start params []).line + (line.lineno - 1)
        files := (State.start params []).files ++ [line.filename.chars]
        file := (1 : UInt64).toNat } line.filename :=
    ⟨rfl, hlineno, rfl, rfl, rfl, rfl⟩
  have hcopy := hfile.append (emits_copy (by decide))
  rw [hfollows.row] at hcopy
  have hfollows' : Follows ⟨codeAddr, line.lineno, some line.filename, 1⟩
      { State.start params [] with
        address := codeAddr
        line := (State.start params []).line + (line.lineno - 1)
        files := (State.start params []).files ++ [line.filename.chars]
        file := (1 : UInt64).toNat
        basicBlock := false } line.filename :=
    ⟨rfl, hlineno, rfl, rfl, rfl, rfl⟩
  obtain ⟨st, hlines, haddress⟩ := emitLines_emits (line :: lines) hfollows' (by
    change 1 + _ < _
    simp only [List.length_cons, List.length_nil] at hlen ⊢
    omega)
  have hend := (hcopy.append hlines).append endOfSequence_emits
  rw [haddress, List.getLast?_eq_some_getLast hne] at hend
  exact ⟨_, hend⟩

/-- The bytes of a unit. -/
def unitBytes (line : List DebugLineInfo) (codeAddr : UInt64) : List UInt8 :=
  let h : DebugLineHeader := { defaultDebugLineHeader with
    totalLength := UInt32.ofNat ((program line codeAddr).length + 22), prologLength := 16 }
  h.bytes ++ standardOpcodeLength ++ [0, 0] ++ program line codeAddr

theorem patch_middle {b old new after : List UInt8} (h : old.length = new.length) :
    patch (b ++ (old ++ after)) b.length new = b ++ (new ++ after) := by
  rw [patch, List.take_left, List.drop_append, ← h, List.append_assoc]
  simp

theorem patch_at {b old new after : List UInt8} {pos : Nat} (hpos : b.length = pos)
    (h : old.length = new.length) : patch (b ++ (old ++ after)) pos new = b ++ (new ++ after) := by
  rw [← hpos]
  exact patch_middle h

/-- The parameters, the operand counts and the two empty tables. -/
def prologTail : List UInt8 := [1, 1, 251, 14, 10] ++ standardOpcodeLength ++ [0, 0]

theorem unitBytes_eq (line : List DebugLineInfo) (codeAddr : UInt64) :
    unitBytes line codeAddr = u32.encode (UInt32.ofNat ((program line codeAddr).length + 22)) ++
      ([2, 0] ++ (u32.encode 16 ++ (prologTail ++ program line codeAddr))) := by
  rw [unitBytes, DebugLineHeader.bytes, prologTail]
  simp only [List.append_assoc]
  rfl

/-- Both lengths are put into the header of the unit. -/
theorem addDebugLine_eq (b : List UInt8) (line : List DebugLineInfo) (codeAddr : UInt64) :
    addDebugLine b line codeAddr = b ++ unitBytes line codeAddr := by
  have hhead : b ++ defaultDebugLineHeader.bytes ++ standardOpcodeLength ++ [0] ++ [0] =
      (b ++ (u32.encode (-1) ++ [2, 0])) ++ (u32.encode (-1) ++ prologTail) := by
    rw [DebugLineHeader.bytes, prologTail]
    simp only [List.append_assoc]
    rfl
  have hwidth : u32.width = 4 := rfl
  have hlen : ((b ++ (u32.encode (-1) ++ [2, 0])) ++ (u32.encode (-1) ++ prologTail)).length =
      b.length + 26 := by
    simp only [List.length_append, Format.length_encode]
    exact Nat.add_assoc b.length 6 20
  have hpos : (b ++ (u32.encode (-1) ++ [2, 0])).length = b.length + 6 := by
    simp only [List.length_append, Format.length_encode]
    rfl
  have hprolog : b.length + 26 - b.length - 10 = 16 := by omega
  rw [addDebugLine]
  simp only [hhead, hlen, hprolog]
  rw [patch_at hpos (by simp), unitBytes_eq]
  have hbody : b ++ (u32.encode (-1) ++ [2, 0]) ++ (u32.encode (UInt32.ofNat 16) ++ prologTail) ++
      emitLinenoInfo line codeAddr ++ emitLneEndOfSequence =
      b ++ (u32.encode (-1) ++ ([2, 0] ++ (u32.encode 16 ++ (prologTail ++ program line codeAddr)))) := by
    rw [program]
    simp only [List.append_assoc]
    rfl
  have hsize : (b ++ (u32.encode (-1) ++ ([2, 0] ++ (u32.encode 16 ++
      (prologTail ++ program line codeAddr))))).length - b.length - 4 =
      (program line codeAddr).length + 22 := by
    simp only [List.length_append, Format.length_encode]
    have htail : prologTail.length = 16 := rfl
    have hversion : ([2, 0] : List UInt8).length = 2 := rfl
    omega
  rw [hbody, hsize, patch_middle (by simp)]

theorem unitBytes_length (line : List DebugLineInfo) (codeAddr : UInt64) :
    (unitBytes line codeAddr).length = (program line codeAddr).length + 26 := by
  rw [unitBytes_eq]
  simp only [List.length_append, Format.length_encode]
  have hwidth : u32.width = 4 := rfl
  have htail : prologTail.length = 16 := rfl
  have hversion : ([2, 0] : List UInt8).length = 2 := rfl
  omega

theorem readProlog_prologTail : readProlog prologTail = some (params, []) := rfl

theorem readUnit_unitBytes (hne : line :: lines ≠ [])
    (hlen : (program (line :: lines) codeAddr).length + 22 < 2 ^ 32) :
    readUnit (unitBytes (line :: lines) codeAddr) = some (tableOf (line :: lines) hne codeAddr, []) := by
  obtain ⟨st, hemits⟩ := program_emits codeAddr hne (by omega)
  have hlength := unitBytes_length (line :: lines) codeAddr
  have hbytes := unitBytes_eq (line :: lines) codeAddr
  generalize program (line :: lines) codeAddr = prog at hemits hlength hbytes hlen
  generalize unitBytes (line :: lines) codeAddr = bytes at hlength hbytes
  have hwidth : lengthsFormat.width = 10 := rfl
  have hstart : bytes = lengthsFormat.encode (UInt32.ofNat (prog.length + 22), ⟨[2, 0], rfl⟩, 16) ++
      (prologTail ++ prog) := by
    rw [hbytes]
    refine Eq.symm ((List.append_assoc ..).trans (congrArg (_ ++ ·) ?_))
    exact List.append_assoc ..
  have hdecode : lengthsFormat.decode bytes = (UInt32.ofNat (prog.length + 22), ⟨[2, 0], rfl⟩, 16) := by
    rw [hstart, Format.decode_encode]
  have htotal : u32.width + (UInt32.ofNat (prog.length + 22)).toNat = bytes.length := by
    rw [UInt32.toNat_ofNat', Nat.mod_eq_of_lt hlen, hlength]
    exact Nat.add_comm 4 _
  have hencode : (lengthsFormat.encode (UInt32.ofNat (prog.length + 22), ⟨[2, 0], rfl⟩, 16)).length =
      lengthsFormat.width := Format.length_encode ..
  have hprolog : (bytes.take (lengthsFormat.width + (16 : UInt32).toNat)).drop lengthsFormat.width =
      prologTail := by
    rw [hstart, List.drop_take, ← hencode, List.drop_left, Nat.add_sub_cancel_left]
    exact List.take_left' rfl
  have hprogram : (bytes.take bytes.length).drop (lengthsFormat.width + (16 : UInt32).toNat) = prog := by
    rw [List.take_length, hstart, ← hencode, ← List.drop_drop, List.drop_left]
    exact List.drop_left' rfl
  rw [readUnit, if_neg (by omega), hdecode]
  simp only [htotal]
  have hroom : ¬ (([2, 0] : List UInt8) ≠ [2, 0] ∨ bytes.length < bytes.length ∨
      bytes.length < lengthsFormat.width + (16 : UInt32).toNat) := by
    rintro (hversion | hself | hprologEnd)
    · exact hversion rfl
    · exact Nat.lt_irrefl _ hself
    · rw [hlength] at hprologEnd
      change _ < 26 at hprologEnd
      omega
  rw [if_neg hroom, hprolog, readProlog_prologTail, hprogram]
  change (run params prog.length prog (State.start params [])).bind _ = _
  rw [hemits.run, List.drop_length]
  rfl

/-- Where a unit is small enough for its 32-bit length, it reads as the agent's table, and its end is
the end of what has been added. -/
theorem debugLine_rows (b : List UInt8) (line : List DebugLineInfo) (codeAddr : UInt64) (hne : line ≠ [])
    (hlen : (addDebugLine b line codeAddr).length - b.length - 4 < 2 ^ 32) :
    readUnit ((addDebugLine b line codeAddr).drop b.length) = some (tableOf line hne codeAddr, []) := by
  cases line with
  | nil => exact absurd rfl hne
  | cons first lines =>
    rw [addDebugLine_eq, List.drop_left]
    rw [addDebugLine_eq, List.length_append, unitBytes_length] at hlen
    exact readUnit_unitBytes hne (by omega)

/-- Two lines of one file, the second one before the first, and one of another file. -/
def twoFiles : List DebugLineInfo :=
  [⟨4100, 7, ⟨[97], by decide⟩⟩, ⟨4104, 5, ⟨[97], by decide⟩⟩, ⟨4112, 40, ⟨[98], by decide⟩⟩]

theorem debugLine_rows_twoFiles :
    (addDebugLine [] twoFiles 4096).length - 0 - 4 < 2 ^ 32 ∧
    readUnit ((addDebugLine [] twoFiles 4096).drop 0) =
      some ([.row 4096 7 (some [97]), .row 4100 7 (some [97]), .row 4104 5 (some [97]),
        .row 4112 40 (some [98]), .endSequence 4112], []) := by
  have hlen : (addDebugLine [] twoFiles 4096).length - 0 - 4 < 2 ^ 32 := by
    decide +kernel
  exact ⟨hlen, debugLine_rows [] twoFiles 4096 (List.cons_ne_nil _ _) hlen⟩

/-- A unit that reads well ends where its 32-bit length says. -/
theorem readUnit_rest {bytes : List UInt8} {told : List Entry} (h : readUnit bytes = some (told, rest)) :
    ∃ n < 2 ^ 32, rest = bytes.drop (4 + n) := by
  rw [readUnit] at h
  split_ifs at h
  obtain ⟨totalLength, version, prologLength⟩ := lengthsFormat.decode bytes
  simp only at h
  split_ifs at h
  obtain ⟨⟨p, files⟩, -, h⟩ := Option.bind_eq_some_iff.mp h
  obtain ⟨told', -, h⟩ := Option.bind_eq_some_iff.mp h
  cases h
  exact ⟨_, UInt32.toNat_lt _, rfl⟩

theorem long_unit (name : CName) (hname : 2 ^ 32 ≤ name.chars.length) :
    readUnit ((addDebugLine [] [⟨0, 1, name⟩] 0).drop 0) ≠
      some (tableOf [⟨0, 1, name⟩] (List.cons_ne_nil _ _) 0, []) := by
  rw [addDebugLine_eq, List.nil_append, List.drop_zero]
  intro h
  obtain ⟨n, hn, hrest⟩ := readUnit_rest h
  have hlength := unitBytes_length [⟨0, 1, name⟩] 0
  have hprog : name.chars.length ≤ (program [⟨0, 1, name⟩] 0).length := by
    rw [program, emitLinenoInfo, emitLneDefineFilename, CName.bytes]
    simp only [List.length_append]
    omega
  have hend := congrArg List.length hrest
  rw [List.length_nil, List.length_drop] at hend
  omega

def longName : CName where
  chars := List.replicate (2 ^ 32) 97
  noNul h := absurd (List.eq_of_mem_replicate h) (by decide)

theorem longName_length : 2 ^ 32 ≤ longName.chars.length :=
  Nat.le_of_eq (List.length_replicate ..).symm

/-- The length of a unit with a file name of 4 GiB is not told. -/
theorem debugLine_length_wraps :
    readUnit ((addDebugLine [] [⟨0, 1, longName⟩] 0).drop 0) ≠
      some (tableOf [⟨0, 1, longName⟩] (List.cons_ne_nil _ _) 0, []) :=
  long_unit longName longName_length

end Oprofile.Opjitconv
