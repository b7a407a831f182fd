import Oprofile.Daemon.ContextCache

/-! Buffers that consist of complete records and samples. -/
namespace Oprofile.Daemon

/-- A sample, or a record with its entries behind the code. -/
inductive Record
  | sample (pc event : UInt64)
  | ctxSwitch (tid app escape code tgid : UInt64)
  | cpuSwitch (cpu : UInt64)
  | cookieSwitch (cookie : UInt64)
  | kernelEnter
  | userEnter
  | moduleLoaded
  | traceBegin
  | xenEnter
  | ibsFetch (entries : List UInt64)
  | ibsOp (entries : List UInt64)

/-- The escape code of a setup. -/
def escapeOf (o : Setup) : UInt64 := if o.kernelPointerSize = 4 then o.ulongMax else 0xffffffffffffffff

namespace Record

/-- The entries of a record in the buffer. -/
def encode (o : Setup) : Record → Buffer
  | sample pc event => [pc, event]
  | ctxSwitch tid app escape code tgid => [escapeOf o, ctxSwitchCode, tid, app, escape, code, tgid]
  | cpuSwitch cpu => [escapeOf o, cpuSwitchCode, cpu]
  | cookieSwitch cookie => [escapeOf o, cookieSwitchCode, cookie]
  | kernelEnter => [escapeOf o, kernelEnterSwitchCode]
  | userEnter => [escapeOf o, userEnterSwitchCode]
  | moduleLoaded => [escapeOf o, moduleLoadedCode]
  | traceBegin => [escapeOf o, traceBeginCode]
  | xenEnter => [escapeOf o, xenEnterSwitchCode]
  | ibsFetch entries => escapeOf o :: ibsFetchCode :: entries
  | ibsOp entries => escapeOf o :: ibsOpCode :: entries

/-- The address of a sample is no escape code, and a record of IBS has all its entries, with a branch target address if
there is one. -/
def Complete (o : Setup) : Record → Prop
  | sample pc _ => isEscapeCode o pc = false
  | ibsFetch entries => entries.length = 7
  | ibsOp entries => entries.length = if o.ibsBtaEnabled = 1 then 14 else 13
  | _ => True

def ofIbs : Record → Bool
  | ibsFetch _ => true
  | ibsOp _ => true
  | _ => false

/-- The address of a sample of IBS. -/
def rip : Record → UInt64
  | ibsFetch entries => entries.getD 0 0
  | ibsOp entries => entries.getD 0 0
  | _ => 0

/-- What a record sets `trans->in_kernel` to. -/
def privilege : Record → Option Int
  | kernelEnter => some 1
  | xenEnter => some 1
  | userEnter => some 0
  | _ => none

end Record

/-- A buffer of records. -/
def encodeAll (o : Setup) (records : List Record) : Buffer := records.flatMap (Record.encode o)

/-- `trans->in_kernel` as the last record of the three has set it, or as it is at the start of a buffer. -/
def lastPrivilege (records : List Record) : Int := (records.reverse.findSome? Record.privilege).getD (-1)

variable {o : Setup} {sur : Surroundings} {s s' : DaemonState} {r : Record} {records : List Record} {rest : Buffer}

theorem isEscapeCode_escapeOf (o : Setup) : isEscapeCode o (escapeOf o) = true := by
  rw [isEscapeCode, escapeOf]
  split_ifs
  · exact decide_eq_true rfl
  · exact decide_eq_true rfl

theorem Record.two_le_encode (o : Setup) (r : Record) : 2 ≤ (r.encode o).length := by
  cases r <;> simp [encode]

theorem encodeAll_short (o : Setup) (records : List Record) :
    encodeAll o records = [] ∧ records = [] ∨ 2 ≤ (encodeAll o records).length := by
  cases records with
  | nil => exact .inl ⟨rfl, rfl⟩
  | cons r records =>
    have hfirst := r.two_le_encode o
    rw [encodeAll, List.flatMap_cons, List.length_append]
    exact .inr (by omega)

theorem lastPrivilege_snoc (records : List Record) (r : Record) :
    lastPrivilege (records ++ [r]) = (r.privilege).getD (lastPrivilege records) := by
  rw [lastPrivilege, List.reverse_append, List.reverse_singleton, List.singleton_append, List.findSome?_cons]
  cases r.privilege with
  | none => rfl
  | some mode => rfl

namespace DaemonState

theorem processItem_escape (code : UInt64) (rest : Buffer) :
    s.processItem o sur (escapeOf o :: code :: rest) = s.handle o sur code rest := by
  rw [processItem.eq_def]
  dsimp only
  rw [if_pos (isEscapeCode_escapeOf o)]

theorem getD_append {entries : List UInt64} {i n : Nat} (hlength : entries.length = n) (hi : i < n) (rest : Buffer) :
    (entries ++ rest).getD i 0 = entries.getD i 0 := by
  rw [List.getD_eq_getElem?_getD, List.getD_eq_getElem?_getD, List.getElem?_append_left (hlength.symm ▸ hi)]

/-- The branch target address is taken if it belongs to the record. -/
theorem getIbsOpBtaSample_complete {entries : List UInt64}
    (hlength : entries.length = if o.ibsBtaEnabled = 1 then 14 else 13) (hrest : rest = [] ∨ 2 ≤ rest.length)
    (s : DaemonState) (high : UInt32) :
    ∃ target stats, s.getIbsOpBtaSample o high ((entries ++ rest).drop 13) = (target, { s with stats := stats }, rest) := by
  have hsplit : (entries ++ rest).drop 13 = entries.drop 13 ++ rest :=
    List.drop_append_of_le_length (by rw [hlength]; split_ifs <;> omega)
  have hbehind : (entries.drop 13).length = if o.ibsBtaEnabled = 1 then 1 else 0 := by
    rw [List.length_drop, hlength]
    split_ifs <;> rfl
  rw [getIbsOpBtaSample, hsplit, List.length_append, hbehind]
  by_cases hbta : o.ibsBtaEnabled = 1
  · rw [if_pos hbta] at hbehind
    rw [if_pos hbta, if_pos hbta]
    rcases hrest with rfl | hlong
    · exact ⟨_, _, if_pos (by decide)⟩
    · have hdrop : (entries.drop 13 ++ rest).drop 1 = rest := by
        rw [← hbehind, List.drop_left]
      rw [if_neg (by omega), hdrop]
      exact ⟨_, s.stats, rfl⟩
  · rw [if_neg hbta] at hbehind
    rw [if_neg hbta, if_neg hbta, List.eq_nil_of_length_eq_zero hbehind, List.nil_append]
    rcases hrest with rfl | hlong
    · exact ⟨_, _, if_pos (by decide)⟩
    · exact ⟨_, s.stats, if_neg (by omega)⟩

/-- A record of IBS comes down to `opd_put_ibs_sample`. -/
theorem processItem_ibs (s : DaemonState) (sur : Surroundings) (hibs : r.ofIbs = true) (hcomplete : r.Complete o) (hrest : rest = [] ∨ 2 ≤ rest.length) :
    ∃ stats samples ext, s.processItem o sur (r.encode o ++ rest) =
      (s.beginAs r.rip s.trans.event s.trans.inKernel stats samples).opdPutIbsSample o sur ext rest := by
  cases r with
  | ibsFetch entries =>
    have hlength : entries.length = 7 := hcomplete
    refine ⟨(s.bump .ibsFetchSample).stats, s.ibsSamples + 1, ⟨some (fetchSampleOf (entries ++ rest)), none⟩, ?_⟩
    rw [Record.encode, List.cons_append, List.cons_append, processItem_escape]
    show s.codeIbsFetchSample o sur (entries ++ rest) = _
    rw [codeIbsFetchSample, if_neg (by rw [List.length_append]; omega), ← hlength, List.drop_left]
    show ((s.bump .ibsFetchSample).allocIbsSample ((entries ++ rest).getD 0 0)).opdPutIbsSample .. = _
    rw [getD_append hlength (by decide)]
    rfl
  | ibsOp entries =>
    have hlength : entries.length = if o.ibsBtaEnabled = 1 then 14 else 13 := hcomplete
    have hlong : 13 ≤ entries.length := by
      rw [hlength]
      split_ifs <;> omega
    obtain ⟨target, stats, hbta⟩ := getIbsOpBtaSample_complete hlength hrest (s.bump .ibsOpSample)
      ((entries ++ rest).getD 4 0).toUInt32
    refine ⟨stats, s.ibsSamples + 1, ⟨sur.freshFetch s.ibsSamples, some (opSampleOf (entries ++ rest) target)⟩, ?_⟩
    rw [Record.encode, List.cons_append, List.cons_append, processItem_escape]
    show s.codeIbsOpSample o sur (entries ++ rest) = _
    rw [codeIbsOpSample, if_neg (by rw [List.length_append]; omega), hbta]
    show (DaemonState.allocIbsSample _ ((entries ++ rest).getD 0 0)).opdPutIbsSample .. = _
    rw [getD_append rfl (by omega)]
    rfl
  | _ => cases hibs

/-- What an ordinary record or sample does. -/
def perform (o : Setup) (sur : Surroundings) (s : DaemonState) (r : Record) : Option DaemonState :=
  (s.processItem o sur (r.encode o)).map Prod.fst

theorem processItem_sample {pc event : UInt64} (hcode : isEscapeCode o pc = false) (rest : Buffer) :
    s.processItem o sur (pc :: event :: rest) =
      ((s.beginSample pc event).findContext o.toOptions sur).bind fun s₁ =>
        (s₁.logSample o sur).map fun s₂ => (s₂.finishSample, rest) := by
  rw [processItem.eq_def]
  dsimp only
  rw [if_neg (Bool.eq_false_iff.mp hcode), opdPutSample]
  cases (s.beginSample pc event).findContext o.toOptions sur with
  | none => rfl
  | some s₁ =>
    show (s₁.logSample o sur).bind (fun s₂ => some (s₂.finishSample, rest)) = _
    rw [Option.bind_some]
    cases s₁.logSample o sur with
    | none => rfl
    | some s₂ => rfl

theorem perform_sample {pc event : UInt64} (hcode : isEscapeCode o pc = false) :
    s.perform o sur (.sample pc event) =
      ((s.beginSample pc event).findContext o.toOptions sur).bind fun s₁ => (s₁.logSample o sur).map finishSample := by
  rw [perform, Record.encode, processItem_sample hcode, Option.map_bind]
  simp only [Function.comp_def, Option.map_map]

/-- Nothing depends on what follows an ordinary record. -/
theorem processItem_ordinary (hordinary : r.ofIbs = false) (hcomplete : r.Complete o) (rest : Buffer) :
    s.processItem o sur (r.encode o ++ rest) = (s.perform o sur r).map fun s' => (s', rest) := by
  cases r with
  | sample pc event =>
    rw [perform_sample hcomplete, Record.encode, List.cons_append, List.cons_append, List.nil_append,
      processItem_sample hcomplete, Option.map_bind]
    simp only [Function.comp_def, Option.map_map]
  | ibsFetch => cases hordinary
  | ibsOp => cases hordinary
  | _ =>
    rw [perform, Record.encode]
    simp only [List.cons_append, List.nil_append, processItem_escape]
    rfl

/-- What a record does before the rest of the buffer. -/
def next (o : Setup) (sur : Surroundings) (s : DaemonState) (r : Record) (rest : Buffer) : Option DaemonState :=
  (s.processItem o sur (r.encode o ++ rest)).map Prod.fst

theorem next_ordinary (hordinary : r.ofIbs = false) (hcomplete : r.Complete o) (rest : Buffer) :
    s.next o sur r rest = s.perform o sur r := by
  rw [next, processItem_ordinary hordinary hcomplete]
  cases s.perform o sur r with
  | none => rfl
  | some s' => rfl

theorem opdPutIbsSample_rest {ext : IbsExt} {x : DaemonState × Buffer} (h : s.opdPutIbsSample o sur ext rest = some x) :
    x.2 = rest := by
  rw [opdPutIbsSample] at h
  split_ifs at h with hnil
  · cases h
    exact hnil.symm
  · obtain ⟨s₁, -, hbehind⟩ := Option.bind_eq_some_iff.mp h
    obtain ⟨s₂, -, hlast⟩ := Option.bind_eq_some_iff.mp hbehind
    cases hlast
    rfl

/-- A record takes its own entries off the buffer. -/
theorem processItem_record (hcomplete : r.Complete o) (hrest : rest = [] ∨ 2 ≤ rest.length) :
    s.processItem o sur (r.encode o ++ rest) = (s.next o sur r rest).map fun s' => (s', rest) := by
  cases hibs : r.ofIbs with
  | false => rw [next_ordinary hibs hcomplete, processItem_ordinary hibs hcomplete]
  | true =>
    obtain ⟨stats, samples, ext, heq⟩ := processItem_ibs s sur hibs hcomplete hrest
    rw [next, heq]
    cases hput : (s.beginAs r.rip s.trans.event s.trans.inKernel stats samples).opdPutIbsSample o sur ext rest with
    | none => rfl
    | some x => rw [Option.map_some, Option.map_some, ← opdPutIbsSample_rest hput]

/-- Records one after the other, before others. -/
def runRecords (o : Setup) (sur : Surroundings) (after : List Record) : DaemonState → List Record → Option DaemonState
  | s, [] => some s
  | s, r :: records =>
    (s.next o sur r (encodeAll o (records ++ after))).bind fun s' => runRecords o sur after s' records

theorem processItem_encodeAll (s : DaemonState) (sur : Surroundings) (hcomplete : r.Complete o) (records : List Record) :
    s.processItem o sur (encodeAll o (r :: records)) =
      (s.next o sur r (encodeAll o records)).map fun s' => (s', encodeAll o records) :=
  processItem_record hcomplete ((encodeAll_short o records).imp And.left id)

theorem processLoop_records {n : Nat} (hcomplete : ∀ r ∈ records, r.Complete o) (hn : (encodeAll o records).length ≤ n) :
    processLoop o sur n s (encodeAll o records) = runRecords o sur [] s records := by
  induction records generalizing n s with
  | nil =>
    cases n with
    | zero => rfl
    | succ n => rfl
  | cons r records ih =>
    have hlong := r.two_le_encode o
    have hsplit : (encodeAll o (r :: records)).length = (r.encode o).length + (encodeAll o records).length := by
      rw [encodeAll, List.flatMap_cons, List.length_append]
      rfl
    cases n with
    | zero => omega
    | succ n =>
      have hitem := processItem_encodeAll s sur (hcomplete r List.mem_cons_self) records
      cases hbuffer : encodeAll o (r :: records) with
      | nil =>
        rw [hbuffer, List.length_nil] at hsplit
        omega
      | cons code buffer =>
        rw [hbuffer] at hitem
        rw [processLoop, hitem, runRecords, List.append_nil]
        cases s.next o sur r (encodeAll o records) with
        | none => rfl
        | some s' => exact ih (fun r hr => hcomplete r (List.mem_cons_of_mem _ hr)) (by omega)

theorem opdProcessSamples_records (hcomplete : ∀ r ∈ records, r.Complete o) :
    s.opdProcessSamples o sur (encodeAll o records) = runRecords o sur [] s.startBuffer records :=
  processLoop_records hcomplete (Nat.le_refl _)

end DaemonState
end Oprofile.Daemon
