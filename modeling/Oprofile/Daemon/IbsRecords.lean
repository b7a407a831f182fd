import Oprofile.Daemon.Trans
import Mathlib.Logic.Relation

/-! What becomes of the IBS records of a buffer. -/
namespace Oprofile.Daemon

variable {o : Setup} {sur : Surroundings} {s s' : DaemonState} {buffer rest : Buffer} {a current count : Nat} {ext : Bool}

/-! ### What reaches no translator -/

namespace DaemonState

@[simp] theorem translated_bump (s : DaemonState) (stat : DaemonStat) : (s.bump stat).translated = s.translated := rfl

@[simp] theorem translated_clearTransLast (s : DaemonState) : s.clearTransLast.translated = s.translated := rfl

@[simp] theorem translated_clearTransCurrent (s : DaemonState) : s.clearTransCurrent.translated = s.translated := rfl

@[simp] theorem translated_finishSample (s : DaemonState) : s.finishSample.translated = s.translated := rfl

theorem translated_foldl {A : Type} {f : DaemonState → A → DaemonState} (hf : ∀ s x, (f s x).translated = s.translated)
    (xs : List A) (s : DaemonState) : (xs.foldl f s).translated = s.translated := by
  induction xs generalizing s with
  | nil => rfl
  | cons x xs ih => exact (ih (f s x)).trans (hf s x)

@[simp] theorem translated_freeAnon (s : DaemonState) (a : Nat) : (s.freeAnon a).translated = s.translated := by
  unfold freeAnon
  split <;> rfl

@[simp] theorem translated_doLru (s : DaemonState) : s.doLru.translated = s.translated := by
  apply translated_foldl
  intro s a
  split
  · exact translated_freeAnon _ a
  · exact translated_freeAnon _ a

@[simp] theorem translated_clearAnonMaps (s : DaemonState) : s.clearAnonMaps.translated = s.translated :=
  translated_foldl translated_freeAnon _ s.clearTransCurrent

theorem translated_getAnonLine (s : DaemonState) (line : MapsLine) : (s.getAnonLine line).translated = s.translated := by
  simp only [getAnonLine, addAnonMapping]
  split
  · rfl
  · split
    · exact translated_doLru _
    · rfl

@[simp] theorem translated_getAnonMaps (s : DaemonState) (sur : Surroundings) :
    (s.getAnonMaps sur).translated = s.translated := by
  exact translated_foldl translated_getAnonLine _ { s with mapsRead := s.mapsRead + 1 }

@[simp] theorem translated_findAnonMapping (s : DaemonState) (sur : Surroundings) :
    (s.findAnonMapping sur).2.translated = s.translated := by
  have hlater : (s.clearAnonMaps.getAnonMaps sur).translated = s.translated :=
    (translated_getAnonMaps _ sur).trans (translated_clearAnonMaps s)
  simp only [findAnonMapping]
  split
  · rfl
  · split
    · rfl
    · split
      · exact hlater
      · exact hlater

theorem translated_findAnon (s : DaemonState) (sur : Surroundings) : (s.findAnon sur).translated = s.translated := by
  unfold findAnon
  split
  · exact translated_findAnonMapping s sur
  · rfl

theorem translated_dropCached (s : DaemonState) : s.dropCached.translated = s.translated := by
  unfold dropCached
  split <;> rfl

theorem translated_findContext (h : s.findContext o.toOptions sur = some s') : s'.translated = s.translated := by
  have hbefore : (s.dropCached.findAnon sur).translated = s.translated :=
    (translated_findAnon _ sur).trans (translated_dropCached s)
  simp only [findContext, findCurrent] at h
  split at h
  · cases h
    exact hbefore
  · obtain ⟨found, -, rfl⟩ := Option.map_eq_some_iff.mp h
    exact hbefore

@[simp] theorem translated_mapToKernel (s : DaemonState) : s.mapToKernel.translated = s.translated := by
  unfold mapToKernel
  split <;> rfl

/-- A derived event is logged without an abort. -/
theorem opdLogIbsEvent_some (o : Setup) (sur : Surroundings) (s : DaemonState) (current : Nat)
    (x : DerivedEvent × UInt32) :
    ∃ s', s.opdLogIbsEvent o sur current x = some s' ∧ s'.translated = s.translated := by
  simp only [opdLogIbsEvent, sfileLogSampleCount, counterOk, Bool.true_or, if_true]
  split
  · split
    · exact ⟨_, rfl, rfl⟩
    · exact ⟨_, rfl, rfl⟩
  · exact ⟨_, rfl, rfl⟩

theorem logDerived_some (o : Setup) (sur : Surroundings) (current : Nat) (events : Logged) (s : DaemonState) :
    ∃ s', s.logDerived o sur current events = some s' ∧ s'.translated = s.translated := by
  induction events generalizing s with
  | nil => exact ⟨s, rfl, rfl⟩
  | cons x events ih =>
    obtain ⟨s₁, hs₁, hkept₁⟩ := opdLogIbsEvent_some o sur s current x
    obtain ⟨s₂, hs₂, hkept₂⟩ := ih s₁
    refine ⟨s₂, ?_, hkept₂.trans hkept₁⟩
    rw [logDerived, List.foldlM_cons, hs₁]
    exact hs₂

end DaemonState

/-! ### A record -/

inductive IbsKind
  | fetch | op
  deriving DecidableEq

namespace IbsKind

/-- The code after the escape code. -/
def code : IbsKind → UInt64
  | fetch => ibsFetchCode
  | op => ibsOpCode

/-- The entries of a record after its code. -/
def length (o : Setup) : IbsKind → Nat
  | fetch => 7
  | op => if o.ibsBtaEnabled = 1 then 14 else 13

def incomplete : IbsKind → DaemonStat
  | fetch => .ibsFetchIncomplete
  | op => .ibsOpIncomplete

end IbsKind

def IbsSample.kind : IbsSample → IbsKind
  | .fetch _ => .fetch
  | .op _ => .op

/-- The next in the buffer is a record of that kind. -/
def AtRecord (o : Setup) (buffer : Buffer) (kind : IbsKind) (rest : Buffer) : Prop :=
  ∃ esc, isEscapeCode o esc = true ∧ buffer = esc :: kind.code :: rest

/-- A complete record is consumed and reaches the translators of its kind once, and no others; an incomplete one is
dropped and counted. -/
def HandledAs (o : Setup) (sur : Surroundings) (s : DaemonState) (buffer : Buffer) (kind : IbsKind) (rest : Buffer) :
    Prop :=
  ∃ s' buffer', s.processItem o sur buffer = some (s', buffer') ∧
    if kind.length o ≤ rest.length then
      buffer' = rest.drop (kind.length o) ∧ ∃ x, x.kind = kind ∧ s'.translated = s.translated ++ [x]
    else
      buffer' = [] ∧ s'.translated = s.translated ∧ s'.stats kind.incomplete = s.stats kind.incomplete + 1

/-- An sfile is found for the IBS sample. -/
def FindsSfile (o : Setup) (sur : Surroundings) (s : DaemonState) : Prop :=
  ∃ s' current, s.beginIbsSample.findContext o.toOptions sur = some s' ∧ s'.trans.current = some current

/-- The translators called for a sample whose sfile is found. -/
def reached (o : Setup) (ext : IbsExt) : List IbsSample :=
  match ext.fetch, ext.op with
  | some x, _ => [.fetch x]
  | none, some x => if (transIbsOpMaskReserved o.ibsFamily x).ripInvalid then [] else [.op x]
  | none, none => []

section Put

theorem logIbsSample_some (o : Setup) (sur : Surroundings) (ext : IbsExt) (hcurrent : s.trans.current = some current) :
    ∃ s', s.logIbsSample o sur ext = some s' ∧ s'.translated = s.translated ++ reached o ext := by
  obtain ⟨fetch, op⟩ := ext
  unfold DaemonState.logIbsSample
  rw [hcurrent]
  cases fetch with
  | some x => exact (s.reach (.fetch x)).logDerived_some o sur current _
  | none =>
    cases op with
    | none => exact ⟨s, rfl, (List.append_nil _).symm⟩
    | some x =>
      simp only [Option.isSome_none, Bool.false_eq_true, if_false, DaemonState.logIbsOp, reached]
      split
      · exact ⟨s, rfl, (List.append_nil _).symm⟩
      · exact (s.reach (.op x)).logDerived_some o sur current _

theorem translated_beginIbsSample (s : DaemonState) : s.beginIbsSample.translated = s.translated :=
  DaemonState.translated_mapToKernel s

/-- `opd_put_ibs_sample` reaches the translators where something is left of the buffer and an sfile is found. -/
theorem opdPutIbsSample_iff (o : Setup) (sur : Surroundings) (s : DaemonState) (ext : IbsExt) (k : IbsKind)
    (buffer : Buffer) : (∃ s', s.opdPutIbsSample o sur ext buffer = some (s', buffer) ∧
      ∃ x : IbsSample, x.kind = k ∧ s'.translated = s.translated ++ [x]) ↔
    buffer ≠ [] ∧ FindsSfile o sur s ∧ ∃ x : IbsSample, x.kind = k ∧ reached o ext = [x] := by
  unfold DaemonState.opdPutIbsSample
  by_cases hbuffer : buffer = []
  · rw [if_pos hbuffer]
    constructor
    · rintro ⟨s', hput, x, -, htranslated⟩
      cases hput
      simp at htranslated
    · rintro ⟨hne, -⟩
      exact (hne hbuffer).elim
  · rw [if_neg hbuffer]
    cases hfind : s.beginIbsSample.findContext o.toOptions sur with
    | none =>
      constructor
      · rintro ⟨s', hput, -⟩
        cases hput
      · rintro ⟨-, ⟨s', current, hfound, -⟩, -⟩
        rw [hfind] at hfound
        cases hfound
    | some s₁ =>
      have hkept : s₁.translated = s.translated :=
        (DaemonState.translated_findContext hfind).trans (translated_beginIbsSample s)
      cases hcurrent : s₁.trans.current with
      | none =>
        have hlog : s₁.logIbsSample o sur ext = some s₁ := by
          unfold DaemonState.logIbsSample
          rw [hcurrent]
        simp only [Option.bind_eq_bind, Option.bind_some, hlog]
        constructor
        · rintro ⟨s', hput, x, -, htranslated⟩
          cases hput
          rw [DaemonState.translated_finishSample, hkept] at htranslated
          simp at htranslated
        · rintro ⟨-, ⟨s', current, hfound, hsome⟩, -⟩
          cases hfind.symm.trans hfound
          rw [hcurrent] at hsome
          cases hsome
      | some current =>
        obtain ⟨s₂, hlog, htranslated₂⟩ := logIbsSample_some o sur ext hcurrent
        simp only [Option.bind_eq_bind, Option.bind_some, hlog]
        constructor
        · rintro ⟨s', hput, x, hkind, htranslated⟩
          cases hput
          rw [DaemonState.translated_finishSample, htranslated₂, hkept] at htranslated
          exact ⟨hbuffer, ⟨s₁, current, hfind, hcurrent⟩, x, hkind, List.append_cancel_left htranslated⟩
        · rintro ⟨-, -, x, hkind, hreached⟩
          refine ⟨s₂.finishSample, rfl, x, hkind, ?_⟩
          rw [DaemonState.translated_finishSample, htranslated₂, hkept, hreached]

end Put

/-- `IbsRipInvalid` of an op record, which is reserved in family 0x10. -/
def ripMarkedInvalid (o : Setup) (rest : Buffer) : Bool := o.ibsFamily != 0x10 && bits (rest.getD 4 0).toUInt32 0x00000040

theorem ripInvalid_maskReserved (family : UInt32) (x : IbsOpSample) :
    (transIbsOpMaskReserved family x).ripInvalid = (family != 0x10 && bits x.ibsOpData1High 0x00000040) := by
  unfold transIbsOpMaskReserved
  split
  · rename_i hfamily
    have hcleared : x.ibsOpData1High &&& ~~~0x00000040 &&& 0x00000040 = 0 := by
      rw [UInt32.and_assoc, UInt32.not_and_self, UInt32.and_zero]
    simp [hfamily, IbsOpSample.ripInvalid, bits, hcleared]
  · rename_i hfamily
    split
    · simp [hfamily, IbsOpSample.ripInvalid]
    · split
      · simp [hfamily, IbsOpSample.ripInvalid]
      · simp [hfamily, IbsOpSample.ripInvalid]

/-- Where a complete record is handled as it should be: an sfile is found; after a fetch record there is one entry
more, and after an op record there are two, or one with its branch target; the memory for an op record is such that
the field `fetch` is null; and the address of an op record is valid. -/
def Meets (o : Setup) (sur : Surroundings) (s : DaemonState) (rest : Buffer) : IbsKind → Prop
  | .fetch => 8 ≤ rest.length ∧ FindsSfile o sur ((s.bump .ibsFetchSample).allocIbsSample (rest.getD 0 0))
  | .op => 15 ≤ rest.length ∧ FindsSfile o sur ((s.bump .ibsOpSample).allocIbsSample (rest.getD 0 0)) ∧
      sur.freshFetch s.ibsSamples = none ∧ ripMarkedInvalid o rest = false

theorem processItem_handle {esc code : UInt64} (hesc : isEscapeCode o esc = true) :
    s.processItem o sur (esc :: code :: rest) = s.handle o sur code rest := if_pos hesc

theorem handle_fetch : s.handle o sur ibsFetchCode rest = s.codeIbsFetchSample o sur rest := rfl

theorem handle_op : s.handle o sur ibsOpCode rest = s.codeIbsOpSample o sur rest := rfl

theorem drop_ne_nil_iff (n : Nat) : rest.drop n ≠ [] ↔ n < rest.length := by
  rw [ne_eq, List.drop_eq_nil_iff, Nat.not_le]

/-- A fetch record. -/
theorem handledAs_fetch_iff {esc : UInt64} (hesc : isEscapeCode o esc = true) :
    HandledAs o sur s (esc :: IbsKind.fetch.code :: rest) .fetch rest ↔
      (IbsKind.fetch.length o ≤ rest.length → Meets o sur s rest .fetch) := by
  have hitem : s.processItem o sur (esc :: IbsKind.fetch.code :: rest) = s.codeIbsFetchSample o sur rest :=
    (processItem_handle hesc).trans handle_fetch
  unfold HandledAs
  rw [hitem]
  unfold DaemonState.codeIbsFetchSample
  by_cases hlen : IbsKind.fetch.length o ≤ rest.length
  · have hlong : ¬ rest.length < 7 := Nat.not_lt.mpr hlen
    rw [if_neg hlong]
    simp only [if_pos hlen]
    constructor
    · rintro ⟨s', buffer', hput, rfl, hreach⟩ -
      obtain ⟨hne, hfind, -⟩ := (opdPutIbsSample_iff _ _ _ _ .fetch _).mp ⟨s', hput, hreach⟩
      exact ⟨(drop_ne_nil_iff 7).mp hne, hfind⟩
    · intro hmeets
      obtain ⟨hmore, hfind⟩ := hmeets hlen
      obtain ⟨s', hput, hreach⟩ := (opdPutIbsSample_iff _ _ _ ⟨some (DaemonState.fetchSampleOf rest), none⟩ .fetch _).mpr
        ⟨(drop_ne_nil_iff 7).mpr hmore, hfind, .fetch _, rfl, rfl⟩
      exact ⟨s', _, hput, rfl, hreach⟩
  · have hshort : rest.length < 7 := Nat.not_le.mp hlen
    rw [if_pos hshort]
    simp only [if_neg hlen]
    constructor
    · intro _ hle
      exact (hlen hle).elim
    · intro _
      exact ⟨_, [], rfl, rfl, rfl, rfl⟩

theorem reached_op_iff {fetch : Option IbsFetchSample} {x : IbsOpSample} :
    (∃ y : IbsSample, y.kind = .op ∧ reached o ⟨fetch, some x⟩ = [y]) ↔
      fetch = none ∧ (transIbsOpMaskReserved o.ibsFamily x).ripInvalid = false := by
  unfold reached
  cases fetch with
  | some z =>
    constructor
    · rintro ⟨y, hkind, hy⟩
      cases hy
      cases hkind
    · rintro ⟨hnone, -⟩
      cases hnone
  | none =>
    cases hrip : (transIbsOpMaskReserved o.ibsFamily x).ripInvalid with
    | true =>
      constructor
      · rintro ⟨y, -, hy⟩
        simp [hrip] at hy
      · rintro ⟨-, hfalse⟩
        cases hfalse
    | false =>
      constructor
      · rintro -
        exact ⟨rfl, rfl⟩
      · rintro -
        exact ⟨.op x, rfl, by simp [hrip]⟩

/-- An op record. -/
theorem handledAs_op_iff {esc : UInt64} (hesc : isEscapeCode o esc = true) :
    HandledAs o sur s (esc :: IbsKind.op.code :: rest) .op rest ↔
      (IbsKind.op.length o ≤ rest.length → Meets o sur s rest .op) := by
  have hitem : s.processItem o sur (esc :: IbsKind.op.code :: rest) = s.codeIbsOpSample o sur rest :=
    (processItem_handle hesc).trans handle_op
  have hlength : IbsKind.op.length o = if o.ibsBtaEnabled = 1 then 14 else 13 := rfl
  unfold HandledAs
  rw [hitem]
  unfold DaemonState.codeIbsOpSample
  by_cases hshort : rest.length < 13
  · have hlen : ¬ IbsKind.op.length o ≤ rest.length := by
      rw [hlength]
      split <;> omega
    rw [if_pos hshort]
    simp only [if_neg hlen]
    constructor
    · intro _ hle
      exact (hlen hle).elim
    · intro _
      exact ⟨_, [], rfl, rfl, rfl, rfl⟩
  · rw [if_neg hshort]
    by_cases hfew : (rest.drop 13).length < 2
    · -- the record is taken for incomplete, whether it is or not
      have hfewer : rest.length < 15 := by
        rw [List.length_drop] at hfew
        omega
      have hbta : (s.bump .ibsOpSample).getIbsOpBtaSample o (rest.getD 4 0).toUInt32 (rest.drop 13) =
          (0, ((s.bump .ibsOpSample).bump .danglingCode).bump .ibsOpIncomplete, []) := if_pos hfew
      rw [hbta]
      simp only [DaemonState.opdPutIbsSample, if_true]
      constructor
      · rintro ⟨s', buffer', hput, hhandled⟩ hle
        rw [if_pos hle] at hhandled
        obtain ⟨-, x, -, htranslated⟩ := hhandled
        cases hput
        simp [DaemonState.allocIbsSample] at htranslated
      · intro hmeets
        refine ⟨_, [], rfl, ?_⟩
        rw [if_neg fun hle => absurd (hmeets hle).1 (Nat.not_le.mpr hfewer)]
        exact ⟨rfl, rfl, rfl⟩
    · have hmore : 15 ≤ rest.length := by
        rw [List.length_drop] at hfew
        omega
      have hle : IbsKind.op.length o ≤ rest.length := by
        rw [hlength]
        split <;> omega
      obtain ⟨target, hbta⟩ : ∃ target, (s.bump .ibsOpSample).getIbsOpBtaSample o (rest.getD 4 0).toUInt32
          (rest.drop 13) = (target, s.bump .ibsOpSample, rest.drop (IbsKind.op.length o)) := by
        unfold DaemonState.getIbsOpBtaSample
        rw [if_neg hfew, hlength]
        split
        · rw [List.drop_drop]
          exact ⟨_, rfl⟩
        · exact ⟨_, rfl⟩
      have hne : rest.drop (IbsKind.op.length o) ≠ [] := by
        rw [drop_ne_nil_iff, hlength]
        split <;> omega
      have hrip : (transIbsOpMaskReserved o.ibsFamily (DaemonState.opSampleOf rest target)).ripInvalid =
          ripMarkedInvalid o rest := ripInvalid_maskReserved _ _
      have hput := opdPutIbsSample_iff o sur ((s.bump .ibsOpSample).allocIbsSample (rest.getD 0 0))
        ⟨sur.freshFetch s.ibsSamples, some (DaemonState.opSampleOf rest target)⟩ .op
        (rest.drop (IbsKind.op.length o))
      rw [reached_op_iff, hrip] at hput
      rw [hbta]
      simp only [if_pos hle]
      constructor
      · rintro ⟨s', buffer', hitem, rfl, hreach⟩ -
        obtain ⟨-, hfind, hnull, hvalid⟩ := hput.mp ⟨s', hitem, hreach⟩
        exact ⟨hmore, hfind, hnull, hvalid⟩
      · intro hmeets
        obtain ⟨-, hfind, hnull, hvalid⟩ := hmeets hle
        obtain ⟨s', hitem, hreach⟩ := hput.mpr ⟨hne, hfind, hnull, hvalid⟩
        exact ⟨s', _, hitem, rfl, hreach⟩

/-! ### A buffer -/

/-- One round of the loop, on the state and what is left of the buffer. -/
def Round (o : Setup) (sur : Surroundings) (x y : DaemonState × Buffer) : Prop := x.1.processItem o sur x.2 = some y

/-- What the loop comes to, from the start of a buffer. -/
def Reaches (o : Setup) (sur : Surroundings) (s : DaemonState) (buffer : Buffer) (x : DaemonState × Buffer) : Prop :=
  Relation.ReflTransGen (Round o sur) (s.startBuffer, buffer) x

/-- Every IBS record of a buffer. -/
def EachRecord (o : Setup) (sur : Surroundings) (s : DaemonState) (buffer : Buffer)
    (P : DaemonState → Buffer → IbsKind → Buffer → Prop) : Prop :=
  ∀ s' buffer' kind rest, Reaches o sur s buffer (s', buffer') → AtRecord o buffer' kind rest → P s' buffer' kind rest

/-- The records of a buffer are handled as they should be exactly if each complete one meets the conditions. -/
theorem ibs_records_iff (o : Setup) (sur : Surroundings) (s : DaemonState) (buffer : Buffer) :
    EachRecord o sur s buffer (HandledAs o sur) ↔
      EachRecord o sur s buffer fun s _ kind rest => kind.length o ≤ rest.length → Meets o sur s rest kind := by
  have hone : ∀ s' buffer' kind rest, AtRecord o buffer' kind rest → (HandledAs o sur s' buffer' kind rest ↔
      (kind.length o ≤ rest.length → Meets o sur s' rest kind)) := by
    rintro s' buffer' kind rest ⟨esc, hesc, rfl⟩
    cases kind with
    | fetch => exact handledAs_fetch_iff hesc
    | op => exact handledAs_op_iff hesc
  constructor
  · intro hhandled s' buffer' kind rest hreach hat
    exact (hone s' buffer' kind rest hat).mp (hhandled s' buffer' kind rest hreach hat)
  · intro hmeets s' buffer' kind rest hreach hat
    exact (hone s' buffer' kind rest hat).mpr (hmeets s' buffer' kind rest hreach hat)

/-- One counter, no separation, and branch targets switched off. -/
def plainSetup : Setup where
  toOptions := unseparated
  kernelPointerSize := 8
  ulongMax := 0xffffffffffffffff
  ibsBtaEnabled := 0
  ibsFamily := 0x10
  ibsSelected := fun _ => 0xffffffff

def plainSurroundings : Surroundings where
  cmdline := fun _ => .present
  maps := fun _ _ => []
  modules := fun _ => []
  evicted := fun _ _ => false
  freshFetch := fun _ => none

def smallImages : KernelImages := ⟨false, smallVmlinux, noXen, []⟩

def escapeCode : UInt64 := 0xffffffffffffffff

/-- User mode, with a cookie. -/
def userContext : Buffer := [escapeCode, userEnterSwitchCode, escapeCode, cookieSwitchCode, 7]

def fetchEntries : Buffer := [0x4000, 0, 0, 0, 0, 0, 0]

/-- A fetch record that ends the buffer. -/
theorem last_record_dropped : ¬EachRecord plainSetup plainSurroundings (DaemonState.init smallImages)
    (userContext ++ escapeCode :: ibsFetchCode :: fetchEntries) (HandledAs plainSetup plainSurroundings) := by
  intro hall
  obtain ⟨s, hreach⟩ : ∃ s, Reaches plainSetup plainSurroundings (DaemonState.init smallImages)
      (userContext ++ escapeCode :: ibsFetchCode :: fetchEntries) (s, escapeCode :: ibsFetchCode :: fetchEntries) := by
    obtain ⟨s₁, huser⟩ : ∃ s₁, (DaemonState.init smallImages).startBuffer.processItem plainSetup plainSurroundings
        (userContext ++ escapeCode :: ibsFetchCode :: fetchEntries) =
        some (s₁, escapeCode :: cookieSwitchCode :: 7 :: escapeCode :: ibsFetchCode :: fetchEntries) := ⟨_, rfl⟩
    obtain ⟨s₂, hcookie⟩ : ∃ s₂, s₁.processItem plainSetup plainSurroundings
        (escapeCode :: cookieSwitchCode :: 7 :: escapeCode :: ibsFetchCode :: fetchEntries) =
        some (s₂, escapeCode :: ibsFetchCode :: fetchEntries) := ⟨_, rfl⟩
    exact ⟨s₂, .tail (.single huser) hcookie⟩
  obtain ⟨s', buffer', hitem, hhandled⟩ := hall s _ .fetch fetchEntries hreach
    ⟨escapeCode, rfl, rfl⟩
  obtain ⟨-, x, -, htranslated⟩ := hhandled
  cases hitem
  simp [DaemonState.allocIbsSample] at htranslated

end Oprofile.Daemon
