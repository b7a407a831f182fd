import Oprofile.PeUtils.EventSpecs

/-! When the event that is used agrees with the one that was checked. -/
namespace Oprofile.PeUtils

open CNumbers Words Results Libop
open SampleNames (Text)

variable {profiling : Bool} {junk spec part name : Text} {parsed : ParsedEvent} {event : OperfEvent} {n : Int32}
  {token field : Option Text}

/-! What `strtok` makes of an accepted specification. -/

theorem words_spec (spec : Text) : words ':' spec = (specFields spec).filter (· ≠ []) := by
  rw [words_eq_filter, specFields]
  obtain ⟨w, ws, hsplit, -⟩ := eq_pieces ':' spec
  rw [hsplit]
  cases w with
  | nil => rfl
  | cons c w => rfl

/-- The count that is used. -/
def usedCount (profiling : Bool) (spec : Text) : UInt64 :=
  if profiling then (atoi ((specFields spec)[1]?.getD [])).toInt64.toUInt64 else 0

theorem opProcessEvent_accepted (junk : Text) (h : Accepted profiling spec parsed) :
    opProcessEvent profiling junk spec =
      some (optionalParts (freshEvent (copyName parsed.name junk) (usedCount profiling spec))
        (optionWords profiling spec) 1) := by
  obtain ⟨hname, hne⟩ := present_eq_some.mp h.name
  have hcount := h.count
  unfold opProcessEvent optionWords optionFields usedCount
  rw [words_spec]
  generalize specFields spec = fields at *
  cases fields with
  | nil => cases hname
  | cons first rest =>
    obtain rfl : first = parsed.name := Option.some.inj hname
    have hfirst : (parsed.name :: rest).filter (· ≠ []) = parsed.name :: rest.filter (· ≠ []) :=
      List.filter_cons_of_pos (decide_eq_true hne)
    rw [hfirst]
    cases profiling with
    | false =>
      have hdrop : (parsed.name :: rest).drop (required false) = rest := rfl
      rw [hdrop]
      cases rest.filter (· ≠ []) <;> rfl
    | true =>
      obtain ⟨count, hpart, -⟩ := hcount
      obtain ⟨hfield, hcne⟩ := present_eq_some.mp hpart
      cases rest with
      | nil => cases hfield
      | cons second rest =>
        obtain rfl : second = count := Option.some.inj hfield
        have hsecond : (second :: rest).filter (· ≠ []) = second :: rest.filter (· ≠ []) :=
          List.filter_cons_of_pos (decide_eq_true hcne)
        rw [hsecond]
        rfl

/-- One optional part, if it is there. -/
def partAt (event : OperfEvent) (info : Option Text) (place : Nat) : OperfEvent :=
  info.elim event fun info => optionalPart event info place

theorem optionalParts_late (event : OperfEvent) (parts : List Text) (place : Nat) (h : 4 ≤ place) :
    optionalParts event parts place = event := by
  induction parts generalizing event place with
  | nil => rfl
  | cons info parts ih =>
    obtain ⟨k, rfl⟩ := Nat.exists_eq_add_of_le' h
    exact ih event (k + 4 + 1) (by omega)

theorem optionalParts_eq (event : OperfEvent) (parts : List Text) :
    optionalParts event parts 1 = partAt (partAt (partAt event parts[0]? 1) parts[1]? 2) parts[2]? 3 := by
  rcases parts with _ | ⟨um, _ | ⟨kernel, _ | ⟨user, parts⟩⟩⟩
  · rfl
  · rfl
  · rfl
  · exact optionalParts_late _ parts 4 (Nat.le_refl 4)

/-- The unit mask of an event whose first optional word is `token`. -/
theorem partAt_mask (name : Text) (count : UInt64) (token : Option Text) :
    (partAt (freshEvent name count) token 1).evtUm =
      (match token with
        | some t => if IsNumber t then UInt64.ofNat (strtoul t).1 else 0
        | none => 0) ∧
    (partAt (freshEvent name count) token 1).umName =
      (match token with
        | some t => if IsNumber t then [] else t.take (opMaxUmNameLen - 1)
        | none => []) := by
  cases token with
  | none => exact ⟨rfl, rfl⟩
  | some t =>
    change (optionalPart (freshEvent name count) t 1).evtUm = _ ∧ (optionalPart (freshEvent name count) t 1).umName = _
    simp only [optionalPart]
    by_cases ht : IsNumber t
    · have hrest : ¬(strtoul t).2 ≠ [] := fun hn => hn ht
      rw [if_neg hrest, if_pos ht, if_pos ht]
      exact ⟨rfl, rfl⟩
    · have hrest : (strtoul t).2 ≠ [] := ht
      rw [if_pos hrest, if_neg ht, if_neg ht]
      exact ⟨rfl, rfl⟩

/-- The words behind the first leave name, count and unit mask alone. -/
theorem partAt_ring (event : OperfEvent) (token : Option Text) :
    (partAt event token 2).name = event.name ∧ (partAt event token 2).count = event.count ∧
      (partAt event token 2).evtUm = event.evtUm ∧ (partAt event token 2).umName = event.umName ∧
      (partAt event token 2).noUser = event.noUser ∧
      ((partAt event token 2).noKernel = true ↔ event.noKernel = true ∨ ∃ t, token = some t ∧ atoi t = 0) ∧
    (partAt event token 3).name = event.name ∧ (partAt event token 3).count = event.count ∧
      (partAt event token 3).evtUm = event.evtUm ∧ (partAt event token 3).umName = event.umName ∧
      (partAt event token 3).noKernel = event.noKernel ∧
      ((partAt event token 3).noUser = true ↔ event.noUser = true ∨ ∃ t, token = some t ∧ atoi t = 0) := by
  cases token with
  | none => simp [partAt]
  | some t => simp [partAt, optionalPart]

theorem partAt_fresh (name : Text) (count : UInt64) (token : Option Text) :
    (partAt (freshEvent name count) token 1).name = name ∧ (partAt (freshEvent name count) token 1).count = count ∧
      (partAt (freshEvent name count) token 1).noKernel = false ∧
      (partAt (freshEvent name count) token 1).noUser = false := by
  cases token with
  | none => exact ⟨rfl, rfl, rfl, rfl⟩
  | some t =>
    change (optionalPart (freshEvent name count) t 1).name = _ ∧ (optionalPart (freshEvent name count) t 1).count = _ ∧
      (optionalPart (freshEvent name count) t 1).noKernel = _ ∧ (optionalPart (freshEvent name count) t 1).noUser = _
    simp only [optionalPart]
    split_ifs <;> exact ⟨rfl, rfl, rfl, rfl⟩

/-! Field against word. -/

theorem parseUlong_ok (h : parseUlong part = .ok n) : IsNumber part ∧ n = Int32.ofNat (strtoul part).1 := by
  simp only [parseUlong] at h
  split_ifs at h with hrest
  exact ⟨not_not.mp hrest, (Except.ok.inj h).symm⟩

theorem copyName_eq_iff (hlen : name.length < opMaxEvtNameLen) :
    copyName name junk = name ↔ name.length < opMaxEvtNameLen - 1 ∨ junk = [] := by
  rw [copyName]
  by_cases hshort : name.length < opMaxEvtNameLen - 1
  · rw [if_pos hshort]
    exact iff_of_true rfl (Or.inl hshort)
  · have htake : name.take (opMaxEvtNameLen - 1) = name := List.take_of_length_le (by omega)
    rw [if_neg hshort, htake, List.append_right_eq_self]
    exact ⟨Or.inr, fun h => h.resolve_left hshort⟩

theorem toUInt64_inj {x y : Int32} : x.toInt64.toUInt64 = y.toInt64.toUInt64 ↔ x = y := by
  constructor
  · intro h
    have hint : x.toInt64.toInt = y.toInt64.toInt := congrArg (fun u => u.toInt64.toInt) h
    rw [Int32.toInt_toInt64, Int32.toInt_toInt64] at hint
    exact Int32.toInt_inj.mp hint
  · exact congrArg fun z : Int32 => z.toInt64.toUInt64

/-- The count. -/
theorem count_alike (hparse : parseUlong part = .ok n) (hlt : Plain part → (strtoul part).1 < 2 ^ 31) :
    (atoi part).toInt64.toUInt64 = n.toInt64.toUInt64 ↔ Plain part ∨ atoi part = Int32.ofNat (strtoul part).1 := by
  obtain ⟨-, rfl⟩ := parseUlong_ok hparse
  rw [toUInt64_inj]
  constructor
  · exact Or.inr
  · rintro (hplain | hsame)
    · apply Int32.toInt_inj.mp
      rw [hplain.atoi_toInt (hlt hplain), Int32.toInt_ofNat_of_lt (hlt hplain)]
    · exact hsame

/-- The unit mask: the first optional field, if it is there, is the first word too. -/
theorem mask_alike {mask : Int32} {maskName : Option Text} {valid : Bool} (name : Text) (count : UInt64)
    (token : Option Text)
    (hparse : parseUnitMask field = .ok (mask, maskName, valid))
    (hlt : ∀ p, field = some p → p.head?.any isDecimal = true → (strtoul p).1 < 2 ^ 31)
    (hfirst : ∀ p, field = some p → p ≠ [] ∧ token = some p) :
    (((partAt (freshEvent name count) token 1).evtUm.toNat : Int) = mask.toInt ∧
      (partAt (freshEvent name count) token 1).umName = maskName.getD []) ↔ MaskAlike field token := by
  obtain ⟨hum, humName⟩ := partAt_mask name count token
  rw [hum, humName]
  cases field with
  | none =>
    cases hparse
    rw [MaskAlike]
    cases token with
    | none => exact iff_of_true ⟨rfl, rfl⟩ (fun t ht => by cases ht)
    | some t =>
      have hlt := strtoul_lt t
      have hz : ((0 : Int32).toInt) = 0 := rfl
      simp only [Option.some.injEq, forall_eq', Option.getD_none, hz]
      by_cases ht : IsNumber t
      · rw [if_pos ht, if_pos ht, UInt64.toNat_ofNat', Nat.mod_eq_of_lt hlt]
        constructor
        · rintro ⟨hzero, -⟩
          exact ⟨ht, Int.natCast_eq_zero.mp hzero⟩
        · rintro ⟨-, hzero⟩
          exact ⟨Int.natCast_eq_zero.mpr hzero, rfl⟩
      · rw [if_neg ht, if_neg ht]
        constructor
        · rintro ⟨-, hnil⟩
          exfalso
          apply ht
          rcases List.take_eq_nil_iff.mp hnil with hlen | hempty
          · exact absurd hlen (by decide)
          · rw [hempty]
            decide
        · rintro ⟨hnum, -⟩
          exact absurd hnum ht
  | some p =>
    obtain ⟨hne, rfl⟩ := hfirst p rfl
    dsimp only [MaskAlike]
    simp only [parseUnitMask] at hparse
    by_cases hdigit : p.head?.any isDecimal = true
    · rw [if_pos hdigit] at hparse
      cases hnum : parseUlong p with
      | error message =>
        rw [hnum] at hparse
        cases hparse
      | ok value =>
        rw [hnum] at hparse
        cases hparse
        have hsmall := hlt p rfl hdigit
        obtain ⟨hwhole, rfl⟩ := parseUlong_ok hnum
        rw [if_pos hwhole, if_pos hwhole, UInt64.toNat_ofNat', Nat.mod_eq_of_lt (strtoul_lt p),
          Int32.toInt_ofNat_of_lt hsmall]
        exact iff_of_true ⟨rfl, rfl⟩ (Or.inl hdigit)
    · rw [if_neg hdigit] at hparse
      cases hparse
      have hz : ((0 : Int32).toInt) = 0 := rfl
      rw [Option.getD_some, hz]
      constructor
      · rintro ⟨-, hname⟩
        right
        by_cases hwhole : IsNumber p
        · rw [if_pos hwhole] at hname
          exact absurd hname.symm hne
        · rw [if_neg hwhole] at hname
          refine ⟨hwhole, ?_⟩
          have hlen := congrArg List.length hname
          rw [List.length_take] at hlen
          have hmax : opMaxUmNameLen = 64 := rfl
          omega
      · rintro (hdec | ⟨hwhole, hshort⟩)
        · exact absurd hdec hdigit
        · rw [if_neg hwhole, if_neg hwhole]
          exact ⟨rfl, List.take_of_length_le (Nat.le_sub_one_of_lt hshort)⟩

/-- A ring. -/
theorem ring_alike (token : Option Text) (hparse : parseOptional field 1 = .ok n) :
    ((∃ t, token = some t ∧ atoi t = 0) ↔ n = 0) ↔ RingAlike field token := by
  have hzero : n = 0 ↔ ∃ p, field = some p ∧ Int32.ofNat (strtoul p).1 = 0 := by
    cases field with
    | none =>
      cases hparse
      refine iff_of_false (by decide) ?_
      rintro ⟨p, hp, -⟩
      cases hp
    | some p =>
      obtain ⟨-, rfl⟩ := parseUlong_ok hparse
      simp
  rw [hzero, RingAlike]
  exact iff_comm

/-- The first optional word is the first optional field, if that is not empty. -/
theorem optionWords_first {p : Text} (h : present (optionFields profiling spec)[0]? = some p) :
    p ≠ [] ∧ (optionWords profiling spec)[0]? = some p := by
  obtain ⟨hfield, hne⟩ := present_eq_some.mp h
  refine ⟨hne, ?_⟩
  rw [optionWords]
  cases hopts : optionFields profiling spec with
  | nil =>
    rw [hopts] at hfield
    cases hfield
  | cons first rest =>
    rw [hopts] at hfield
    obtain rfl : first = p := Option.some.inj hfield
    have hwords : (first :: rest).filter (· ≠ []) = first :: rest.filter (· ≠ []) :=
      List.filter_cons_of_pos (decide_eq_true hne)
    rw [hwords]
    rfl

theorem mem_numericFields_count (h : present (specFields spec)[1]? = some part) : part ∈ numericFields true spec := by
  simp [numericFields, h]

theorem mem_numericFields_mask (h : present (optionFields profiling spec)[0]? = some part)
    (hdigit : part.head?.any isDecimal = true) : part ∈ numericFields profiling spec := by
  simp [numericFields, h, hdigit]

/-- A specification that is accepted is used with the values that were checked if and only if the name leaves room
for its end, the count is plain or the same in both bases, and the optional fields, with their defaults where they are
empty, read like the non-empty ones in their order. -/
theorem opProcessEvent_agrees_iff (maxEvents : Nat) (haccept : parseEvents maxEvents [spec] profiling = .ok [parsed])
    (hname : parsed.name.length < opMaxEvtNameLen)
    (hsmall : ∀ f ∈ numericFields profiling spec, f.head?.any isDecimal = true → (strtoul f).1 < 2 ^ 31) :
    (∃ event, opProcessEvent profiling junk spec = some event ∧ Agrees parsed event) ↔
      ReadAlike profiling junk spec := by
  have h := parseEvent_accepted (parseEvents_one haccept)
  have hfield : (specFields spec)[0]? = some parsed.name := (present_eq_some.mp h.name).1
  have hmask := mask_alike (copyName parsed.name junk) (usedCount profiling spec) (optionWords profiling spec)[0]?
    h.unitMask (fun p hp hdigit => hsmall p (mem_numericFields_mask hp hdigit) hdigit)
    (fun p hp => optionWords_first hp)
  have hkernel := ring_alike (optionWords profiling spec)[1]? h.kernel
  have huser := ring_alike (optionWords profiling spec)[2]? h.user
  have hcount : usedCount profiling spec = parsed.count.toInt64.toUInt64 ↔
      (profiling = true → ∀ count, (specFields spec)[1]? = some count →
        Plain count ∨ atoi count = Int32.ofNat (strtoul count).1) := by
    have hc := h.count
    cases profiling with
    | false =>
      have hzero : parsed.count = 0 := hc
      rw [hzero]
      exact iff_of_true rfl (fun hf => by cases hf)
    | true =>
      obtain ⟨count, hpart, hparse⟩ := hc
      have hlt : Plain count → (strtoul count).1 < 2 ^ 31 := fun hplain =>
        hsmall count (mem_numericFields_count hpart) hplain.begins
      have hused : usedCount true spec = (atoi count).toInt64.toUInt64 := by
        rw [usedCount, (present_eq_some.mp hpart).1]
        rfl
      rw [hused, count_alike hparse hlt, (present_eq_some.mp hpart).1]
      simp
  obtain ⟨fname, fcount, fkernel, fuser⟩ :=
    partAt_fresh (copyName parsed.name junk) (usedCount profiling spec) (optionWords profiling spec)[0]?
  have hevent := opProcessEvent_accepted junk h
  rw [optionalParts_eq] at hevent
  generalize hfirst : partAt (freshEvent (copyName parsed.name junk) (usedCount profiling spec))
    (optionWords profiling spec)[0]? 1 = first at *
  obtain ⟨kname, kcount, kmask, kmaskName, kuser, kkernel, -⟩ := partAt_ring first (optionWords profiling spec)[1]?
  generalize partAt first (optionWords profiling spec)[1]? 2 = second at *
  obtain ⟨-, -, -, -, -, -, uname, ucount, umask, umaskName, ukernel, uuser⟩ :=
    partAt_ring second (optionWords profiling spec)[2]?
  generalize partAt second (optionWords profiling spec)[2]? 3 = event at *
  rw [fkernel] at kkernel
  rw [kuser, fuser] at uuser
  simp only [Bool.false_eq_true, false_or] at kkernel uuser
  rw [hevent]
  constructor
  · rintro ⟨used, hused, hagrees⟩
    obtain rfl := Option.some.inj hused
    refine ⟨?_, ?_, ?_, ?_, ?_⟩
    · intro name hn
      obtain rfl := Option.some.inj (hfield.symm.trans hn)
      apply (copyName_eq_iff hname).mp
      rw [← fname, ← kname, ← uname]
      exact hagrees.name
    · apply hcount.mp
      rw [← fcount, ← kcount, ← ucount]
      exact hagrees.count
    · apply hmask.mp
      rw [← kmask, ← umask, ← kmaskName, ← umaskName]
      exact ⟨hagrees.unitMask, hagrees.unitMaskName⟩
    · apply hkernel.mp
      rw [← kkernel, ← ukernel]
      exact hagrees.kernel
    · apply huser.mp
      rw [← uuser]
      exact hagrees.user
  · intro hread
    refine ⟨event, rfl, ?_⟩
    obtain ⟨hm, hmName⟩ := hmask.mpr hread.unitMask
    refine ⟨?_, ?_, ?_, ?_, ?_, ?_⟩
    · rw [uname, kname, fname]
      exact (copyName_eq_iff hname).mpr (hread.name _ hfield)
    · rw [ucount, kcount, fcount]
      exact hcount.mpr hread.count
    · rwa [umask, kmask]
    · rwa [umaskName, kmaskName]
    · rw [ukernel, kkernel]
      exact hkernel.mpr hread.kernel
    · rw [uuser]
      exact huser.mpr hread.user

/-! Specifications as they are usually written. -/

/-- No field that is not empty comes after an empty one. -/
def NoGap : List Text → Prop
  | [] => True
  | f :: fs => (f = [] → ∀ g ∈ fs, g = []) ∧ NoGap fs

theorem NoGap.aligned {fields : List Text} (h : NoGap fields) (i : Nat) :
    present fields[i]? = (fields.filter (· ≠ []))[i]? := by
  induction fields generalizing i with
  | nil => rfl
  | cons f fs ih =>
    by_cases hf : f = []
    · have hall : ∀ g ∈ f :: fs, ¬(decide (g ≠ [])) = true := by
        intro g hg
        rw [decide_eq_true_eq, not_not]
        rcases List.mem_cons.mp hg with rfl | hg
        · exact hf
        · exact h.1 hf g hg
      rw [List.filter_eq_nil_iff.mpr hall, List.getElem?_nil]
      cases hget : (f :: fs)[i]? with
      | none => rfl
      | some g =>
        have hg := hall g (List.mem_of_getElem? hget)
        rw [decide_eq_true_eq, not_not] at hg
        rw [hg]
        rfl
    · have hwords : (f :: fs).filter (· ≠ []) = f :: fs.filter (· ≠ []) := List.filter_cons_of_pos (decide_eq_true hf)
      rw [hwords]
      cases i with
      | zero => exact present_eq_some.mpr ⟨rfl, hf⟩
      | succ i =>
        rw [List.getElem?_cons_succ, List.getElem?_cons_succ]
        exact ih h.2 i

/-- What is asked of the fields of a specification without a gap: the digits of the count are the same number in base
ten, the unit mask is a number or a name that fits, and no ring that is on is written with a prefix. -/
structure FieldsAlike (profiling : Bool) (junk spec : Text) : Prop where
  name : ∀ name, (specFields spec)[0]? = some name → name.length < opMaxEvtNameLen - 1 ∨ junk = []
  count : profiling = true → ∀ count, (specFields spec)[1]? = some count → SameInTen count
  unitMask : ∀ p, present (optionFields profiling spec)[0]? = some p →
    p.head?.any isDecimal = true ∨ (¬IsNumber p ∧ p.length < opMaxUmNameLen)
  kernel : ∀ p, present (optionFields profiling spec)[1]? = some p → ¬HexNonzero p
  user : ∀ p, present (optionFields profiling spec)[2]? = some p → ¬HexNonzero p

theorem maskAlike_self : MaskAlike field field ↔
    ∀ p, field = some p → p.head?.any isDecimal = true ∨ (¬IsNumber p ∧ p.length < opMaxUmNameLen) := by
  cases field with
  | none => exact iff_of_true (fun t ht => by cases ht) (fun p hp => by cases hp)
  | some p => simp [MaskAlike]

theorem ringAlike_self (h : ∀ p, field = some p → IntNumber p) :
    RingAlike field field ↔ ∀ p, field = some p → ¬HexNonzero p := by
  cases field with
  | none => simp [RingAlike]
  | some p =>
    simp only [RingAlike, Option.some.injEq, exists_eq_left', forall_eq']
    exact (h p rfl).atoi_zero_iff

/-- With no empty field in between, a specification whose count and rings are numbers that fit is used as it is
checked if and only if its fields read alike one by one. -/
theorem readAlike_iff_of_noGap (hgap : NoGap (optionFields profiling spec))
    (hcount : profiling = true → ∀ count, (specFields spec)[1]? = some count → IntNumber count)
    (hkernel : ∀ p, present (optionFields profiling spec)[1]? = some p → IntNumber p)
    (huser : ∀ p, present (optionFields profiling spec)[2]? = some p → IntNumber p) :
    ReadAlike profiling junk spec ↔ FieldsAlike profiling junk spec := by
  have haligned : ∀ i, (optionWords profiling spec)[i]? = present (optionFields profiling spec)[i]? :=
    fun i => (hgap.aligned i).symm
  have hsame : ∀ hp : profiling = true, ∀ count, (specFields spec)[1]? = some count →
      (Plain count ∨ atoi count = Int32.ofNat (strtoul count).1 ↔ SameInTen count) := by
    intro hp count hc
    rw [(hcount hp count hc).atoi_eq_iff]
    exact or_iff_right_of_imp Or.inl
  constructor
  · intro h
    refine ⟨h.name, fun hp count hc => (hsame hp count hc).mp (h.count hp count hc), ?_, ?_, ?_⟩
    · exact maskAlike_self.mp (haligned 0 ▸ h.unitMask)
    · exact (ringAlike_self hkernel).mp (haligned 1 ▸ h.kernel)
    · exact (ringAlike_self huser).mp (haligned 2 ▸ h.user)
  · intro h
    refine ⟨h.name, fun hp count hc => (hsame hp count hc).mpr (h.count hp count hc), ?_, ?_, ?_⟩
    · rw [haligned]
      exact maskAlike_self.mpr h.unitMask
    · rw [haligned]
      exact (ringAlike_self hkernel).mpr h.kernel
    · rw [haligned]
      exact (ringAlike_self huser).mpr h.user

/-- `CYC:6000:0x0f:0:1` -/
def ordinarySpec : Text :=
  ['C', 'Y', 'C', ':', '6', '0', '0', '0', ':', '0', 'x', '0', 'f', ':', '0', ':', '1']

theorem opProcessEvent_agrees_iff_ordinary :
    ∃ event, opProcessEvent true ['?'] ordinarySpec = some event ∧
      Agrees ⟨['C', 'Y', 'C'], 6000, 15, none, 0, 1, true⟩ event := by
  have hfields : specFields ordinarySpec =
      [['C', 'Y', 'C'], ['6', '0', '0', '0'], ['0', 'x', '0', 'f'], ['0'], ['1']] := by decide
  have hoptions : optionFields true ordinarySpec = [['0', 'x', '0', 'f'], ['0'], ['1']] := by
    rw [optionFields, hfields]
    rfl
  have hname : (specFields ordinarySpec)[0]? = some ['C', 'Y', 'C'] := by rw [hfields]; rfl
  have hcount : (specFields ordinarySpec)[1]? = some ['6', '0', '0', '0'] := by rw [hfields]; rfl
  have hmask : present (optionFields true ordinarySpec)[0]? = some ['0', 'x', '0', 'f'] := by rw [hoptions]; rfl
  have hkernel : present (optionFields true ordinarySpec)[1]? = some ['0'] := by rw [hoptions]; rfl
  have huser : present (optionFields true ordinarySpec)[2]? = some ['1'] := by rw [hoptions]; rfl
  refine (opProcessEvent_agrees_iff 1 (by decide) (by decide) (by decide)).mpr ?_
  refine (readAlike_iff_of_noGap ?_ ?_ ?_ ?_).mpr ⟨?_, ?_, ?_, ?_, ?_⟩
  · rw [hoptions]
    simp [NoGap]
  · intro _ count hc
    obtain rfl := Option.some.inj (hcount.symm.trans hc)
    exact ⟨by decide, by decide, by decide, by decide⟩
  · intro p hp
    obtain rfl := Option.some.inj (hkernel.symm.trans hp)
    exact ⟨by decide, by decide, by decide, by decide⟩
  · intro p hp
    obtain rfl := Option.some.inj (huser.symm.trans hp)
    exact ⟨by decide, by decide, by decide, by decide⟩
  · intro name hn
    obtain rfl := Option.some.inj (hname.symm.trans hn)
    exact Or.inl (by decide)
  · intro _ count hc
    obtain rfl := Option.some.inj (hcount.symm.trans hc)
    exact Or.inl ⟨'6', _, rfl, by decide, by decide⟩
  · intro p hp
    obtain rfl := Option.some.inj (hmask.symm.trans hp)
    exact Or.inl (by decide)
  · intro p hp
    obtain rfl := Option.some.inj (hkernel.symm.trans hp)
    rintro ⟨x, ds, hs, -⟩
    cases hs
  · intro p hp
    obtain rfl := Option.some.inj (huser.symm.trans hp)
    rintro ⟨x, ds, hs, -⟩
    cases hs

/-- `CYC:0x1770` -/
def hexCountSpec : Text := ['C', 'Y', 'C', ':', '0', 'x', '1', '7', '7', '0']

/-- `CYC:6000::0:1` -/
def gapSpec : Text := ['C', 'Y', 'C', ':', '6', '0', '0', '0', ':', ':', '0', ':', '1']

/-- A count in base 16 is used as 0. With the unit mask left out, the ring that is switched off becomes the unit mask
and the other ring is what is looked at. -/
theorem unchecked_event_used :
    (∃ parsed, parseEvents 1 [hexCountSpec] true = .ok [parsed] ∧ parsed.count = 6000 ∧
      ¬∃ event, opProcessEvent true [] hexCountSpec = some event ∧ Agrees parsed event) ∧
    ∃ parsed, parseEvents 1 [gapSpec] true = .ok [parsed] ∧ parsed.kernel = 0 ∧
      ¬∃ event, opProcessEvent true [] gapSpec = some event ∧ Agrees parsed event := by
  have hhex : parseEvents 1 [hexCountSpec] true = .ok [⟨['C', 'Y', 'C'], 6000, 0, none, 1, 1, false⟩] ∧
      (opProcessEvent true [] hexCountSpec).map (·.count) = some 0 := by decide
  have hgap : parseEvents 1 [gapSpec] true = .ok [⟨['C', 'Y', 'C'], 6000, 0, none, 0, 1, false⟩] ∧
      (opProcessEvent true [] gapSpec).map (·.noKernel) = some false := by decide
  refine ⟨⟨_, hhex.1, rfl, ?_⟩, _, hgap.1, rfl, ?_⟩
  · rintro ⟨event, hevent, hagrees⟩
    have hcount := hhex.2
    rw [hevent] at hcount
    have hzero : event.count = 0 := Option.some.inj hcount
    rw [hagrees.count] at hzero
    exact absurd hzero (by decide)
  · rintro ⟨event, hevent, hagrees⟩
    have hring := hgap.2
    rw [hevent] at hring
    have hoff := hagrees.kernel.mpr rfl
    rw [show event.noKernel = false from Option.some.inj hring] at hoff
    cases hoff

end Oprofile.PeUtils
