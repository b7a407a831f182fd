import Oprofile.Libop.Netburst

/-! What the encoding of a Pentium 4 event decodes to. -/
namespace Oprofile.Libop

open BitFields
open SampleNames (Text)

variable {e : NetburstEntry} {bit : Nat} {doKernel doUser : Bool} {escr cccr : BitVec 64}

/-- The tag of a unit mask, and its bit of the event mask. -/
def tagOf (bit : Nat) : Nat := if bit ≥ eventMaskBits then 2 ^ (bit - eventMaskBits) else 0

def maskOf (bit : Nat) : Nat := if bit < eventMaskBits then 2 ^ bit else 0

def tagEnableOf (bit : Nat) : Nat := if bit ≥ eventMaskBits then 1 else 0

/-- A config that says what was asked for, by the layout of the ESCR in its upper half and of the CCCR in its lower
one. -/
structure Decodes (e : NetburstEntry) (bit : Nat) (doKernel doUser : Bool) (config : BitVec 64) : Prop where
  t1Usr : field config (32 + 0) 1 = doUser.toNat
  t1Os : field config (32 + 1) 1 = doKernel.toNat
  t0Usr : field config (32 + 2) 1 = doUser.toNat
  t0Os : field config (32 + 3) 1 = doKernel.toNat
  tagEnable : field config (32 + 4) 1 = tagEnableOf bit
  tagValue : field config (32 + 5) 4 = tagOf bit
  eventMask : field config (32 + 9) eventMaskBits = maskOf bit
  eventSelect : field config (32 + 25) 6 = e.perfCode
  reserved : field config (32 + 31) 1 = 0
  reserved1 : field config 0 12 = 0
  enable : field config 12 1 = 1
  escrSelect : field config 13 3 = e.escrSelect
  activeThread : field config 16 2 = 3
  /-- `compare` to `overflow` -/
  others : field config 18 14 = 0

/-- Two numbers or-ed together give the first. -/
abbrev Within (y x : Nat) : Prop := x ||| y = x

/-- What the two unions may hold before they are assigned: nothing where nothing is assigned, and in the upper half of
the CCCR nothing that the ESCR half does not have. -/
structure StackAllows (e : NetburstEntry) (bit : Nat) (doKernel doUser : Bool) (escr cccr : BitVec 64) : Prop where
  usr : doUser = false → field escr 0 1 = 0 ∧ field escr 2 1 = 0 ∧ field cccr (32 + 0) 1 = 0 ∧
    field cccr (32 + 2) 1 = 0
  os : doKernel = false → field escr 1 1 = 0 ∧ field escr 3 1 = 0 ∧ field cccr (32 + 1) 1 = 0 ∧
    field cccr (32 + 3) 1 = 0
  escrReserved : field escr 31 1 = 0
  cccrReserved1 : field cccr 0 12 = 0
  cccrOthers : field cccr 18 14 = 0
  tagEnable : Within (field cccr (32 + 4) 1) (tagEnableOf bit)
  tagValue : Within (field cccr (32 + 5) 4) (tagOf bit)
  eventMask : Within (field cccr (32 + 9) eventMaskBits) (maskOf bit)
  eventSelect : Within (field cccr (32 + 25) 6) e.perfCode
  reserved : field cccr (32 + 31) 1 = 0

/-- What the entries of the table are. -/
structure Entry (e : NetburstEntry) (bit : Nat) : Prop where
  perfCode : e.perfCode < 2 ^ 6
  escrSelect : e.escrSelect < 2 ^ 3
  bit : bit < 20

theorem opNetburstEvents_entry (he : e ∈ opNetburstEvents) (hb : bit ∈ e.eventMasks) : Entry e bit := by
  have hall : ∀ e ∈ opNetburstEvents, e.perfCode < 2 ^ 6 ∧ e.escrSelect < 2 ^ 3 ∧ ∀ bit ∈ e.eventMasks, bit < 20 := by
    decide
  obtain ⟨hcode, hselect, hbits⟩ := hall e he
  exact ⟨hcode, hselect, hbits bit hb⟩

/-- Each event and unit mask of the table is found, the latter by its bit. -/
theorem opNetburst_found (he : e ∈ opNetburstEvents) (hb : bit ∈ e.eventMasks) :
    opNetburstGetPerfEncoding e.name ((1 : BitVec 64) <<< bit) doKernel doUser escr cccr =
      some (encodeEntry e bit doKernel doUser escr cccr) := by
  have hnames : ∀ e ∈ opNetburstEvents, opNetburstEvents.find? (·.name = e.name) = some e := by
    decide
  have hbits : ∀ e ∈ opNetburstEvents, ∀ bit ∈ e.eventMasks,
      (e.eventMasks.find? fun b => (1 : BitVec 64) <<< bit = (1 : BitVec 64) <<< b) = some bit := by
    decide
  rw [opNetburstGetPerfEncoding, hnames e he]
  dsimp only
  rw [hbits e he bit hb]

/-- The event select of the table is replaced by the code of perf_events. -/
theorem escrVal_eq (w : BitVec 64) {code : Nat} (hcode : code < 2 ^ 6) :
    (w &&& ~~~((0x3f : BitVec 64) <<< 25)) ||| BitVec.ofNat 64 (code <<< 25) = setField w 25 6 code := by
  have hshift : BitVec.ofNat 64 (code <<< 25) = BitVec.ofNat 64 (code % 2 ^ 6) <<< 25 := by
    rw [Nat.mod_eq_of_lt hcode]
    apply BitVec.eq_of_toNat_eq
    rw [BitVec.toNat_shiftLeft, BitVec.toNat_ofNat, BitVec.toNat_ofNat, Nat.mod_eq_of_lt (show code < 2 ^ 64 by omega)]
  rw [hshift]
  rfl

/-! ### The fields of the two words -/

section Words

variable (w : BitVec 64) (b : EscrBits) (code : Nat)

/-- The ESCR after all assignments. -/
abbrev assignedEscr : BitVec 64 := setField (assignEscr w b) 25 6 code

theorem escr_usr {off : Nat} (hoff : off = 0 ∨ off = 2) :
    field (assignedEscr w b code) off 1 = if b.usr then 1 else field w off 1 := by
  unfold assignedEscr assignEscr eventMaskBits
  rcases hoff with rfl | rfl <;> cases b.usr <;> cases b.os <;>
    simp (disch := decide) [field_setField_other, field_setField_self]

theorem escr_os {off : Nat} (hoff : off = 1 ∨ off = 3) :
    field (assignedEscr w b code) off 1 = if b.os then 1 else field w off 1 := by
  unfold assignedEscr assignEscr eventMaskBits
  rcases hoff with rfl | rfl <;> cases b.usr <;> cases b.os <;>
    simp (disch := decide) [field_setField_other, field_setField_self]

theorem escr_tagEnable (h : b.tagEnable < 2 ^ 1) : field (assignedEscr w b code) 4 1 = b.tagEnable := by
  unfold assignedEscr assignEscr eventMaskBits
  simp (disch := decide) only [field_setField_other]
  exact field_setField_self _ (by decide) h

theorem escr_tagValue (h : b.tagValue < 2 ^ 4) : field (assignedEscr w b code) 5 4 = b.tagValue := by
  unfold assignedEscr assignEscr eventMaskBits
  simp (disch := decide) only [field_setField_other]
  exact field_setField_self _ (by decide) h

theorem escr_eventMask (h : b.eventMask < 2 ^ eventMaskBits) :
    field (assignedEscr w b code) 9 eventMaskBits = b.eventMask := by
  unfold assignedEscr assignEscr
  unfold eventMaskBits at *
  simp (disch := decide) only [field_setField_other]
  exact field_setField_self _ (by decide) h

theorem escr_eventSelect (h : code < 2 ^ 6) : field (assignedEscr w b code) 25 6 = code :=
  field_setField_self _ (by decide) h

theorem escr_reserved : field (assignedEscr w b code) 31 1 = field w 31 1 := by
  unfold assignedEscr assignEscr eventMaskBits
  cases b.usr <;> cases b.os <;> simp (disch := decide) [field_setField_other]

theorem cccr_enable (escrSelect : Nat) : field (assignCccr w escrSelect) 12 1 = 1 := by
  unfold assignCccr
  simp (disch := decide) only [field_setField_other, field_setField_self]

theorem cccr_escrSelect {escrSelect : Nat} (h : escrSelect < 2 ^ 3) :
    field (assignCccr w escrSelect) 13 3 = escrSelect := by
  unfold assignCccr
  simp (disch := decide) only [field_setField_other]
  exact field_setField_self _ (by decide) h

theorem cccr_activeThread (escrSelect : Nat) : field (assignCccr w escrSelect) 16 2 = 3 :=
  field_setField_self _ (by decide) (by decide)

/-- The rest of the CCCR stays, its upper half included. -/
theorem cccr_other (escrSelect : Nat) {off width : Nat} (h : off + width ≤ 64)
    (hout : off + width ≤ 12 ∨ 18 ≤ off) : field (assignCccr w escrSelect) off width = field w off width := by
  unfold assignCccr
  rw [field_setField_other _ h (by omega), field_setField_other _ h (by omega), field_setField_other _ h (by omega)]

end Words

/-! ### The config -/

/-- What `encodeEntry` assigns to the ESCR. -/
def entryBits (e : NetburstEntry) (bit : Nat) (doKernel doUser : Bool) : EscrBits :=
  ⟨doUser, doKernel, tagEnableOf bit, tagOf bit, maskOf bit, e.eventSelect⟩

theorem encodeEntry_eq (h : Entry e bit) : encodeEntry e bit doKernel doUser escr cccr =
    (assignedEscr escr (entryBits e bit doKernel doUser) e.perfCode <<< 32) ||| assignCccr cccr e.escrSelect := by
  unfold encodeEntry
  dsimp only
  rw [escrVal_eq _ h.perfCode]
  simp only [Nat.one_shiftLeft]
  rfl

/-- A mode bit is as asked for when it is assigned, or when the stack holds nothing there. -/
theorem mode_iff {mode : Bool} {x y : Nat} (hy : y < 2 ^ 1) :
    (if mode then 1 else x) ||| y = mode.toNat ↔ (mode = false → x = 0 ∧ y = 0) := by
  cases mode with
  | false => simp
  | true =>
    have hcases : y = 0 ∨ y = 1 := by omega
    rcases hcases with rfl | rfl <;> simp

section Config

variable (h : Entry e bit)

include h

/-- A field of the upper half holds the ESCR's bits and those of the CCCR's upper half. -/
theorem config_upper {off width : Nat} (hin : off + width ≤ 32) :
    field (encodeEntry e bit doKernel doUser escr cccr) (32 + off) width =
      field (assignedEscr escr (entryBits e bit doKernel doUser) e.perfCode) off width |||
        field cccr (32 + off) width := by
  rw [encodeEntry_eq h, field_or, field_shiftLeft _ (by omega), cccr_other cccr _ (by omega) (by omega)]

/-- A field of the lower half is the CCCR's. -/
theorem config_lower {off width : Nat} (hin : off + width ≤ 32) :
    field (encodeEntry e bit doKernel doUser escr cccr) off width =
      field (assignCccr cccr e.escrSelect) off width := by
  rw [encodeEntry_eq h, field_or, field_shiftLeft_low _ hin, Nat.zero_or]

omit h in
theorem tagEnableOf_lt : tagEnableOf bit < 2 ^ 1 := by
  unfold tagEnableOf
  split <;> decide

theorem tagOf_lt : tagOf bit < 2 ^ 4 := by
  have hbit := h.bit
  unfold tagOf eventMaskBits
  split
  · exact Nat.pow_lt_pow_right (by decide) (by omega)
  · decide

omit h in
theorem maskOf_lt : maskOf bit < 2 ^ eventMaskBits := by
  unfold maskOf
  split
  · rename_i hlt
    exact Nat.pow_lt_pow_right (by decide) hlt
  · decide

/-- The encoding decodes to what was asked for exactly when the stack allows it. -/
theorem decodes_iff : Decodes e bit doKernel doUser (encodeEntry e bit doKernel doUser escr cccr) ↔
    StackAllows e bit doKernel doUser escr cccr := by
  have hbit (off : Nat) : field cccr off 1 < 2 ^ 1 := Nat.mod_lt _ (Nat.two_pow_pos 1)
  have hmode {off : Nat} (hoff : off = 0 ∨ off = 2) :
      field (encodeEntry e bit doKernel doUser escr cccr) (32 + off) 1 = doUser.toNat ↔
        (doUser = false → field escr off 1 = 0 ∧ field cccr (32 + off) 1 = 0) := by
    rw [config_upper h (by omega), escr_usr _ _ _ hoff]
    exact mode_iff (hbit _)
  have hkernel {off : Nat} (hoff : off = 1 ∨ off = 3) :
      field (encodeEntry e bit doKernel doUser escr cccr) (32 + off) 1 = doKernel.toNat ↔
        (doKernel = false → field escr off 1 = 0 ∧ field cccr (32 + off) 1 = 0) := by
    rw [config_upper h (by omega), escr_os _ _ _ hoff]
    exact mode_iff (hbit _)
  have hreserved : field (encodeEntry e bit doKernel doUser escr cccr) (32 + 31) 1 = 0 ↔
      field escr 31 1 = 0 ∧ field cccr (32 + 31) 1 = 0 := by
    rw [config_upper h (by decide), escr_reserved]
    exact Nat.or_eq_zero_iff
  have htagEnable : field (encodeEntry e bit doKernel doUser escr cccr) (32 + 4) 1 = tagEnableOf bit ↔
      Within (field cccr (32 + 4) 1) (tagEnableOf bit) := by
    rw [config_upper h (by decide), escr_tagEnable _ _ _ tagEnableOf_lt]
    rfl
  have htagValue : field (encodeEntry e bit doKernel doUser escr cccr) (32 + 5) 4 = tagOf bit ↔
      Within (field cccr (32 + 5) 4) (tagOf bit) := by
    rw [config_upper h (by decide), escr_tagValue _ _ _ (tagOf_lt h)]
    rfl
  have heventMask : field (encodeEntry e bit doKernel doUser escr cccr) (32 + 9) eventMaskBits = maskOf bit ↔
      Within (field cccr (32 + 9) eventMaskBits) (maskOf bit) := by
    rw [config_upper h (by decide), escr_eventMask _ _ _ maskOf_lt]
    rfl
  have heventSelect : field (encodeEntry e bit doKernel doUser escr cccr) (32 + 25) 6 = e.perfCode ↔
      Within (field cccr (32 + 25) 6) e.perfCode := by
    rw [config_upper h (by decide), escr_eventSelect _ _ _ h.perfCode]
  have hlow {off width : Nat} (hin : off + width ≤ 32) (hout : off + width ≤ 12 ∨ 18 ≤ off) :
      field (encodeEntry e bit doKernel doUser escr cccr) off width = field cccr off width :=
    (config_lower h hin).trans (cccr_other cccr _ (by omega) hout)
  constructor
  · intro hd
    have hreserved := hreserved.mp hd.reserved
    refine ⟨?_, ?_, hreserved.1, ?_, ?_, htagEnable.mp hd.tagEnable, htagValue.mp hd.tagValue,
      heventMask.mp hd.eventMask, heventSelect.mp hd.eventSelect, hreserved.2⟩
    · intro huser
      obtain ⟨h0, h0'⟩ := (hmode (Or.inl rfl)).mp hd.t1Usr huser
      obtain ⟨h2, h2'⟩ := (hmode (Or.inr rfl)).mp hd.t0Usr huser
      exact ⟨h0, h2, h0', h2'⟩
    · intro hos
      obtain ⟨h1, h1'⟩ := (hkernel (Or.inl rfl)).mp hd.t1Os hos
      obtain ⟨h3, h3'⟩ := (hkernel (Or.inr rfl)).mp hd.t0Os hos
      exact ⟨h1, h3, h1', h3'⟩
    · rw [← hlow (by decide) (Or.inl (by decide))]
      exact hd.reserved1
    · rw [← hlow (by decide) (Or.inr (by decide))]
      exact hd.others
  · intro hs
    refine ⟨?_, ?_, ?_, ?_, htagEnable.mpr hs.tagEnable, htagValue.mpr hs.tagValue, heventMask.mpr hs.eventMask,
      heventSelect.mpr hs.eventSelect, hreserved.mpr ⟨hs.escrReserved, hs.reserved⟩, ?_, ?_, ?_, ?_, ?_⟩
    · exact (hmode (Or.inl rfl)).mpr fun huser => ⟨(hs.usr huser).1, (hs.usr huser).2.2.1⟩
    · exact (hkernel (Or.inl rfl)).mpr fun hos => ⟨(hs.os hos).1, (hs.os hos).2.2.1⟩
    · exact (hmode (Or.inr rfl)).mpr fun huser => ⟨(hs.usr huser).2.1, (hs.usr huser).2.2.2⟩
    · exact (hkernel (Or.inr rfl)).mpr fun hos => ⟨(hs.os hos).2.1, (hs.os hos).2.2.2⟩
    · rw [hlow (by decide) (Or.inl (by decide))]
      exact hs.cccrReserved1
    · rw [config_lower h (by decide)]
      exact cccr_enable cccr _
    · rw [config_lower h (by decide)]
      exact cccr_escrSelect cccr h.escrSelect
    · rw [config_lower h (by decide)]
      exact cccr_activeThread cccr _
    · rw [hlow (by decide) (Or.inr (by decide))]
      exact hs.cccrOthers

end Config

/-- Every event and unit mask of the table is encoded, and exactly so when the stack allows it. -/
theorem netburst_encoding_iff (e : NetburstEntry) (bit : Nat) (doKernel doUser : Bool) (escr cccr : BitVec 64)
    (he : e ∈ opNetburstEvents) (hb : bit ∈ e.eventMasks) :
    ∃ config,
      opNetburstGetPerfEncoding e.name ((1 : BitVec 64) <<< bit) doKernel doUser escr cccr = some config ∧
      (Decodes e bit doKernel doUser config ↔ StackAllows e bit doKernel doUser escr cccr) :=
  ⟨_, opNetburst_found he hb, decodes_iff (opNetburstEvents_entry he hb)⟩

/-- The first event of the table. -/
def tcDeliverMode : NetburstEntry :=
  ⟨['T', 'C', '_', 'D', 'E', 'L', 'I', 'V', 'E', 'R', '_', 'M', 'O', 'D', 'E'],
    0x1, 0x1, 0, [0, 1, 2, 3, 4, 5, 6, 7]⟩

theorem netburst_encoding_iff_clean :
    tcDeliverMode ∈ opNetburstEvents ∧ 2 ∈ tcDeliverMode.eventMasks ∧ ∃ config,
      opNetburstGetPerfEncoding tcDeliverMode.name ((1 : BitVec 64) <<< 2) true false 0 0 = some config ∧
      Decodes tcDeliverMode 2 true false config := by
  have he : tcDeliverMode ∈ opNetburstEvents := by decide
  have hb : 2 ∈ tcDeliverMode.eventMasks := by decide
  obtain ⟨config, hconfig, hiff⟩ := netburst_encoding_iff tcDeliverMode 2 true false 0 0 he hb
  refine ⟨he, hb, config, hconfig, hiff.mpr ?_⟩
  constructor <;> decide

/-- A stack that holds one bit: the overflow bit of the CCCR is set in the config. -/
theorem dirty_stack_overflow : tcDeliverMode ∈ opNetburstEvents ∧ 2 ∈ tcDeliverMode.eventMasks ∧ ∃ config,
    opNetburstGetPerfEncoding tcDeliverMode.name ((1 : BitVec 64) <<< 2) true true 0 0x80000000 = some config ∧
      ¬Decodes tcDeliverMode 2 true true config := by
  have he : tcDeliverMode ∈ opNetburstEvents := by decide
  have hb : 2 ∈ tcDeliverMode.eventMasks := by decide
  refine ⟨he, hb, _, opNetburst_found he hb, fun hd => ?_⟩
  have hallows := (decodes_iff (opNetburstEvents_entry he hb)).mp hd
  exact absurd hallows.cccrOthers (by decide)

end Oprofile.Libop
