import Oprofile.Library.Loops
import Oprofile.Opjitconv.CreateBfd
import Oprofile.Opjitconv.Rescans

/-! The passes over the entries agree on the sections. -/
namespace Oprofile.Opjitconv

/-- Entries in ascending order that do not overlap. -/
structure Laid (entries : List JitEntry) : Prop where
  size : ∀ e ∈ entries, 0 ≤ e.codeSize.toInt
  apart : entries.Pairwise fun a b => a.hi ≤ b.lo

/-- `partition_sections` starts a section at this entry, if it is not the first. -/
def gapBefore (entries : List JitEntry) (j : Nat) : Bool :=
  match entries[j]?, entries[j - 1]? with
  | some entry, some pred => decide (4096 ≤ entry.vma - pred.endAddr)
  | _, _ => false

/-- Entries without a gap between them take less than 2^31 bytes. -/
def ShortSections (entries : List JitEntry) : Prop :=
  ∀ i j e ee, i ≤ j → entries[i]? = some e → entries[j]? = some ee →
    (∀ k, i < k → k ≤ j → gapBefore entries k = false) → ee.hi < e.lo + 2 ^ 31

def Asection.lo (sec : Asection) : Nat := sec.vma.toNat

def Asection.hi (sec : Asection) : Nat := sec.vma.toNat + sec.size.toNat

/-- The section contains the entry. -/
def Asection.Holds (sec : Asection) (e : JitEntry) : Prop := sec.lo ≤ e.lo ∧ e.hi ≤ sec.hi

/-- A section starts at this entry. -/
def SectionStarts (entries : List JitEntry) (k : Nat) : Prop := k = 0 ∨ gapBefore entries k = true

instance (entries : List JitEntry) (k : Nat) : Decidable (SectionStarts entries k) :=
  inferInstanceAs (Decidable (_ ∨ _))

/-- The number of the section of an entry. -/
def sectionOf (entries : List JitEntry) : Nat → Nat
  | 0 => 0
  | k + 1 => if gapBefore entries (k + 1) then sectionOf entries k + 1 else sectionOf entries k

/-- How many sections the entries before this one have. -/
def sectionsBefore (entries : List JitEntry) : Nat → Nat
  | 0 => 0
  | k + 1 => sectionOf entries k + 1

section

variable {entries : List JitEntry} {e ee pred : JitEntry} {i j k last : Nat} {p p' : Partition} {env : BfdEnv}

/-! Machine arithmetic. -/

theorem hi_cast (hsize : 0 ≤ e.codeSize.toInt) : (e.hi : Int) = e.vma.toNat + e.codeSize.toInt := by
  unfold JitEntry.hi
  omega

theorem gap_toNat (hpred : 0 ≤ pred.codeSize.toInt) (hle : pred.hi ≤ e.lo) :
    (e.vma - pred.endAddr).toNat = e.lo - pred.hi := by
  have hend := endAddr_toNat pred
  have hhi := hi_cast hpred
  have hvma := e.vma.toNat_lt
  unfold JitEntry.lo at hle ⊢
  have hend' : pred.endAddr.toNat = pred.hi := by omega
  rw [UInt64.toNat_sub_of_le _ _ (UInt64.le_iff_toNat_le.mpr (by omega)), hend']

theorem toInt32_of_lt {x : UInt64} (h : x.toNat < 2 ^ 31) : x.toUInt32.toInt32.toInt = x.toNat := by
  have h32 : x.toUInt32.toNat = x.toNat := by
    rw [UInt64.toNat_toUInt32]
    omega
  change x.toUInt32.toBitVec.toInt = _
  rw [BitVec.toInt_eq_toNat_of_lt]
  · exact congrArg Int.ofNat h32
  · change 2 * x.toUInt32.toNat < _
    omega

/-- The size of a section as an `int`, and again as a `size_t`. -/
theorem size_toNat (hsize : 0 ≤ ee.codeSize.toInt) (hle : e.lo ≤ ee.hi)
    (hshort : ee.hi < e.lo + 2 ^ 31) :
    (ee.endAddr - e.vma).toUInt32.toInt32.toInt64.toUInt64.toNat = ee.hi - e.lo := by
  have hend := endAddr_toNat ee
  have hhi := hi_cast hsize
  have hsub := UInt64.toNat_sub ee.endAddr e.vma
  have hlt := ee.endAddr.toNat_lt
  have hvma := e.vma.toNat_lt
  unfold JitEntry.lo at hle hshort ⊢
  have hdist : (ee.endAddr - e.vma).toNat = ee.hi - e.vma.toNat := by omega
  have hint := @toInt32_of_lt (ee.endAddr - e.vma) (by omega)
  have hcast := codeSize_toNat (ee.endAddr - e.vma).toUInt32.toInt32
  rw [hint, hdist] at hcast
  omega

/-! The order of the entries. -/

theorem Laid.lt (h : Laid entries) (hi : entries[i]? = some e) (hj : entries[j]? = some ee) (hlt : i < j) :
    e.hi ≤ ee.lo := by
  obtain ⟨hi', rfl⟩ := List.getElem?_eq_some_iff.mp hi
  obtain ⟨hj', rfl⟩ := List.getElem?_eq_some_iff.mp hj
  exact List.pairwise_iff_getElem.mp h.apart i j hi' hj' hlt

theorem lo_le_hi (e : JitEntry) : e.lo ≤ e.hi := Nat.le_add_right _ _

theorem Laid.lo_le (h : Laid entries) (hi : entries[i]? = some e) (hj : entries[j]? = some ee) (hle : i ≤ j) :
    e.lo ≤ ee.lo := by
  rcases Nat.eq_or_lt_of_le hle with rfl | hlt
  · obtain rfl := Option.some.inj (hi.symm.trans hj)
    exact Nat.le_refl _
  · exact Nat.le_trans (lo_le_hi e) (h.lt hi hj hlt)

theorem Laid.hi_le (h : Laid entries) (hi : entries[i]? = some e) (hj : entries[j]? = some ee) (hle : i ≤ j) :
    e.hi ≤ ee.hi := by
  rcases Nat.eq_or_lt_of_le hle with rfl | hlt
  · obtain rfl := Option.some.inj (hi.symm.trans hj)
    exact Nat.le_refl _
  · exact Nat.le_trans (h.lt hi hj hlt) (lo_le_hi ee)

/-- A gap is 4096 bytes at least. -/
theorem Laid.gap (h : Laid entries) (hpos : 0 < j) (hgap : gapBefore entries j = true) (hj : entries[j]? = some e)
    (hpred : entries[j - 1]? = some pred) : pred.hi + 4096 ≤ e.lo := by
  have hle := h.lt hpred hj (by omega)
  rw [gapBefore, hj, hpred] at hgap
  have hge := UInt64.le_iff_toNat_le.mp (of_decide_eq_true hgap)
  rw [gap_toNat (h.size pred (List.mem_of_getElem? hpred)) hle] at hge
  have hnum : (4096 : UInt64).toNat = 4096 := rfl
  omega

theorem sectionOf_eq (hle : i ≤ j) (hopen : ∀ k, i < k → k ≤ j → gapBefore entries k = false) :
    sectionOf entries j = sectionOf entries i := by
  induction j, hle using Nat.le_induction with
  | base => rfl
  | succ j hle ih =>
    rw [sectionOf, hopen (j + 1) (by omega) (Nat.le_refl _)]
    exact ih fun k hlt hk => hopen k hlt (by omega)

theorem sectionOf_of_starts (h : SectionStarts entries i) : sectionOf entries i = sectionsBefore entries i := by
  cases i with
  | zero => rfl
  | succ i =>
    have hgap := h.resolve_left (Nat.succ_ne_zero i)
    rw [sectionOf, if_pos hgap, sectionsBefore]

/-- Sections before others are at least 4096 bytes apart. -/
def FarApart (sections : List Asection) : Prop := sections.Pairwise fun a b => a.hi + 4096 ≤ b.lo

/-- The entries before `n` have their sections, and their first ones point to them. -/
structure Placed (entries : List JitEntry) (n : Nat) (p : Partition) : Prop where
  count : p.sections.length = sectionsBefore entries n
  length : p.marks.length = entries.length
  mark : ∀ k < entries.length,
    p.marks[k]? = some (if k < n ∧ SectionStarts entries k then some (sectionOf entries k) else none)
  holds : ∀ k e, k < n → entries[k]? = some e → ∃ sec, p.sections[sectionOf entries k]? = some sec ∧
    sec.Holds e ∧ (SectionStarts entries k → sec.vma = e.vma)
  apart : FarApart p.sections
  short : ∀ sec ∈ p.sections, sec.size.toNat < 2 ^ 31
  ends : ∀ sec ∈ p.sections, ∀ e, entries[n - 1]? = some e → sec.hi ≤ e.hi

theorem placed_zero (entries : List JitEntry) : Placed entries 0 ⟨[], List.replicate entries.length none⟩ where
  count := rfl
  length := List.length_replicate
  mark k hk := by
    rw [List.getElem?_replicate, if_pos hk, if_neg (fun h => absurd h.1 (Nat.not_lt_zero k))]
  holds k e hk := absurd hk (Nat.not_lt_zero k)
  apart := List.Pairwise.nil
  short sec hsec := absurd hsec List.not_mem_nil
  ends sec hsec := absurd hsec List.not_mem_nil

/-- `create_text_section` makes the section of the entries from one that starts a section to before a gap. -/
theorem createTextSection_placed (env : BfdEnv) (hlaid : Laid entries) (hshort : ShortSections entries)
    (hle : i ≤ last) (hlast : last < entries.length) (hstarts : SectionStarts entries i)
    (hopen : ∀ k, i < k → k ≤ last → gapBefore entries k = false) (hp : Placed entries i p) :
    ∃ p', createTextSection env entries i last p =
        (if env.sectionFails p.sections.length then none else some p') ∧ Placed entries (last + 1) p' := by
  have hilt : i < entries.length := by omega
  obtain ⟨e, he⟩ : ∃ e, entries[i]? = some e := ⟨_, List.getElem?_eq_getElem hilt⟩
  obtain ⟨ee, hee⟩ : ∃ ee, entries[last]? = some ee := ⟨_, List.getElem?_eq_getElem hlast⟩
  have hhi := hlaid.hi_le he hee hle
  have hlo := Nat.le_trans (lo_le_hi e) hhi
  have hsize := size_toNat (hlaid.size ee (List.mem_of_getElem? hee)) hlo (hshort i last e ee hle he hee hopen)
  have hcount : p.sections.length = sectionOf entries i := hp.count.trans (sectionOf_of_starts hstarts).symm
  generalize hnew : (⟨e.vma, (ee.endAddr - e.vma).toUInt32.toInt32.toInt64.toUInt64⟩ : Asection) = sec
  have hseclo : sec.lo = e.lo := by rw [← hnew]; rfl
  have hsechi : sec.hi = ee.hi := by
    rw [← hnew, Asection.hi, hsize]
    change e.lo + (ee.hi - e.lo) = ee.hi
    omega
  refine ⟨⟨p.sections ++ [sec], p.marks.set i (some p.sections.length)⟩, ?_, ?_⟩
  · rw [createTextSection, he, Option.bind_eq_bind, Option.bind_some, hee, Option.bind_some]
    dsimp only
    rw [hnew]
  have hold : ∀ sec' ∈ p.sections, sec'.hi + 4096 ≤ e.lo := by
    intro sec' hsec'
    have hpos : 0 < i := by
      rcases Nat.eq_zero_or_pos i with rfl | hpos
      · rw [List.length_eq_zero_iff.mp hp.count] at hsec'
        cases hsec'
      · exact hpos
    obtain ⟨pred, hpred⟩ : ∃ pred, entries[i - 1]? = some pred :=
      ⟨_, List.getElem?_eq_getElem (show i - 1 < entries.length by omega)⟩
    have hgap := hlaid.gap hpos (hstarts.resolve_left (Nat.ne_of_gt hpos)) he hpred
    have hend := hp.ends sec' hsec' pred hpred
    omega
  have hnumber : ∀ k, i ≤ k → k ≤ last → sectionOf entries k = p.sections.length := by
    intro k hik hk
    rw [hcount]
    exact sectionOf_eq hik fun k' hlt hk' => hopen k' hlt (by omega)
  refine ⟨?_, ?_, ?_, ?_, ?_, ?_, ?_⟩
  · rw [List.length_append, List.length_singleton, sectionsBefore, hnumber last hle (Nat.le_refl last)]
  · rw [List.length_set]
    exact hp.length
  · intro k hk
    by_cases hik : i = k
    · subst hik
      rw [List.getElem?_set_self (by rwa [hp.length]), if_pos ⟨by omega, hstarts⟩, hnumber i (Nat.le_refl i) hle]
    · rw [List.getElem?_set_ne hik, hp.mark k hk]
      have hsame : (k < i ∧ SectionStarts entries k) ↔ (k < last + 1 ∧ SectionStarts entries k) := by
        refine ⟨fun h => ⟨by omega, h.2⟩, fun h => ⟨?_, h.2⟩⟩
        by_contra hge
        rcases h.2 with rfl | hgap
        · omega
        · rw [hopen k (by omega) (by omega)] at hgap
          cases hgap
      simp only [hsame]
  · intro k ek hk hek
    rcases Nat.lt_or_ge k i with hki | hki
    · obtain ⟨sec', hsec', hholds, hfirst⟩ := hp.holds k ek hki hek
      refine ⟨sec', ?_, hholds, hfirst⟩
      rw [List.getElem?_append_left (List.getElem?_eq_some_iff.mp hsec').1]
      exact hsec'
    · refine ⟨sec, ?_, ⟨?_, ?_⟩, ?_⟩
      · rw [hnumber k hki (by omega), List.getElem?_concat_length]
      · rw [hseclo]
        exact hlaid.lo_le he hek hki
      · rw [hsechi]
        exact hlaid.hi_le hek hee (by omega)
      · intro hstart
        obtain rfl : k = i := by
          by_contra hne
          rcases hstart with rfl | hgap
          · omega
          · rw [hopen k (by omega) (by omega)] at hgap
            cases hgap
        obtain rfl := Option.some.inj (he.symm.trans hek)
        rw [← hnew]
  · refine List.pairwise_append.mpr ⟨hp.apart, List.pairwise_singleton _ _, ?_⟩
    intro a ha b hb
    obtain rfl := List.mem_singleton.mp hb
    rw [hseclo]
    exact hold a ha
  · intro sec' hsec'
    rcases List.mem_append.mp hsec' with hsec' | hsec'
    · exact hp.short sec' hsec'
    · obtain rfl := List.mem_singleton.mp hsec'
      have hless := hshort i last e ee hle he hee hopen
      rw [← hnew, hsize]
      omega
  · intro sec' hsec' e' he'
    rw [Nat.add_sub_cancel] at he'
    obtain rfl := Option.some.inj (hee.symm.trans he')
    rcases List.mem_append.mp hsec' with hsec' | hsec'
    · have hfar := hold sec' hsec'
      omega
    · obtain rfl := List.mem_singleton.mp hsec'
      exact Nat.le_of_eq hsechi

/-! `partition_sections`. -/

/-- Where the loop stands: the entries from the start of the section to here have no gap. -/
structure Partitioning (entries : List JitEntry) (j : Nat) (st : Nat × Partition) : Prop where
  lt : st.1 < j
  starts : SectionStarts entries st.1
  joined : ∀ k, st.1 < k → k < j → gapBefore entries k = false
  placed : Placed entries st.1 st.2

theorem partitionStep_eq {st : Nat × Partition} (hj : j < entries.length) :
    partitionStep env entries st j =
      if gapBefore entries j then (createTextSection env entries st.1 (j - 1) st.2).map fun p => (j, p)
      else some st := by
  obtain ⟨e, he⟩ : ∃ e, entries[j]? = some e := ⟨_, List.getElem?_eq_getElem hj⟩
  obtain ⟨pred, hpred⟩ : ∃ pred, entries[j - 1]? = some pred :=
    ⟨_, List.getElem?_eq_getElem (show j - 1 < entries.length by omega)⟩
  rw [partitionStep, gapBefore, he, hpred, Option.bind_eq_bind, Option.bind_some, Option.bind_some]
  simp only [decide_eq_true_eq]

theorem partitionStep_spec (hlaid : Laid entries) (hshort : ShortSections entries) (hpos : 0 < j)
    (hj : j < entries.length) {st : Nat × Partition} (h : Partitioning entries j st) :
    (∀ st', partitionStep env entries st j = some st' → Partitioning entries (j + 1) st') ∧
      ((∀ i, env.sectionFails i = false) → ∃ st', partitionStep env entries st j = some st') := by
  have hlt := h.lt
  rw [partitionStep_eq hj]
  by_cases hgap : gapBefore entries j = true
  · rw [if_pos hgap]
    obtain ⟨p', hcreate, hplaced⟩ := createTextSection_placed env hlaid hshort
      (show st.1 ≤ j - 1 by omega) (show j - 1 < entries.length by omega) h.starts
      (fun k hk hk' => h.joined k hk (by omega)) h.placed
    rw [hcreate]
    rw [show j - 1 + 1 = j by omega] at hplaced
    constructor
    · intro st' hst'
      obtain ⟨p, hp, rfl⟩ := Option.map_eq_some_iff.mp hst'
      split_ifs at hp with hfails
      obtain rfl := Option.some.inj hp
      exact ⟨Nat.lt_succ_self j, Or.inr hgap, fun k hk hk' => absurd hk' (by omega), hplaced⟩
    · intro hworks
      rw [hworks]
      exact ⟨_, rfl⟩
  · rw [if_neg hgap]
    constructor
    · intro st' hst'
      obtain rfl := Option.some.inj hst'
      refine ⟨by omega, h.starts, fun k hk hk' => ?_, h.placed⟩
      rcases Nat.lt_succ_iff_lt_or_eq.mp hk' with hk' | rfl
      · exact h.joined k hk hk'
      · exact Bool.eq_false_iff.mpr hgap
    · exact fun _ => ⟨st, rfl⟩

theorem partitionSections_spec (env : BfdEnv) (hne : 0 < entries.length) (hcount : entries.length ≤ intMax) (hlaid : Laid entries)
    (hshort : ShortSections entries) :
    (∀ p, partitionSections env entries = some p → Placed entries entries.length p) ∧
      ((∀ i, env.sectionFails i = false) → ∃ p, partitionSections env entries = some p) := by
  have hstart : Partitioning entries 1 (0, ⟨[], List.replicate entries.length none⟩) :=
    ⟨Nat.one_pos, Or.inl rfl, fun k hk hk' => absurd hk' (by omega), placed_zero entries⟩
  have hstep : ∀ j st st', 1 ≤ j → j < 1 + (entries.length - 1) → Partitioning entries j st →
      partitionStep env entries st j = some st' → Partitioning entries (j + 1) st' := by
    intro j st st' hpos hj h
    exact (partitionStep_spec hlaid hshort hpos (by omega) h).1 st'
  have hlast : ∀ st, Partitioning entries (1 + (entries.length - 1)) st →
      ∃ p', createTextSection env entries st.1 (entries.length - 1) st.2 =
          (if env.sectionFails st.2.sections.length then none else some p') ∧ Placed entries entries.length p' := by
    intro st h
    have hlt := h.lt
    have hplaced := createTextSection_placed env hlaid hshort (show st.1 ≤ entries.length - 1 by omega)
      (by omega) h.starts (fun k hk hk' => h.joined k hk (by omega)) h.placed
    rwa [Nat.sub_add_cancel hne] at hplaced
  rw [partitionSections, if_neg (Nat.not_lt.mpr hcount)]
  constructor
  · intro p hp
    obtain ⟨st, hrun, hp⟩ := Option.bind_eq_some_iff.mp hp
    have hinv := Loops.invariant _ hstart hstep hrun
    have hlt := hinv.lt
    obtain ⟨p', hcreate, hplaced⟩ := hlast st hinv
    dsimp only at hp
    rw [if_pos (by omega), hcreate] at hp
    split_ifs at hp
    obtain rfl := Option.some.inj hp
    exact hplaced
  · intro hworks
    obtain ⟨st, hrun⟩ := Loops.total _ hstart hstep fun j st hpos hj h =>
      (partitionStep_spec hlaid hshort hpos (by omega) h).2 hworks
    have hinv := Loops.invariant _ hstart hstep hrun
    have hlt := hinv.lt
    obtain ⟨p', hcreate, -⟩ := hlast st hinv
    refine ⟨p', ?_⟩
    rw [Option.bind_eq_bind, hrun, Option.bind_some]
    dsimp only
    rw [if_pos (by omega), hcreate, hworks]
    rfl

end

end Oprofile.Opjitconv
