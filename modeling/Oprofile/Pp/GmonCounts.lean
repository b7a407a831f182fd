import Oprofile.Pp.Opgprof

/-! The counts in a `gmon.out` file (`opgprof.cpp`). -/
namespace Oprofile.Pp.Opgprof

open Libpp Histogram

/-- A sample of bin `i`. -/
def InBin (samples : ProfileContainer) (i : Nat) (s : SampleEntry) : Prop :=
  (lowPcOf samples).toNat + i * (multiplierOf samples).toNat ≤ s.vma.toNat ∧
    s.vma.toNat < (lowPcOf samples).toNat + (i + 1) * (multiplierOf samples).toNat

instance (samples : ProfileContainer) (i : Nat) (s : SampleEntry) : Decidable (InBin samples i s) :=
  inferInstanceAs (Decidable (_ ∧ _))

def countOf (s : SampleEntry) : Nat := (s.counts.get 0).toNat

/-- The sum of the counts of a bin. -/
def binSum (samples : ProfileContainer) (i : Nat) : Nat :=
  (((samples.samples.map Prod.snd).filter fun s => InBin samples i s).map countOf).sum

/-- The counts of a bin in the order of their symbols and addresses. -/
def binCounts (samples : ProfileContainer) (i : Nat) : List Nat :=
  ((visited samples (nodeOrder.sort samples.symbols.zipIdx)).filter fun s => InBin samples i s).map countOf

/-- An address as the binary has it. -/
def vmaField (abfd : Bfd) (vma : UInt64) : Write :=
  if abfd.bitsPerAddress = 32 then .u32 vma.toUInt32 else .u64 vma

/-- One record for each key. -/
def arcRecords (abfd : Bfd) (cgDb : Profile) (arcCount : UInt64 → UInt32) : List Write :=
  let header := cgDb.fileHeader
  let offset := if header.isKernel ≠ 0 then abfd.startOffset else header.anonStart
  cgDb.orderedSamples.flatMap fun it =>
    [.u8 1, vmaField abfd (offsetToPc abfd.sections (((it.1 + cgDb.startOffset) >>> 32) + offset)),
      vmaField abfd (offsetToPc abfd.sections (((it.1 + cgDb.startOffset) &&& 0xffffffff) + offset)),
      .u32 (arcCount it.2)]

/-- A file with given bins, and given counts in its records. -/
def gmonFile (abfd : Bfd) (samples : ProfileContainer) (cgDb : Profile) (bins : List UInt16)
    (arcCount : UInt64 → UInt32) : List Write :=
  gmonHdr ++ [.u8 0, vmaField abfd (lowPcOf samples), vmaField abfd (highPcOf samples),
    .u32 (histsizeOf samples).toUInt32, .u32 1, .file dimension, .u8 49, .u16s bins] ++
  arcRecords abfd cgDb arcCount

/-- The file that saturates. -/
def saturatedFile (abfd : Bfd) (samples : ProfileContainer) (cgDb : Profile) : List Write :=
  gmonFile abfd samples cgDb
    ((List.range (histsizeOf samples).toNat).map fun i => UInt16.ofNat (min 65535 (binSum samples i)))
    fun count => UInt32.ofNat (min 0xffffffff count.toNat)

section

variable {abfd : Bfd} {samples : ProfileContainer} {cgDb : Profile} {storage : SamplesStorage} {s : SampleEntry}
  {vma : UInt64} {i : Nat}

/-! Which samples are visited. -/

theorem opRatio_nonneg {count total : ℚ} (hcount : 0 ≤ count) (htotal : 0 ≤ total) : 0 ≤ opRatio count total := by
  rw [opRatio]
  split_ifs
  · exact le_refl 0
  · exact div_nonneg hcount htotal

/-- At threshold 0 every symbol is selected. -/
theorem selectSymbols_zero (hints : ColumnFlags) :
    selectSymbols samples ⟨hints, 0, false, []⟩ = nodeOrder.sort samples.symbols.zipIdx := by
  rw [selectSymbols, List.filter_eq_self]
  intro it _
  rw [decide_eq_true_eq, zero_div]
  exact ⟨Or.inl Bool.false_ne_true, opRatio_nonneg (countValue_nonneg _) (countValue_nonneg _)⟩

/-- The loops go over every sample of the container once. -/
theorem visited_perm (howned : ∀ e ∈ samples.samples, e.1.1 < samples.symbols.length) :
    (visited samples (nodeOrder.sort samples.symbols.zipIdx)).Perm (samples.samples.map Prod.snd) := by
  have hsorted : (visited samples (nodeOrder.sort samples.symbols.zipIdx)).Perm
      (samples.symbols.zipIdx.flatMap fun sit => (samplesOf sit.2 samples.samples).map Prod.snd) :=
    List.Perm.flatMap (nodeOrder.perm _) fun sit _ => (vmaOrder.perm _).map Prod.snd
  have hkeys : (samples.symbols.zipIdx.flatMap fun sit => (samplesOf sit.2 samples.samples).map Prod.snd) =
      ((List.range samples.symbols.length).flatMap fun k =>
        samples.samples.filter fun e => e.1.1 = k).map Prod.snd := by
    rw [List.map_flatMap]
    have hrange : List.range samples.symbols.length = samples.symbols.zipIdx.map Prod.snd := by
      rw [List.zipIdx_map_snd, List.range_eq_range']
    rw [hrange, List.flatMap_map]
    exact List.flatMap_congr fun sit _ => by rw [samplesOf_eq]
  rw [hkeys] at hsorted
  refine hsorted.trans ((flatMap_filter_perm (fun e : (Nat × UInt64) × SampleEntry => e.1.1) List.nodup_range
    samples.samples fun e he => ?_).map Prod.snd)
  exact List.mem_range.mpr (howned e he)

theorem binCounts_sum (howned : ∀ e ∈ samples.samples, e.1.1 < samples.symbols.length) (i : Nat) :
    (binCounts samples i).sum = binSum samples i :=
  (((visited_perm howned).filter _).map countOf).sum_eq

/-! The range of the addresses. -/

/-- The fold of `get_vma_range` bounds every address, by addresses if there is one. -/
theorem foldl_range (storage : SamplesStorage) (range : UInt64 × UInt64) :
    let r := storage.foldl
      (fun (range : UInt64 × UInt64) it =>
        (if it.2.vma < range.1 then it.2.vma else range.1, if it.2.vma > range.2 then it.2.vma else range.2)) range
    r.1 ≤ range.1 ∧ range.2 ≤ r.2 ∧ (∀ e ∈ storage, r.1 ≤ e.2.vma ∧ e.2.vma ≤ r.2) ∧
    (r.1 = range.1 ∨ ∃ e ∈ storage, r.1 = e.2.vma) ∧ (r.2 = range.2 ∨ ∃ e ∈ storage, r.2 = e.2.vma) := by
  induction storage generalizing range with
  | nil => exact ⟨UInt64.le_refl _, UInt64.le_refl _, (fun e he => absurd he List.not_mem_nil), Or.inl rfl, Or.inl rfl⟩
  | cons e storage ih =>
    obtain ⟨hmin, hmax, hall, hlow, hhigh⟩ := ih
      (if e.2.vma < range.1 then e.2.vma else range.1, if e.2.vma > range.2 then e.2.vma else range.2)
    have hfirst : (if e.2.vma < range.1 then e.2.vma else range.1) ≤ range.1 ∧
        (if e.2.vma < range.1 then e.2.vma else range.1) ≤ e.2.vma := by
      split_ifs with h
      · exact ⟨UInt64.le_of_lt h, UInt64.le_refl _⟩
      · exact ⟨UInt64.le_refl _, UInt64.not_lt.mp h⟩
    have hsecond : range.2 ≤ (if e.2.vma > range.2 then e.2.vma else range.2) ∧
        e.2.vma ≤ (if e.2.vma > range.2 then e.2.vma else range.2) := by
      split_ifs with h
      · exact ⟨UInt64.le_of_lt h, UInt64.le_refl _⟩
      · exact ⟨UInt64.le_refl _, UInt64.not_lt.mp h⟩
    have hpick : (if e.2.vma < range.1 then e.2.vma else range.1) = range.1 ∨
        (if e.2.vma < range.1 then e.2.vma else range.1) = e.2.vma := by
      split_ifs
      · exact Or.inr rfl
      · exact Or.inl rfl
    have hpick' : (if e.2.vma > range.2 then e.2.vma else range.2) = range.2 ∨
        (if e.2.vma > range.2 then e.2.vma else range.2) = e.2.vma := by
      split_ifs
      · exact Or.inr rfl
      · exact Or.inl rfl
    simp only [List.foldl_cons]
    refine ⟨UInt64.le_trans hmin hfirst.1, UInt64.le_trans hsecond.1 hmax, fun x hx => ?_, ?_, ?_⟩
    · rcases List.mem_cons.mp hx with rfl | hx
      · exact ⟨UInt64.le_trans hmin hfirst.2, UInt64.le_trans hsecond.2 hmax⟩
      · exact hall x hx
    · rcases hlow with hlow | ⟨x, hx, hlow⟩
      · exact hpick.imp hlow.trans fun h => ⟨e, List.mem_cons_self, hlow.trans h⟩
      · exact Or.inr ⟨x, List.mem_cons_of_mem _ hx, hlow⟩
    · rcases hhigh with hhigh | ⟨x, hx, hhigh⟩
      · exact hpick'.imp hhigh.trans fun h => ⟨e, List.mem_cons_self, hhigh.trans h⟩
      · exact Or.inr ⟨x, List.mem_cons_of_mem _ hx, hhigh⟩

/-- The range of a container with samples. -/
theorem getVmaRange_spec (hvma : ∀ e ∈ storage, e.2.vma ≠ 0 ∧ e.2.vma.toNat < 2 ^ 64 - 8) (hne : storage ≠ []) :
    ∃ low high : Nat, (getVmaRange storage).1.toNat = low ∧ (getVmaRange storage).2.toNat = high + 1 ∧
      high < 2 ^ 64 - 8 ∧ ∀ e ∈ storage, low ≤ e.2.vma.toNat ∧ e.2.vma.toNat ≤ high := by
  obtain ⟨e, he⟩ := List.exists_mem_of_ne_nil storage hne
  obtain ⟨-, -, hall, -, hhigh⟩ := foldl_range storage (-1, 0)
  rw [getVmaRange]
  generalize storage.foldl (fun (range : UInt64 × UInt64) (it : (Nat × UInt64) × SampleEntry) =>
    (if it.2.vma < range.1 then it.2.vma else range.1, if it.2.vma > range.2 then it.2.vma else range.2))
    (-1, 0) = r at hall hhigh ⊢
  obtain ⟨min, max⟩ := r
  have hlarge : (-1 : UInt64).toNat = 2 ^ 64 - 1 := by decide
  have hbounds := hall e he
  have hbelow := (hvma e he).2
  have hmin : min ≠ -1 := by
    rintro rfl
    have hle : (-1 : UInt64).toNat ≤ e.2.vma.toNat := UInt64.le_iff_toNat_le.mp hbounds.1
    omega
  have hmax : max ≠ 0 ∧ max.toNat < 2 ^ 64 - 8 := by
    rcases hhigh with hhigh | ⟨x, hx, hhigh⟩
    · have hzero : max = 0 := hhigh
      rw [hzero] at hbounds
      exact absurd (UInt64.le_antisymm hbounds.2 (UInt64.zero_le)) (hvma e he).1
    · have heq : max = x.2.vma := hhigh
      rw [heq]
      exact hvma x hx
  have hnext : (max + 1).toNat = max.toNat + 1 := by
    rw [UInt64.toNat_add, UInt64.toNat_one]
    exact Nat.mod_eq_of_lt (by omega)
  refine ⟨min.toNat, max.toNat, ?_, ?_, hmax.2, fun x hx => ?_⟩
  · exact congrArg UInt64.toNat (if_neg hmin)
  · exact (congrArg UInt64.toNat (if_pos hmax.1)).trans hnext
  · exact ⟨UInt64.le_iff_toNat_le.mp (hall x hx).1, UInt64.le_iff_toNat_le.mp (hall x hx).2⟩

theorem multiplierOf_cases (samples : ProfileContainer) : (multiplierOf samples).toNat = 2 ∨ (multiplierOf samples).toNat = 8 := by
  rw [multiplierOf]
  split_ifs
  · exact Or.inr rfl
  · exact Or.inl rfl

/-- Quotients of rounded ends. -/
theorem rounded_bins {low high v m : Nat} (hm : 0 < m) (hlow : low ≤ v) (hhigh : v ≤ high) :
    low / m * m ≤ v ∧ ((high + m) / m * m - low / m * m) / m = high / m + 1 - low / m ∧
    (v - low / m * m) / m = v / m - low / m ∧ v / m - low / m < high / m + 1 - low / m := by
  have hdown := Nat.div_mul_le_self low m
  have hlowv : low / m ≤ v / m := Nat.div_le_div_right hlow
  have hvhigh : v / m ≤ high / m := Nat.div_le_div_right hhigh
  refine ⟨Nat.le_trans hdown hlow, ?_, ?_, by omega⟩
  · rw [Nat.add_div_right high hm, ← Nat.sub_mul, Nat.mul_div_cancel _ hm]
  · rw [Nat.mul_comm, Nat.sub_mul_div]

/-- Every sample has its bin. -/
theorem sample_bin (hvma : ∀ e ∈ samples.samples, e.2.vma ≠ 0 ∧ e.2.vma.toNat < 2 ^ 64 - 8)
    (hmem : s ∈ samples.samples.map Prod.snd) :
    ((s.vma - lowPcOf samples) / multiplierOf samples).toNat < (histsizeOf samples).toNat ∧
    ∀ i, ((s.vma - lowPcOf samples) / multiplierOf samples).toNat = i ↔ InBin samples i s := by
  obtain ⟨e, he, rfl⟩ := List.mem_map.mp hmem
  obtain ⟨low, high, hlow, hhigh, hlt, hall⟩ := getVmaRange_spec hvma (List.ne_nil_of_mem he)
  obtain ⟨hle, hge⟩ := hall e he
  have hm : 0 < (multiplierOf samples).toNat ∧ (multiplierOf samples).toNat ≤ 8 := by
    rcases multiplierOf_cases samples with h | h <;> omega
  obtain ⟨hdown, hsize, hpos, hin⟩ := rounded_bins hm.1 hle hge
  have hlow64 : (lowPcOf samples).toNat = low / (multiplierOf samples).toNat * (multiplierOf samples).toNat := by
    rw [lowPcOf, UInt64.toNat_mul, UInt64.toNat_div, hlow]
    exact Nat.mod_eq_of_lt (Nat.lt_of_le_of_lt hdown e.2.vma.toNat_lt)
  have hup : (high + (multiplierOf samples).toNat) / (multiplierOf samples).toNat * (multiplierOf samples).toNat ≤
      high + (multiplierOf samples).toNat := Nat.div_mul_le_self _ _
  have hlast : ((getVmaRange samples.samples).2 + multiplierOf samples - 1).toNat =
      high + (multiplierOf samples).toNat := by
    rw [UInt64.toNat_sub, UInt64.toNat_add, hhigh, UInt64.toNat_one]
    omega
  have hhigh64 : (highPcOf samples).toNat =
      (high + (multiplierOf samples).toNat) / (multiplierOf samples).toNat * (multiplierOf samples).toNat := by
    rw [highPcOf, UInt64.toNat_mul, UInt64.toNat_div, hlast]
    exact Nat.mod_eq_of_lt (by omega)
  have hspan : low / (multiplierOf samples).toNat * (multiplierOf samples).toNat ≤
      (high + (multiplierOf samples).toNat) / (multiplierOf samples).toNat * (multiplierOf samples).toNat :=
    Nat.mul_le_mul_right _ (Nat.div_le_div_right (by omega))
  have hsize64 : (histsizeOf samples).toNat =
      high / (multiplierOf samples).toNat + 1 - low / (multiplierOf samples).toNat := by
    rw [histsizeOf, UInt64.toNat_div, UInt64.toNat_sub_of_le _ _ (UInt64.le_iff_toNat_le.mpr (by omega)), hhigh64,
      hlow64, hsize]
  have hpos64 : ((e.2.vma - lowPcOf samples) / multiplierOf samples).toNat =
      e.2.vma.toNat / (multiplierOf samples).toNat - low / (multiplierOf samples).toNat := by
    rw [UInt64.toNat_div, UInt64.toNat_sub_of_le _ _ (UInt64.le_iff_toNat_le.mpr (by omega)), hlow64, hpos]
  refine ⟨by omega, fun i => ?_⟩
  have hlowv : low / (multiplierOf samples).toNat ≤ e.2.vma.toNat / (multiplierOf samples).toNat :=
    Nat.div_le_div_right hle
  rw [hpos64, InBin, hlow64, ← Nat.add_mul, ← Nat.add_mul, ← Nat.le_div_iff_mul_le hm.1, ← Nat.div_lt_iff_lt_mul hm.1]
  omega

/-! The bins. -/

/-- No sample is bogus, and each bin takes the counts of its own. -/
theorem foldl_addSample (hvma : ∀ e ∈ samples.samples, e.2.vma ≠ 0 ∧ e.2.vma.toNat < 2 ^ 64 - 8)
    (hsize : (histsizeOf samples).toNat < 2 ^ 32) (l : List SampleEntry)
    (hl : ∀ s ∈ l, s ∈ samples.samples.map Prod.snd) (bins : List UInt16) :
    l.foldl (addSample (lowPcOf samples) (multiplierOf samples) (histsizeOf samples)) ⟨bins, []⟩ =
      ⟨l.foldl (fun bins s => bins.modify ((s.vma - lowPcOf samples) / multiplierOf samples).toNat
        (addCount (s.counts.get 0))) bins, []⟩ := by
  induction l generalizing bins with
  | nil => rfl
  | cons s l ih =>
    obtain ⟨hbin, -⟩ := sample_bin hvma (hl s List.mem_cons_self)
    have hnarrow : ((s.vma - lowPcOf samples) / multiplierOf samples).toUInt32.toNat =
        ((s.vma - lowPcOf samples) / multiplierOf samples).toNat := by
      rw [UInt64.toNat_toUInt32]
      exact Nat.mod_eq_of_lt (by omega)
    have hin : ¬((s.vma - lowPcOf samples) / multiplierOf samples).toUInt32.toUInt64 ≥ histsizeOf samples := by
      rw [ge_iff_le, UInt64.le_iff_toNat_le, UInt32.toNat_toUInt64, hnarrow]
      omega
    rw [List.foldl_cons, List.foldl_cons, addSample]
    dsimp only
    rw [if_neg hin, hnarrow]
    exact ih (fun s hs => hl s (List.mem_cons_of_mem _ hs)) _

/-- An addition in a number of 16 bits. -/
theorem toNat_addCount (count : UInt64) (bin : UInt16) :
    (addCount count bin).toNat = capAdd 65535 (2 ^ 64) bin.toNat count.toNat := by
  have hbin := bin.toNat_lt
  have hsum : (bin.toUInt64 + count).toNat = (bin.toNat + count.toNat) % 2 ^ 64 := by
    rw [UInt64.toNat_add, UInt16.toNat_toUInt64]
  have hover : bin.toUInt64 + count > 0xffff ↔ 65535 < (bin.toNat + count.toNat) % 2 ^ 64 := by
    rw [gt_iff_lt, UInt64.lt_iff_toNat_lt, hsum]
    rfl
  rw [addCount, capAdd]
  by_cases h : 65535 < (bin.toNat + count.toNat) % 2 ^ 64
  · rw [if_pos (hover.mpr h), if_pos h]
    rfl
  · rw [if_neg fun h' => h (hover.mp h'), if_neg h, UInt16.toNat_add, UInt64.toNat_toUInt16]
    omega

theorem toNat_foldl_addCount (l : List SampleEntry) (bin : UInt16) :
    (l.foldl (fun bin s => addCount (s.counts.get 0) bin) bin).toNat =
      (l.map countOf).foldl (capAdd 65535 (2 ^ 64)) bin.toNat := by
  induction l generalizing bin with
  | nil => rfl
  | cons s l ih => rw [List.foldl_cons, ih, toNat_addCount, List.map_cons, List.foldl_cons, countOf]

/-- The histogram that is written. -/
def writtenBins (samples : ProfileContainer) : List UInt16 :=
  (visited samples (nodeOrder.sort samples.symbols.zipIdx)).foldl
    (fun bins s => bins.modify ((s.vma - lowPcOf samples) / multiplierOf samples).toNat (addCount (s.counts.get 0)))
    (List.replicate (histsizeOf samples).toNat 0)

theorem length_writtenBins : (writtenBins samples).length = (histsizeOf samples).toNat := by
  rw [writtenBins, length_foldl_modify, List.length_replicate]

/-- A bin of it shows what its counts come to. -/
theorem getElem?_writtenBins (howned : ∀ e ∈ samples.samples, e.1.1 < samples.symbols.length)
    (hvma : ∀ e ∈ samples.samples, e.2.vma ≠ 0 ∧ e.2.vma.toNat < 2 ^ 64 - 8) (hi : i < (histsizeOf samples).toNat) :
    ∃ bin, (writtenBins samples)[i]? = some bin ∧ bin.toNat = shown 65535 (2 ^ 64) (binCounts samples i) := by
  have hfilter : ((visited samples (nodeOrder.sort samples.symbols.zipIdx)).filter fun s =>
      ((s.vma - lowPcOf samples) / multiplierOf samples).toNat = i) =
      (visited samples (nodeOrder.sort samples.symbols.zipIdx)).filter fun s => InBin samples i s := by
    refine List.filter_congr fun s hs => decide_eq_decide.mpr ?_
    exact (sample_bin hvma ((visited_perm howned).mem_iff.mp hs)).2 i
  refine ⟨_, ?_, toNat_foldl_addCount _ 0⟩
  rw [writtenBins, getElem?_foldl_modify, List.getElem?_replicate, if_pos hi, hfilter]
  rfl

theorem writtenBins_iff (howned : ∀ e ∈ samples.samples, e.1.1 < samples.symbols.length)
    (hvma : ∀ e ∈ samples.samples, e.2.vma ≠ 0 ∧ e.2.vma.toNat < 2 ^ 64 - 8) :
    (writtenBins samples =
      (List.range (histsizeOf samples).toNat).map fun i => UInt16.ofNat (min 65535 (binSum samples i))) ↔
    ∀ i, i < (histsizeOf samples).toNat → Recovers 65535 (2 ^ 64) (binCounts samples i) := by
  have hcounts : ∀ i, ∀ c ∈ binCounts samples i, c < 2 ^ 64 := by
    intro i c hc
    obtain ⟨s, -, rfl⟩ := List.mem_map.mp hc
    exact (s.counts.get 0).toNat_lt
  have hvalue : ∀ i, (UInt16.ofNat (min 65535 (binSum samples i))).toNat = min 65535 (binSum samples i) := by
    intro i
    rw [UInt16.toNat_ofNat']
    exact Nat.mod_eq_of_lt (by omega)
  constructor
  · intro h i hi
    obtain ⟨bin, hbin, hshown⟩ := getElem?_writtenBins howned hvma hi
    rw [h, List.getElem?_map, List.getElem?_range hi] at hbin
    have heq := congrArg UInt16.toNat (Option.some.inj hbin)
    refine (shown_eq_iff (by decide) (hcounts i)).mp ?_
    rw [← hshown, ← heq, binCounts_sum howned]
    exact hvalue i
  · intro h
    refine List.ext_getElem? fun i => ?_
    by_cases hi : i < (histsizeOf samples).toNat
    · obtain ⟨bin, hbin, hshown⟩ := getElem?_writtenBins howned hvma hi
      rw [hbin, List.getElem?_map, List.getElem?_range hi]
      refine congrArg some (UInt16.toNat_inj.mp ?_)
      rw [hshown, (shown_eq_iff (by decide) (hcounts i)).mpr (h i hi), binCounts_sum howned]
      exact (hvalue i).symm
    · rw [List.getElem?_eq_none (by rw [length_writtenBins]; omega),
        List.getElem?_eq_none (by rw [List.length_map, List.length_range]; omega)]

/-! The file. -/

theorem opWriteVma_eq (hbits : abfd.bitsPerAddress = 32 ∨ abfd.bitsPerAddress = 64) (vma : UInt64) :
    opWriteVma abfd vma = some (vmaField abfd vma) := by
  rw [opWriteVma, vmaField]
  split_ifs with h32 h64
  · rfl
  · rfl
  · rcases hbits with h | h
    · exact absurd h h32
    · exact absurd h h64

theorem mapM_some {A B : Type} {f : A → Option B} {g : A → B} (h : ∀ a, f a = some (g a)) (l : List A) :
    l.mapM f = some (l.map g) := by
  induction l with
  | nil => rfl
  | cons a l ih =>
    rw [List.mapM_cons, h a, ih]
    rfl

/-- The records hold the low 32 bits of the counts. -/
theorem outputCg_eq (hbits : abfd.bitsPerAddress = 32 ∨ abfd.bitsPerAddress = 64) :
    outputCg abfd cgDb = some (arcRecords abfd cgDb UInt64.toUInt32) := by
  have hvma := opWriteVma_eq hbits
  simp only [outputCg, hvma, Option.bind_eq_bind, Option.bind_some]
  rw [mapM_some (fun _ => rfl)]
  exact congrArg some List.flatMap_def.symm

theorem outputGprof_eq (howned : ∀ e ∈ samples.samples, e.1.1 < samples.symbols.length)
    (hvma : ∀ e ∈ samples.samples, e.2.vma ≠ 0 ∧ e.2.vma.toNat < 2 ^ 64 - 8)
    (hsize : (histsizeOf samples).toNat < 2 ^ 32)
    (hbits : abfd.bitsPerAddress = 32 ∨ abfd.bitsPerAddress = 64) :
    outputGprof abfd samples cgDb 0 =
      some (gmonFile abfd samples cgDb (writtenBins samples) UInt64.toUInt32, []) := by
  have hfold := foldl_addSample hvma hsize _ (fun s hs => (visited_perm howned).mem_iff.mp hs)
    (List.replicate (histsizeOf samples).toNat 0)
  rw [outputGprof]
  simp only [opWriteVma_eq hbits, Option.bind_eq_bind, Option.bind_some, selectSymbols_zero, hfold,
    outputCg_eq hbits]
  split_ifs with h
  · rfl
  · rw [gmonFile, arcRecords, not_not.mp h]
    rfl

theorem arcRecords_eq_iff (arcCount arcCount' : UInt64 → UInt32) :
    arcRecords abfd cgDb arcCount = arcRecords abfd cgDb arcCount' ↔
      ∀ it ∈ cgDb.orderedSamples, arcCount it.2 = arcCount' it.2 := by
  rw [arcRecords, arcRecords]
  induction cgDb.orderedSamples with
  | nil => exact iff_of_true rfl fun it hit => absurd hit List.not_mem_nil
  | cons it l ih => simp only [List.flatMap_cons, List.cons_append, List.nil_append, List.cons.injEq, Write.u32.injEq,
      true_and, List.forall_mem_cons, ih]

theorem gmonFile_eq_iff (bins bins' : List UInt16) (arcCount arcCount' : UInt64 → UInt32) :
    gmonFile abfd samples cgDb bins arcCount = gmonFile abfd samples cgDb bins' arcCount' ↔
      bins = bins' ∧ ∀ it ∈ cgDb.orderedSamples, arcCount it.2 = arcCount' it.2 := by
  rw [gmonFile, gmonFile]
  simp only [List.append_assoc, List.append_cancel_left_eq, List.cons_append, List.nil_append, List.cons.injEq,
    Write.u16s.injEq, true_and, arcRecords_eq_iff]

theorem capped_iff (count : UInt64) : count.toUInt32 = UInt32.ofNat (min 0xffffffff count.toNat) ↔
    count.toNat < 2 ^ 32 ∨ count.toNat % 2 ^ 32 = 2 ^ 32 - 1 := by
  rw [← UInt32.toNat_inj, UInt64.toNat_toUInt32, UInt32.toNat_ofNat']
  omega

end

/-- The file saturates exactly when no count of an arc has more than 32 bits, unless the low ones are all set, and
the counts of every bin recover. -/
theorem gmon_saturates_iff (abfd : Bfd) (samples : ProfileContainer) (cgDb : Profile)
    (hbits : abfd.bitsPerAddress = 32 ∨ abfd.bitsPerAddress = 64)
    (howned : ∀ e ∈ samples.samples, e.1.1 < samples.symbols.length)
    (hvma : ∀ e ∈ samples.samples, e.2.vma ≠ 0 ∧ e.2.vma.toNat < 2 ^ 64 - 8)
    (hsize : (histsizeOf samples).toNat < 2 ^ 32) :
    ∃ file, outputGprof abfd samples cgDb 0 = some (file, []) ∧
      (file = saturatedFile abfd samples cgDb ↔
        (∀ i, i < (histsizeOf samples).toNat → Recovers 65535 (2 ^ 64) (binCounts samples i)) ∧
        ∀ arc ∈ cgDb.orderedSamples, arc.2.toNat < 2 ^ 32 ∨ arc.2.toNat % 2 ^ 32 = 2 ^ 32 - 1) := by
  refine ⟨_, outputGprof_eq howned hvma hsize hbits, ?_⟩
  rw [saturatedFile, gmonFile_eq_iff, writtenBins_iff howned hvma]
  exact and_congr_right fun _ => forall₂_congr fun arc _ => capped_iff arc.2

/-- One sample, and one arc. -/
def oneSample : ProfileContainer where
  symbols := [⟨1, 1, 0, ⟨⟨0, 0⟩, 0x400, CountArray.empty.set 0 3⟩, 1, 16, 0, 0, 0⟩]
  samples := [((0, 0x404), ⟨⟨0, 0⟩, 0x404, CountArray.empty.set 0 3⟩)]
  totalCount := CountArray.empty.set 0 3
  names := ⟨[['b']], [['f']], []⟩
  debugInfo := false
  needDetails := true

def oneArc (count : UInt64) : Profile where
  fileHeader := ⟨0, 0, false, 0, 0, 0⟩
  orderedSamples := [(0x1000000020, count)]
  startOffset := 0
  ordered := List.pairwise_singleton _ _

def bfd64 : Bfd := ⟨64, [⟨0, 0x400⟩], 0⟩

/-- Two samples of one bin, more than 16 bits together. -/
def fullBin : ProfileContainer where
  symbols := [⟨1, 1, 0, ⟨⟨0, 0⟩, 0x400, CountArray.empty.set 0 130000⟩, 1, 16, 0, 0, 0⟩]
  samples := [((0, 0x400), ⟨⟨0, 0⟩, 0x400, CountArray.empty.set 0 60000⟩),
    ((0, 0x404), ⟨⟨0, 0⟩, 0x404, CountArray.empty.set 0 70000⟩)]
  totalCount := CountArray.empty.set 0 130000
  names := ⟨[['b']], [['f']], []⟩
  debugInfo := false
  needDetails := true

/-- A bin and an arc that are full. -/
theorem gmon_saturates_iff_one_arc :
    outputGprof bfd64 fullBin (oneArc 0x1ffffffff) 0 = some (saturatedFile bfd64 fullBin (oneArc 0x1ffffffff), []) ∧
      Write.u16s [65535] ∈ saturatedFile bfd64 fullBin (oneArc 0x1ffffffff) := by
  have hcounts : binCounts fullBin 0 = [60000, 70000] := by decide
  have hbins : (histsizeOf fullBin).toNat = 1 := by decide
  obtain ⟨file, hfile, hsaturates⟩ :=
    gmon_saturates_iff bfd64 fullBin (oneArc 0x1ffffffff) (Or.inr rfl) (by decide) (by decide) (by decide)
  rw [hsaturates.mpr ⟨?_, ?_⟩] at hfile
  · refine ⟨hfile, ?_⟩
    decide
  · intro i hi
    rw [hbins] at hi
    obtain rfl := Nat.lt_one_iff.mp hi
    rw [hcounts]
    refine .unwrapped fun before c after heq => ?_
    have hc : c ∈ [60000, 70000] := heq ▸ List.mem_append_right _ List.mem_cons_self
    have hsmall : ∀ c ∈ [60000, 70000], c ≤ 70000 := by decide
    have hle := hsmall c hc
    omega
  · intro arc harc
    rw [List.mem_singleton.mp harc]
    exact Or.inr rfl

/-- An arc that was taken once more than 32 bits can count is written with no count at all. -/
theorem arc_count_wraps :
    (outputGprof bfd64 oneSample (oneArc 0x100000000) 0).map (fun out => out.1.getLast?) = some (some (.u32 0)) ∧
    (saturatedFile bfd64 oneSample (oneArc 0x100000000)).getLast? = some (.u32 0xffffffff) ∧
    outputGprof bfd64 oneSample (oneArc 0x100000000) 0 ≠
      some (saturatedFile bfd64 oneSample (oneArc 0x100000000), []) := by
  have hwritten : (outputGprof bfd64 oneSample (oneArc 0x100000000) 0).map (fun out => out.1.getLast?) =
      some (some (.u32 0)) := by
    rw [outputGprof_eq (by decide) (by decide) (by decide) (Or.inr rfl)]
    decide
  have hsaturated : (saturatedFile bfd64 oneSample (oneArc 0x100000000)).getLast? = some (.u32 0xffffffff) := by
    decide
  refine ⟨hwritten, hsaturated, fun h => ?_⟩
  rw [h, Option.map_some, hsaturated] at hwritten
  exact absurd hwritten (by decide)

end Oprofile.Pp.Opgprof
