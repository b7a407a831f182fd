import Oprofile.Libpp.Agreement
import Oprofile.Libutilpp.SymbolRanges

/-! No sample is counted for two symbols of a binary, unless the symbols are kept with ranges that
overlap. -/
namespace Oprofile.Libpp

open SampleNames Libutilpp Ranges

/-- An offset in the range that `get_symbol_range` gives for a symbol. -/
def OffsetHas (abfd : OpBfd) (sym : OpBfdSymbol) (x : Nat) : Prop :=
  Has (abfd.getSymbolRange sym).1.toNat ((abfd.getSymbolRange sym).1.toNat + sym.symbSize.toNat) x

instance (abfd : OpBfd) (sym : OpBfdSymbol) (x : Nat) : Decidable (OffsetHas abfd sym x) :=
  inferInstanceAs (Decidable (Has ..))

/-- The samples at offsets of a symbol. -/
def samplesAt (profile : Profile) (abfd : OpBfd) (sym : OpBfdSymbol) : List Sample :=
  profile.orderedSamples.filter fun s => OffsetHas abfd sym (s.1.toNat + profile.startOffset.toNat)

/-- Counts in sum, as numbers that do not wrap. -/
def sampleTotal (samples : List Sample) : Nat := (samples.map fun s => s.2.toNat).sum

/-- The counts of all symbols for a class, in sum. -/
def symbolTotal (symbols : List SymbolEntry) (pclass : UInt32) : Nat :=
  (symbols.map fun s => (s.sample.counts.get pclass).toNat).sum

section

variable {profile : Profile} {abfd : OpBfd} {sym : OpBfdSymbol} {range : List Sample}

theorem accumulate_toNat_le (samples : List Sample) : (accumulate samples).toNat ≤ sampleTotal samples := by
  rw [accumulate_eq_sum, sampleTotal]
  induction samples with
  | nil => exact Nat.le_refl _
  | cons s samples ih =>
    rw [List.map_cons, List.map_cons, List.sum_cons, List.sum_cons, UInt64.toNat_add]
    exact Nat.le_trans (Nat.mod_le _ _) (Nat.add_le_add_left ih _)

/-- `samples_range` gives a symbol samples at its offsets only, wherever the range ends. -/
theorem samplesRange_le
    (h : profile.samplesRange (abfd.getSymbolRange sym).1 (abfd.getSymbolRange sym).2 = some range) :
    (accumulate range).toNat ≤ sampleTotal (samplesAt profile abfd sym) := by
  have hlast : (abfd.getSymbolRange sym).2 = (abfd.getSymbolRange sym).1 + sym.symbSize := rfl
  rw [Profile.samplesRange, hlast] at h
  refine Nat.le_trans (accumulate_toNat_le range) ?_
  by_cases hbefore : (abfd.getSymbolRange sym).1 < profile.startOffset
  · rw [if_pos hbefore] at h
    obtain rfl := Option.some.inj h
    exact Nat.zero_le _
  rw [if_neg hbefore] at h
  by_cases hthrow : (abfd.getSymbolRange sym).1 + sym.symbSize - profile.startOffset <
      (abfd.getSymbolRange sym).1 - profile.startOffset
  · simp only [if_pos hthrow] at h
    cases h
  simp only [if_neg hthrow] at h
  obtain rfl := Option.some.inj h
  rw [sampleTotal, List.map_map]
  refine sum_filter_le_of_imp (f := fun s : Sample => s.2.toNat) fun s _ hs => ?_
  obtain ⟨hlow, hhigh⟩ := of_decide_eq_true hs
  rw [UInt64.not_lt, UInt64.le_iff_toNat_le] at hbefore
  have hstart := UInt64.toNat_sub_of_le _ _ (UInt64.le_iff_toNat_le.mpr hbefore)
  rw [UInt64.le_iff_toNat_le, hstart] at hlow
  rw [UInt64.lt_iff_toNat_lt, UInt64.toNat_sub, UInt64.toNat_add] at hhigh
  have hbound := (abfd.getSymbolRange sym).1.toNat_lt
  have hsize := sym.symbSize.toNat_lt
  have hoffset := profile.startOffset.toNat_lt
  refine decide_eq_true ⟨by omega, ?_⟩
  omega

end

/-! What the calls of `add` count. -/

theorem symbolTotal_insertSymbol_le (symb : SymbolEntry) (symbols : List SymbolEntry) (pclass : UInt32) :
    symbolTotal (insertSymbol symb symbols).1 pclass ≤
      symbolTotal symbols pclass + (symb.sample.counts.get pclass).toNat := by
  simp only [symbolTotal]
  induction symbols with
  | nil => simp [insertSymbol]
  | cons s symbols ih =>
    rw [insertSymbol]
    split_ifs with hs
    · simp only [List.map_cons, List.sum_cons, SymbolEntry.addCounts, CountArray.get_add, UInt64.toNat_add]
      have hmod := Nat.mod_le ((s.sample.counts.get pclass).toNat + (symb.sample.counts.get pclass).toNat) (2 ^ 64)
      omega
    · simp only [List.map_cons, List.sum_cons]
      omega

section

variable {call : AddCall} {c c' : ProfileContainer} {symIndex : Nat} {sym : OpBfdSymbol}

theorem addSamples_symbols {symbol : Nat} {start baseVma : UInt64} (range : List Sample) (c : ProfileContainer) :
    (range.foldl (addSample call symIndex symbol start baseVma) c).symbols = c.symbols := by
  induction range generalizing c with
  | nil => rfl
  | cons it range ih => exact ih _

theorem addSymbol_total (h : addSymbol call c symIndex sym = some c') :
    symbolTotal c'.symbols call.pclass ≤
      symbolTotal c.symbols call.pclass + sampleTotal (samplesAt call.profile call.abfd sym) := by
  rw [addSymbol] at h
  obtain ⟨range, hrange, hround⟩ := Option.map_eq_some_iff.mp h
  have hle := samplesRange_le hrange
  by_cases hcount : accumulate range = 0
  · simp only [if_pos hcount] at hround
    rw [← hround]
    exact Nat.le_add_right _ _
  · simp only [if_neg hcount] at hround
    have hsymbols : c'.symbols =
        (insertSymbol (symbolEntry call c.debugInfo symIndex sym (accumulate range) c.names).1 c.symbols).1 := by
      rw [← hround]
      by_cases hneed : c.needDetails = true
      · rw [if_pos hneed]
        exact addSamples_symbols _ _
      · rw [if_neg hneed]
    have hget : (symbolEntry call c.debugInfo symIndex sym (accumulate range) c.names).1.sample.counts.get
        call.pclass = accumulate range := by
      change (CountArray.empty.set call.pclass (accumulate range)).get call.pclass = _
      rw [CountArray.get_set, if_pos rfl]
    rw [hsymbols]
    refine Nat.le_trans (symbolTotal_insertSymbol_le _ _ _) ?_
    rw [hget]
    exact Nat.add_le_add_left hle _

theorem addEachSymbol_total (call : AddCall) (syms : List OpBfdSymbol) (c : ProfileContainer) (symIndex : Nat) :
    symbolTotal (addEachSymbol call symIndex syms c).symbols call.pclass ≤
      symbolTotal c.symbols call.pclass +
        (syms.map fun sym => sampleTotal (samplesAt call.profile call.abfd sym)).sum := by
  induction syms generalizing c symIndex with
  | nil => exact Nat.le_refl _
  | cons sym syms ih =>
    rw [addEachSymbol, List.map_cons, List.sum_cons]
    split
    · exact Nat.le_add_right _ _
    · next c₁ hadd =>
      have hstep := addSymbol_total hadd
      have hrest := ih c₁ (symIndex + 1)
      omega

end

/-! The symbols of an image. -/

/-- What should hold of the symbols kept for an image: their file ranges are disjoint, no offset is in the
ranges of two symbols, and the counts of the symbols never exceed those of the profile. -/
structure CountedOnce (image : Image) (code : CodeSections) : Prop where
  files : (getSymbols image code).Pairwise fun a b => ∀ x, ¬(a.FileHas x ∧ b.FileHas x)
  offsets : ∀ symbolFilter embeddingFilename getLinenr,
    (opBfd image code symbolFilter embeddingFilename getLinenr).syms.Pairwise fun a b => ∀ x,
      ¬(OffsetHas (opBfd image code symbolFilter embeddingFilename getLinenr) a x ∧
        OffsetHas (opBfd image code symbolFilter embeddingFilename getLinenr) b x)
  counts : ∀ symbolFilter embeddingFilename getLinenr profile appName pclass debugInfo needDetails names,
    symbolTotal ((ProfileContainer.new debugInfo needDetails names).add
      ⟨profile, opBfd image code symbolFilter embeddingFilename getLinenr, appName, pclass⟩).symbols pclass ≤
      sampleTotal profile.orderedSamples

/-- The sections let the kept symbols be: none reaches over later symbols, and in an object of JIT code,
whose samples are found by address, two that lie differently in memory share no address from a kept symbol on. -/
structure ImageApart (image : Image) (code : CodeSections) : Prop where
  sections : SectionsApart (keptSymbols image code).2 image.fileSize (keptSymbols image code).1
  addresses : ".jo".toList <:+ image.filename →
    SpansApart (keptSymbols image code).2 image.fileSize (keptSymbols image code).1

section

variable {image : Image} {code : CodeSections}

/-- The symbols of the `op_bfd` are kept ones, or there is only the placeholder. -/
theorem opBfd_syms_pairwise {R : OpBfdSymbol → OpBfdSymbol → Prop} (h : (getSymbols image code).Pairwise R)
    (symbolFilter : Text → Bool) : (addSymbols image symbolFilter (getSymbols image code)).Pairwise R := by
  rw [addSymbols]
  split_ifs
  · exact (List.pairwise_singleton _ _).sublist List.filter_sublist
  · exact h.sublist List.filter_sublist

theorem offsetHas_jit (hjit : ".jo".toList <:+ image.filename) {symbolFilter embeddingFilename getLinenr}
    {sym : OpBfdSymbol} {x : Nat} :
    OffsetHas (opBfd image code symbolFilter embeddingFilename getLinenr) sym x ↔ sym.VmaHas x := by
  have hanon : (opBfd image code symbolFilter embeddingFilename getLinenr).anonObj = true := decide_eq_true hjit
  rw [OffsetHas, OpBfd.getSymbolRange, hanon]
  rfl

theorem offsetHas_file (hjit : ¬".jo".toList <:+ image.filename) {symbolFilter embeddingFilename getLinenr}
    {sym : OpBfdSymbol} {x : Nat} :
    OffsetHas (opBfd image code symbolFilter embeddingFilename getLinenr) sym x ↔ sym.FileHas x := by
  have hanon : (opBfd image code symbolFilter embeddingFilename getLinenr).anonObj = false := decide_eq_false hjit
  rw [OffsetHas, OpBfd.getSymbolRange, hanon]
  rfl

/-- With disjoint file ranges and, for JIT code, addresses apart, no offset is in two ranges. -/
theorem offsets_apart
    (hfiles : (getSymbols image code).Pairwise fun a b => ∀ x, ¬(a.FileHas x ∧ b.FileHas x))
    (haddresses : ".jo".toList <:+ image.filename → (getSymbols image code).Pairwise fun a b =>
      a.moved ≠ b.moved → ∀ x, ¬(a.VmaHas x ∧ b.VmaHas x))
    (symbolFilter : Text → Bool) (embeddingFilename : Text) (getLinenr : Nat → UInt64 → Option (Text × UInt32)) :
    (opBfd image code symbolFilter embeddingFilename getLinenr).syms.Pairwise fun a b => ∀ x,
      ¬(OffsetHas (opBfd image code symbolFilter embeddingFilename getLinenr) a x ∧
        OffsetHas (opBfd image code symbolFilter embeddingFilename getLinenr) b x) := by
  refine opBfd_syms_pairwise ?_ symbolFilter
  by_cases hjit : ".jo".toList <:+ image.filename
  · refine List.Pairwise.imp_of_mem ?_ (hfiles.and (haddresses hjit))
    rintro a b ha hb ⟨hfile, haddress⟩ x
    rw [offsetHas_jit hjit, offsetHas_jit hjit]
    by_cases hmoved : a.moved = b.moved
    · exact vmaApart_of_fileApart (setSizes_end ha) (setSizes_end hb) hmoved hfile
    · exact haddress hmoved x
  · refine hfiles.imp fun hfile x => ?_
    rw [offsetHas_file hjit, offsetHas_file hjit]
    exact hfile x

end

/-- Every sample of a binary is counted for one symbol at most exactly when its sections are apart. -/
theorem countedOnce_iff (image : Image) (code : CodeSections) : CountedOnce image code ↔ ImageApart image code := by
  have hsorted : (keptSymbols image code).1.Pairwise fun a b => a.filepos ≤ b.filepos := sortSymbols_sorted _
  have hfiles : ((getSymbols image code).Pairwise fun a b => ∀ x, ¬(a.FileHas x ∧ b.FileHas x)) ↔
      SectionsApart (keptSymbols image code).2 image.fileSize (keptSymbols image code).1 := fileDisjoint_iff hsorted
  have haddresses : ((getSymbols image code).Pairwise fun a b => a.moved ≠ b.moved → ∀ x, ¬(a.VmaHas x ∧ b.VmaHas x)) ↔
      SpansApart (keptSymbols image code).2 image.fileSize (keptSymbols image code).1 := vmaDisjoint_iff hsorted
  constructor
  · intro h
    refine ⟨hfiles.mp h.files, fun hjit => haddresses.mp ?_⟩
    by_cases hempty : getSymbols image code = []
    · rw [hempty]
      exact List.Pairwise.nil
    · have hoffsets := h.offsets (fun _ => true) [] (fun _ _ => none)
      have hsyms : (opBfd image code (fun _ => true) [] (fun _ _ => none)).syms = getSymbols image code := by
        change addSymbols image (fun _ => true) (getSymbols image code) = _
        rw [addSymbols, if_neg hempty, List.filter_true]
      rw [hsyms] at hoffsets
      refine hoffsets.imp fun hnot _ x hx => hnot x ?_
      rwa [offsetHas_jit hjit, offsetHas_jit hjit]
  · intro h
    have hoffsets := offsets_apart (hfiles.mpr h.sections) fun hjit => haddresses.mpr (h.addresses hjit)
    refine ⟨hfiles.mpr h.sections, hoffsets, ?_⟩
    intro symbolFilter embeddingFilename getLinenr profile appName pclass debugInfo needDetails names
    generalize habfd : opBfd image code symbolFilter embeddingFilename getLinenr = abfd
    have hapart := hoffsets symbolFilter embeddingFilename getLinenr
    rw [habfd] at hapart
    have htotal := addEachSymbol_total ⟨profile, abfd, appName, pclass⟩ abfd.syms
      (.new debugInfo needDetails names) 0
    refine Nat.le_trans htotal ?_
    have hsum := sum_filters_le (l := profile.orderedSamples) (f := fun s => s.2.toNat)
      (abfd.syms.map fun sym s => decide (OffsetHas abfd sym (s.1.toNat + profile.startOffset.toNat)))
      (List.pairwise_map.mpr (hapart.imp fun hnot s _ hs =>
        hnot _ ⟨of_decide_eq_true hs.1, of_decide_eq_true hs.2⟩))
    rw [List.map_map] at hsum
    change 0 + _ ≤ _
    rw [Nat.zero_add]
    exact hsum

/-- One function that the binary has a symbol for, and one behind it that only the debug file knows. -/
def sampleImage : Image where
  filename := ['a']
  fileSize := 0x4000
  sections ref := ⟨".text".toList, true, if ref.debugFile then 0x40 else 0x1000, 0x8000, 0x100⟩
  ibfdSections := [⟨false, 0⟩]
  ibfdSyms := [⟨['f'], 0, ⟨false, 0⟩, false, false, true, false⟩]
  dbfdValid := true
  dbfdSyms := [⟨['f'], 0, ⟨true, 0⟩, false, false, true, false⟩, ⟨['g'], 0x10, ⟨true, 0⟩, false, true, false, false⟩]
  ibfdStartAddress := 0
  dbfdStartAddress := 0

/-- The symbol of the binary gets the whole section, and so the other one's samples too. -/
theorem interleaved_counted_twice : ∃ code, codeSections sampleImage = some code ∧ ¬CountedOnce sampleImage code := by
  refine ⟨⟨[(".text".toList, 0x1000)], []⟩, by decide, fun h => ?_⟩
  have hranges : (getSymbols sampleImage ⟨[(".text".toList, 0x1000)], []⟩).map (fun s => (s.filepos, s.symbSize)) =
      [(0x1000, 0x100), (0x1010, 0x3ff0)] := by decide
  have hapart := (List.pairwise_map (f := fun s : OpBfdSymbol => (s.filepos, s.symbSize))
    (R := fun p q => ∀ x, ¬(Has p.1.toNat (p.1.toNat + p.2.toNat) x ∧ Has q.1.toNat (q.1.toNat + q.2.toNat) x))).mpr
    h.files
  rw [hranges] at hapart
  exact (List.pairwise_cons.mp hapart).1 _ List.mem_cons_self 0x1010 (by decide)

end Oprofile.Libpp
