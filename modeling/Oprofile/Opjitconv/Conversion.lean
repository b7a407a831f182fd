import Oprofile.JitDump.RoundTrip
import Oprofile.Opjitconv.ElfContents
import Oprofile.Opjitconv.KeptCode
import Oprofile.Opjitconv.SymbolNames

/-! The conversion of a whole JIT dump (`conversion.c`): what is looked up in the ELF file is what the agent wrote. -/
namespace Oprofile.Opjitconv

/-- An element of `entries_symbols_ascending`: what it points to, and where `entries_address_ascending` points to the
same entry. -/
abbrev NamedEntry := JitEntry × Nat

/-- What `op_jit_convert` depends on: `qsort`, the `debug` flag and BFD. -/
structure ConvertEnv where
  sorts : Sorts
  pointers : Sorting.QSort fun a b : NamedEntry => a.1.symbolName ≤ b.1.symbolName
  debug : Bool
  opens : Bool
  bfd : BfdEnv

/-- An entry of the reader, with the characters of its name. -/
def jitEntryAt (file : List UInt8) (entry : JitDump.JitEntry) : Option JitEntry :=
  (JitDump.stringAt file entry.symbolName).map fun name =>
    { vma := entry.vma, code := entry.code, codeSize := entry.codeSize, symbolName := name
      lifeStart := entry.lifeStart, lifeEnd := entry.lifeEnd }

/-- `parse_all`, `create_arrays` and `resolve_overlaps`: what `entries_address_ascending` holds then, in `fuel`
scans. -/
def resolvedEntries (env : ConvertEnv) (fuel : Nat) (file : List UInt8) (startTime endTime : UInt64) :
    Option (List JitEntry) := do
  let st ← JitDump.parseAll file endTime
  if st.rc = .fail then none
  else
    let entries ← st.entries.mapM (jitEntryAt file)
    let arrays ← createArrays env.sorts entries
    let arrays ← resolveOverlaps env.sorts env.debug fuel startTime arrays
    some arrays.addressAscending

/-- The scan of `disambiguate_symbol_names` over the pointers. -/
def numberPointers (pointers : List NamedEntry) : List NamedEntry × Nat :=
  let (entries, repCnt) := numberDuplicates (pointers.map Prod.fst)
  (entries.zip (pointers.map Prod.snd), repCnt)

/-- `disambiguate_symbol_names` over the pointers. -/
def disambiguatePointers (sort : List NamedEntry → List NamedEntry) : Nat → List NamedEntry →
    Option (List NamedEntry)
  | 0, _ => none
  | fuel + 1, pointers =>
    if intMax < pointers.length then none
    else
      let (pointers, repCnt) := numberPointers pointers
      if repCnt ≠ 0 then disambiguatePointers sort fuel (sort pointers) else some pointers

/-- The entries of the other array, under the names that were written through these pointers. -/
def renamed (entries : List JitEntry) (pointers : List NamedEntry) : List JitEntry :=
  entries.zipIdx.map fun (e, i) => ((pointers.find? fun p => p.2 = i).map Prod.fst).getD e

/-- `op_jit_convert` without the line tables: the ELF image; nothing when it fails, finds no records or takes more
than `fuel` scans for overlaps. -/
def opJitConvert (env : ConvertEnv) (fuel : Nat) (file : List UInt8) (startTime endTime : UInt64) :
    Option ElfImage := do
  let entries ← resolvedEntries env fuel file startTime endTime
  let pointers ← disambiguatePointers env.pointers.sort (entries.length + 1) (env.pointers.sort entries.zipIdx)
  let entries := renamed entries pointers
  if entries = [] then none
  else if ¬env.opens then none
  else buildElf env.bfd entries

/-! What a reader of the ELF file finds. -/

/-- Where a section is loaded. -/
def ElfImage.base (elf : ElfImage) (s : Nat) : Nat := ((elf.sections[s]?).map Asection.lo).getD 0

def ElfImage.address (elf : ElfImage) (sym : Asymbol) : Nat := elf.base sym.asection + sym.value.toNat

/-- The symbol that an address belongs to: the last one that is not above it. -/
def ElfImage.symbolAt (elf : ElfImage) (addr : Nat) : Option Asymbol :=
  (elf.symbols.filter fun sym => elf.address sym ≤ addr).getLast?

def ElfImage.writtenFrom (elf : ElfImage) (w : SectionContents) : Int := elf.base w.asection + w.offset.toInt

/-- What was written over an address last. -/
def ElfImage.lastWrite (elf : ElfImage) (addr : Nat) : Option SectionContents :=
  (elf.contents.filter fun w =>
    elf.writtenFrom w ≤ addr ∧ (addr : Int) < elf.writtenFrom w + w.size.toNat).getLast?

/-- The byte at an address: none outside of the sections, and zero where nothing was written. -/
def ElfImage.byteAt (elf : ElfImage) (file : List UInt8) (addr : Nat) : Option UInt8 :=
  if ∃ sec ∈ elf.sections, sec.lo ≤ addr ∧ addr < sec.hi then
    match elf.lastWrite addr with
    | some w => file[w.code + (addr - elf.writtenFrom w).toNat]?
    | none => some 0
  else none

variable {env : ConvertEnv} {entries es : List JitEntry} {pointers named : List NamedEntry} {e : JitEntry}
  {elf : ElfImage} {file : List UInt8} {addr k n : Nat}

/-! The names. -/

/-- The pointers lead to the entries, each under a name of its own. -/
structure Leads (entries : List JitEntry) (pointers : List NamedEntry) : Prop where
  places : (pointers.map Prod.snd).Perm (List.range entries.length)
  renames : ∀ p ∈ pointers, ∃ e, entries[p.2]? = some e ∧ Renames e p.1

theorem leads_zipIdx (entries : List JitEntry) : Leads entries entries.zipIdx where
  places := by rw [List.zipIdx_map_snd, List.range_eq_range']
  renames := by
    rintro ⟨e, i⟩ hp
    exact ⟨e, List.mem_zipIdx_iff_getElem?.mp hp, .same, rfl⟩

theorem Leads.perm (h : Leads entries pointers) (hperm : named.Perm pointers) : Leads entries named where
  places := (hperm.map Prod.snd).trans h.places
  renames p hp := h.renames p (hperm.subset hp)

theorem zip_forall₂ {R : JitEntry → JitEntry → Prop} (h : List.Forall₂ R (pointers.map Prod.fst) es) :
    List.Forall₂ (fun p q => R p.1 q.1 ∧ q.2 = p.2) pointers (es.zip (pointers.map Prod.snd)) := by
  induction pointers generalizing es with
  | nil =>
    cases h
    exact .nil
  | cons p pointers ih =>
    cases h with
    | cons hp hrest => exact .cons ⟨hp, rfl⟩ (ih hrest)

theorem numberPointers_forall₂ (pointers : List NamedEntry) :
    List.Forall₂ (fun p q => Renames p.1 q.1 ∧ q.2 = p.2) pointers (numberPointers pointers).1 :=
  zip_forall₂ ((numberDuplicates_moves _).imp fun _ _ h => h.1)

theorem Leads.follow {out : List NamedEntry} (h : Leads entries pointers)
    (hall : List.Forall₂ (fun p q => Renames p.1 q.1 ∧ q.2 = p.2) pointers out) : Leads entries out := by
  have hback : out.map Prod.snd = pointers.map Prod.snd ∧
      ∀ q ∈ out, ∃ p ∈ pointers, Renames p.1 q.1 ∧ q.2 = p.2 := by
    clear h
    induction hall with
    | nil => exact ⟨rfl, fun q hq => (by cases hq)⟩
    | @cons p q pointers out hp _ ih =>
      refine ⟨by rw [List.map_cons, List.map_cons, hp.2, ih.1], fun r hr => ?_⟩
      rcases List.mem_cons.mp hr with rfl | hr
      · exact ⟨p, List.mem_cons_self, hp⟩
      · obtain ⟨p', hp', hrel⟩ := ih.2 r hr
        exact ⟨p', List.mem_cons_of_mem _ hp', hrel⟩
  refine ⟨by rw [hback.1]; exact h.places, fun q hq => ?_⟩
  obtain ⟨p, hp, hrenames, hplace⟩ := hback.2 q hq
  obtain ⟨e, he, hfirst⟩ := h.renames p hp
  exact ⟨e, by rw [hplace, he], hfirst.trans hrenames⟩

/-- When the scans of `disambiguate_symbol_names` end, the pointers lead to entries of different names. -/
theorem disambiguatePointers_spec (sort : Sorting.QSort fun a b : NamedEntry => a.1.symbolName ≤ b.1.symbolName)
    (h : disambiguatePointers sort.sort n pointers = some named) (hleads : Leads entries pointers)
    (hsorted : pointers.Pairwise fun a b => a.1.symbolName ≤ b.1.symbolName) :
    Leads entries named ∧ (named.map fun p => p.1.symbolName).Nodup := by
  induction n generalizing pointers with
  | zero => cases h
  | succ n ih =>
    rw [disambiguatePointers] at h
    split_ifs at h with hmax
    have hnumber := hleads.follow (numberPointers_forall₂ pointers)
    dsimp only at h
    split_ifs at h with hrep
    · exact ih h (hnumber.perm (sort.perm _)) (sort.sorted _)
    · obtain rfl := Option.some.inj h
      have hnames : (names (pointers.map Prod.fst)).Pairwise (· ≤ ·) := by
        rw [names, List.map_map]
        exact List.pairwise_map.mpr hsorted
      obtain ⟨heq, hnodup⟩ := (numberDuplicates_repCnt hnames).1 (not_not.mp hrep)
      refine ⟨hnumber, ?_⟩
      have hsame : (numberPointers pointers).1 = pointers := by
        rw [numberPointers]
        dsimp only
        rw [heq, List.zip_map']
        exact List.map_id _
      rw [hsame]
      rwa [names, List.map_map] at hnodup

theorem renamed_getElem? (pointers : List NamedEntry) (he : entries[k]? = some e) :
    (renamed entries pointers)[k]? = some (((pointers.find? fun p => p.2 = k).map Prod.fst).getD e) := by
  rw [renamed, List.getElem?_map, List.getElem?_zipIdx, he, Option.map_some, Option.map_some, Nat.zero_add]

/-- There is one pointer to each entry. -/
theorem Leads.find (h : Leads entries pointers) (he : entries[k]? = some e) :
    ∃ e', (pointers.find? fun p => p.2 = k) = some (e', k) ∧ (e', k) ∈ pointers ∧ Renames e e' := by
  have hk : k ∈ pointers.map Prod.snd :=
    h.places.symm.subset (List.mem_range.mpr (List.getElem?_eq_some_iff.mp he).1)
  obtain ⟨p, hp, rfl⟩ := List.mem_map.mp hk
  obtain ⟨⟨e', i⟩, hfind⟩ : ∃ q, (pointers.find? fun q => q.2 = p.2) = some q :=
    Option.isSome_iff_exists.mp (List.find?_isSome.mpr ⟨p, hp, by simp⟩)
  have hi : i = p.2 := by simpa using List.find?_some hfind
  subst hi
  have hmem := List.mem_of_find?_eq_some hfind
  obtain ⟨e₀, he₀, hrenames⟩ := h.renames _ hmem
  obtain rfl := Option.some.inj (he₀.symm.trans he)
  exact ⟨e', hfind, hmem, hrenames⟩

theorem Leads.to_renamed (h : Leads entries pointers) (he : entries[k]? = some e) :
    ∃ e', (renamed entries pointers)[k]? = some e' ∧ (e', k) ∈ pointers ∧ Renames e e' := by
  obtain ⟨e', hfind, hmem, hrenames⟩ := h.find he
  refine ⟨e', ?_, hmem, hrenames⟩
  rw [renamed_getElem? pointers he, hfind]
  rfl

theorem renamed_length (entries : List JitEntry) (pointers : List NamedEntry) :
    (renamed entries pointers).length = entries.length := by
  rw [renamed, List.length_map, List.length_zipIdx]

/-- Back from the other array. -/
theorem Leads.of_renamed (h : Leads entries pointers) (he : (renamed entries pointers)[k]? = some e) :
    ∃ e₀, entries[k]? = some e₀ ∧ (e, k) ∈ pointers ∧ Renames e₀ e := by
  have hk := (List.getElem?_eq_some_iff.mp he).1
  rw [renamed_length] at hk
  obtain ⟨e', he', hmem, hrenames⟩ := h.to_renamed (List.getElem?_eq_getElem hk)
  obtain rfl := Option.some.inj (he.symm.trans he')
  exact ⟨_, List.getElem?_eq_getElem hk, hmem, hrenames⟩

theorem Leads.nodup (h : Leads entries pointers) (hnodup : (pointers.map fun p => p.1.symbolName).Nodup) :
    (names (renamed entries pointers)).Nodup := by
  rw [names, List.nodup_iff_injective_getElem]
  rintro ⟨i, hi⟩ ⟨j, hj⟩ hname
  rw [List.length_map] at hi hj
  simp only [List.getElem_map] at hname
  obtain ⟨-, -, hpi, -⟩ := h.of_renamed (List.getElem?_eq_getElem hi)
  obtain ⟨-, -, hpj, -⟩ := h.of_renamed (List.getElem?_eq_getElem hj)
  have hsame := List.inj_on_of_nodup_map hnodup hpi hpj hname
  exact Fin.ext (congrArg Prod.snd hsame)

/-! The places of the entries. -/

theorem Renames.lo {e e' : JitEntry} (h : Renames e e') : e'.lo = e.lo := by
  rw [h.2]
  rfl

theorem Renames.hi {e e' : JitEntry} (h : Renames e e') : e'.hi = e.hi := by
  rw [h.2]
  rfl

theorem Leads.laid (h : Leads entries pointers) (hlaid : Laid entries) : Laid (renamed entries pointers) where
  size e he := by
    obtain ⟨k, hk⟩ := List.mem_iff_getElem?.mp he
    obtain ⟨e₀, he₀, -, -, hsame⟩ := h.of_renamed hk
    rw [hsame]
    exact hlaid.size e₀ (List.mem_of_getElem? he₀)
  apart := by
    refine List.pairwise_iff_getElem.mpr fun i j hi hj hlt => ?_
    obtain ⟨a, ha, -, hfirst⟩ := h.of_renamed (List.getElem?_eq_getElem hi)
    obtain ⟨b, hb, -, hsecond⟩ := h.of_renamed (List.getElem?_eq_getElem hj)
    rw [hfirst.hi, hsecond.lo]
    exact hlaid.lt ha hb hlt

theorem Leads.gapBefore (h : Leads entries pointers) (k : Nat) :
    gapBefore (Opjitconv.renamed entries pointers) k = Opjitconv.gapBefore entries k := by
  have hat : ∀ j : Nat, (Opjitconv.renamed entries pointers)[j]? = none ∧ entries[j]? = none ∨
      ∃ e₀ e, entries[j]? = some e₀ ∧ (Opjitconv.renamed entries pointers)[j]? = some e ∧ Renames e₀ e := by
    intro j
    cases he : entries[j]? with
    | none =>
      left
      rw [List.getElem?_eq_none_iff] at he ⊢
      exact ⟨by rwa [renamed_length], rfl⟩
    | some e₀ =>
      obtain ⟨e, hrenamed, -, hrenames⟩ := h.to_renamed he
      exact Or.inr ⟨e₀, e, rfl, hrenamed, hrenames⟩
  unfold Opjitconv.gapBefore
  rcases hat k with ⟨hnone, hnone'⟩ | ⟨a₀, a, ha₀, ha, -, hsame⟩
  · rw [hnone, hnone']
  · rcases hat (k - 1) with ⟨hnone, hnone'⟩ | ⟨b₀, b, hb₀, hb, -, hsame'⟩
    · rw [ha, ha₀, hnone, hnone']
    · rw [ha, ha₀, hb, hb₀, hsame, hsame']
      rfl

theorem Leads.shortSections (h : Leads entries pointers) (hshort : ShortSections entries) :
    ShortSections (renamed entries pointers) := by
  intro i j e ee hle hi hj hopen
  obtain ⟨e₀, he₀, -, hfirst⟩ := h.of_renamed hi
  obtain ⟨ee₀, hee₀, -, hlast⟩ := h.of_renamed hj
  rw [hfirst.lo, hlast.hi]
  exact hshort i j e₀ ee₀ hle he₀ hee₀ fun k hk hk' => by rw [← h.gapBefore k]; exact hopen k hk hk'

/-- What the passes leave of each entry. -/
structure Built (entries : List JitEntry) (elf : ElfImage) : Prop where
  laid : Laid entries
  count : elf.symbols.length = entries.length
  symbols : ∀ (k : Nat) (e : JitEntry), entries[k]? = some e → ∃ sym, elf.symbols[k]? = some sym ∧ sym.name = e.symbolName ∧
    elf.address sym = e.lo
  contents : elf.contents = (List.range entries.length).flatMap (contentFor entries elf.sections)
  written : ∀ (k : Nat) (e : JitEntry) (w : SectionContents), entries[k]? = some e → w ∈ contentFor entries elf.sections k →
    e.code = some w.code ∧ elf.writtenFrom w = e.lo ∧ w.size.toNat = e.hi - e.lo
  kept : ∀ (k : Nat) (e : JitEntry) (code : Nat), entries[k]? = some e → e.code = some code → contentFor entries elf.sections k ≠ []
  holds : ∀ (k : Nat) (e : JitEntry), entries[k]? = some e → ∃ sec ∈ elf.sections, sec.Holds e

theorem buildElf_built {bfd : BfdEnv} (hlaid : Laid entries) (hshort : ShortSections entries) (hne : entries ≠ [])
    (h : buildElf bfd entries = some elf) : Built entries elf := by
  have hpos : 0 < entries.length := List.length_pos_iff.mpr hne
  obtain ⟨p, hp, h⟩ := Option.bind_eq_some_iff.mp h
  obtain ⟨syms, hsyms, h⟩ := Option.bind_eq_some_iff.mp h
  obtain ⟨contents, hcontents, h⟩ := Option.bind_eq_some_iff.mp h
  have hcount : entries.length ≤ intMax := by
    by_contra hmany
    rw [partitionSections, if_pos (Nat.lt_of_not_le hmany)] at hp
    cases hp
  have hplaced := (partitionSections_spec bfd hpos hcount hlaid hshort).1 p hp
  have hsymbols := (fillSymtab_spec hpos hcount hplaced).1 syms hsyms
  obtain rfl := (fillContents_spec hpos hplaced).1 contents hcontents
  obtain rfl := Option.some.inj h
  generalize helf : (⟨p.sections, syms, contentsBefore entries p.sections entries.length⟩ : ElfImage) = elf
  have hsections : elf.sections = p.sections := by rw [← helf]
  have hsyms' : elf.symbols = syms := by rw [← helf]
  have hcontents' : elf.contents = (List.range entries.length).flatMap (contentFor entries elf.sections) := by
    rw [← helf]
    rfl
  have hin : ∀ (k : Nat) (e : JitEntry), entries[k]? = some e →
      ∃ s sec, InSection elf k e (contentFor entries elf.sections k) s sec := by
    intro k e he
    rw [hsections]
    exact inSection_of_placed hlaid hplaced hsections (by rw [hsyms']; exact hsymbols) he
  refine ⟨hlaid, ?_, ?_, hcontents', ?_, ?_, ?_⟩
  · have hlength := congrArg List.length hsymbols
    rw [hsyms']
    rwa [List.length_map, List.length_map, List.length_range] at hlength
  · intro k e he
    obtain ⟨s, sec, hin⟩ := hin k e he
    obtain ⟨sym, hsym, hname, hsec, hvalue⟩ := hin.symbol
    refine ⟨sym, hsym, hname, ?_⟩
    rw [ElfImage.address, ElfImage.base, hsec, hin.found, Option.map_some, Option.getD_some]
    omega
  · intro k e w he hw
    obtain ⟨s, sec, hin⟩ := hin k e he
    cases hcode : e.code with
    | none =>
      have hnone := hin.noCode hcode
      rw [hnone] at hw
      cases hw
    | some code =>
      obtain ⟨w', hw', hsec, hcode', hoffset, hsize⟩ := hin.code code hcode
      rw [hw'] at hw
      obtain rfl := List.mem_singleton.mp hw
      refine ⟨by rw [hcode'], ?_, hsize⟩
      rw [ElfImage.writtenFrom, ElfImage.base, hsec, hin.found, Option.map_some, Option.getD_some, hoffset]
      omega
  · intro k e code he hcode
    obtain ⟨s, sec, hin⟩ := hin k e he
    obtain ⟨w', hw', -⟩ := hin.code code hcode
    rw [hw']
    exact List.cons_ne_nil _ _
  · intro k e he
    obtain ⟨s, sec, hin⟩ := hin k e he
    exact ⟨sec, List.mem_of_getElem? hin.found, hin.holds⟩

/-- An address of an entry belongs to the symbol of the entry. -/
theorem Built.symbolAt (h : Built entries elf) (he : entries[k]? = some e) (ha : e.Has addr) :
    ∃ sym, elf.symbolAt addr = some sym ∧ sym.name = e.symbolName := by
  obtain ⟨sym, hsym, hname, haddress⟩ := h.symbols k e he
  refine ⟨sym, Sorting.getLast?_filter_of_last hsym ?_ ?_, hname⟩
  · exact decide_eq_true (by rw [haddress]; exact ha.1)
  · intro j sym' hlt hsym'
    have hj := (List.getElem?_eq_some_iff.mp hsym').1
    rw [h.count] at hj
    obtain ⟨sym₁, hsym₁, -, haddress'⟩ := h.symbols j _ (List.getElem?_eq_getElem hj)
    obtain rfl := Option.some.inj (hsym₁.symm.trans hsym')
    have hle := h.laid.lt he (List.getElem?_eq_getElem hj) hlt
    refine decide_eq_false fun hbelow => ?_
    rw [haddress'] at hbelow
    exact absurd ha.2 (by omega)

/-- Only the entry that has an address is written there. -/
theorem Built.written_has (h : Built entries elf) {w : SectionContents} (hw : w ∈ elf.contents)
    (hlo : elf.writtenFrom w ≤ addr) (hhi : (addr : Int) < elf.writtenFrom w + w.size.toNat) :
    ∃ (k : Nat) (e : JitEntry), entries[k]? = some e ∧ e.Has addr ∧ e.code = some w.code ∧ elf.writtenFrom w = e.lo := by
  rw [h.contents] at hw
  obtain ⟨k, hk, hw⟩ := List.mem_flatMap.mp hw
  obtain ⟨e, he⟩ : ∃ e, entries[k]? = some e := ⟨_, List.getElem?_eq_getElem (List.mem_range.mp hk)⟩
  obtain ⟨hcode, hfrom, hsize⟩ := h.written k e w he hw
  have hle := lo_le_hi e
  exact ⟨k, e, he, ⟨by omega, by omega⟩, hcode, hfrom⟩

/-- The entry that has an address. -/
theorem Laid.unique (h : Laid entries) {e' : JitEntry} {j : Nat} (he : entries[k]? = some e) (he' : entries[j]? = some e')
    (ha : e.Has addr) (ha' : e'.Has addr) : e = e' := by
  have hleft := ha.1
  have hright := ha.2
  have hleft' := ha'.1
  have hright' := ha'.2
  rcases Nat.lt_trichotomy k j with hlt | rfl | hlt
  · have hapart := h.lt he he' hlt
    omega
  · exact Option.some.inj (he.symm.trans he')
  · have hapart := h.lt he' he hlt
    omega

/-- What is written last at an address of an entry is its code. -/
theorem Built.lastWrite (h : Built entries elf) (he : entries[k]? = some e) (ha : e.Has addr) :
    (e.code = none → elf.lastWrite addr = none) ∧ (∀ code, e.code = some code →
      ∃ w, elf.lastWrite addr = some w ∧ w.code = code ∧ elf.writtenFrom w = e.lo) := by
  rw [ElfImage.lastWrite]
  generalize hfilter : elf.contents.filter _ = found
  have hfound : ∀ w ∈ found, e.code = some w.code ∧ elf.writtenFrom w = e.lo := by
    intro w hw
    rw [← hfilter] at hw
    obtain ⟨hw, hcovers⟩ := List.mem_filter.mp hw
    obtain ⟨hlo, hhi⟩ := of_decide_eq_true hcovers
    obtain ⟨j, e', he', ha', hcode, hfrom⟩ := h.written_has hw hlo hhi
    obtain rfl := h.laid.unique he he' ha ha'
    exact ⟨hcode, hfrom⟩
  refine ⟨fun hcode => ?_, fun code hcode => ?_⟩
  · refine List.getLast?_eq_none_iff.mpr (List.eq_nil_iff_forall_not_mem.mpr fun w hw => ?_)
    have hw' := (hfound w hw).1
    rw [hcode] at hw'
    cases hw'
  · have hsome : found ≠ [] := by
      obtain ⟨w, hw⟩ := List.exists_mem_of_ne_nil _ (h.kept k e code he hcode)
      obtain ⟨-, hfrom, hsize⟩ := h.written k e w he hw
      have hleft := ha.1
      have hright := ha.2
      refine List.ne_nil_of_mem (a := w) ?_
      rw [← hfilter, h.contents]
      refine List.mem_filter.mpr ⟨List.mem_flatMap.mpr ⟨k, ?_, hw⟩, decide_eq_true ⟨by omega, by omega⟩⟩
      exact List.mem_range.mpr (List.getElem?_eq_some_iff.mp he).1
    have hlast := List.getLast?_eq_some_getLast hsome
    obtain ⟨hcode', hfrom⟩ := hfound _ (List.mem_of_getLast? hlast)
    exact ⟨_, hlast, Option.some.inj (hcode'.symm.trans hcode), hfrom⟩

/-- The byte at an address of an entry is that of its code, or zero where it has none. -/
theorem Built.byteAt (h : Built entries elf) (file : List UInt8) (he : entries[k]? = some e) (ha : e.Has addr) :
    (e.code = none → elf.byteAt file addr = some 0) ∧
      (∀ code, e.code = some code → elf.byteAt file addr = file[code + (addr - e.lo)]?) := by
  obtain ⟨hnone, hsome⟩ := h.lastWrite he ha
  have hinside : ∃ sec ∈ elf.sections, sec.lo ≤ addr ∧ addr < sec.hi := by
    obtain ⟨sec, hsec, hholds⟩ := h.holds k e he
    exact ⟨sec, hsec, hholds.1.trans ha.1, Nat.lt_of_lt_of_le ha.2 hholds.2⟩
  rw [ElfImage.byteAt, if_pos hinside]
  refine ⟨fun hcode => ?_, fun code hcode => ?_⟩
  · rw [hnone hcode]
  · obtain ⟨w, hw, rfl, hfrom⟩ := hsome code hcode
    have hleft := ha.1
    simp only [hw, hfrom]
    rw [show ((addr : Int) - (e.lo : Int)).toNat = addr - e.lo by omega]

/-- Nothing is written where there is no entry. -/
theorem Built.byteAt_zero (h : Built entries elf) (hno : ∀ e ∈ entries, ¬e.Has addr) {b : UInt8}
    (hb : elf.byteAt file addr = some b) : b = 0 := by
  have hnone : elf.lastWrite addr = none := by
    refine List.getLast?_eq_none_iff.mpr (List.filter_eq_nil_iff.mpr fun w hw hcovers => ?_)
    obtain ⟨hlo, hhi⟩ := of_decide_eq_true hcovers
    obtain ⟨j, e', he', ha', -⟩ := h.written_has hw hlo hhi
    exact hno e' (List.mem_of_getElem? he') ha'
  rw [ElfImage.byteAt, hnone] at hb
  split_ifs at hb
  exact (Option.some.inj hb).symm

/-! The entries behind `resolve_overlaps`. -/

/-- What `resolve_overlaps` leaves of a list of entries. -/
structure Resolved (startTime : UInt64) (entries es : List JitEntry) : Prop where
  laid : Laid es
  piece : ∀ p ∈ es, ∃ e ∈ entries, startTime ≤ e.lifeEnd ∧ Piece e p
  cover : ∀ addr e, e ∈ entries → startTime ≤ e.lifeEnd → e.Has addr → ∃ p ∈ es, p.Has addr
  kept : ∀ e, Kept e (entries.filter fun x => startTime ≤ x.lifeEnd) → Kept e es

theorem resolveOverlaps_resolved {sorts : Sorts} {debug : Bool} {fuel : Nat} {startTime : UInt64}
    {arrays resolved : Arrays} (hlist : ∀ e ∈ entries, e.Sound) (harrays : createArrays sorts entries = some arrays)
    (h : resolveOverlaps sorts debug fuel startTime arrays = some resolved) :
    Resolved startTime entries resolved.addressAscending := by
  obtain ⟨hrefines, hsound, hsorted, -, -⟩ := invalidateEarlybirds_refines startTime hlist harrays
  obtain ⟨⟨es, again⟩, hscans, rfl⟩ := Option.map_eq_some_iff.mp h
  obtain ⟨hrest, hsound', -, hapart, -⟩ := rescan_refines hsound hsorted hscans
  have hwhole := hrefines.trans hrest
  have hes : (if again = true then resortSymbol sorts es
      else { invalidateEarlybirds sorts startTime arrays with addressAscending := es }).addressAscending = es := by
    cases again <;> rfl
  change Resolved startTime entries (if again = true then resortSymbol sorts es
      else { invalidateEarlybirds sorts startTime arrays with addressAscending := es }).addressAscending
  rw [hes]
  refine ⟨⟨fun e he => (hsound' e he).size, ?_⟩, ?_, ?_, ?_⟩
  · refine List.Pairwise.imp_of_mem ?_ hapart
    intro a b ha _ hle
    rw [UInt64.le_iff_toNat_le, (hsound' a ha).endAddr] at hle
    exact hle
  · intro p hp
    obtain ⟨e, he, -, hep⟩ := hwhole.piece p hp (hsound' p hp).nonzero
    obtain ⟨he, hlife⟩ := List.mem_filter.mp he
    exact ⟨e, he, of_decide_eq_true hlife, hep⟩
  · intro addr e he hlife ha
    obtain ⟨p, hp, -, hpa⟩ := hwhole.cover addr
      ⟨e, List.mem_filter.mpr ⟨he, decide_eq_true hlife⟩, (hlist e he).nonzero, ha⟩
    exact ⟨p, hp, hpa⟩
  · exact fun e hkept => rescan_kept hsound hscans (invalidateEarlybirds_kept harrays hkept)

/-- A name with the suffixes of `resolve_overlaps`, then those of `disambiguate_symbol_names`. -/
def NameFrom (name long : List UInt8) : Prop := ∃ mid, Suffixed name mid ∧ Tagged mid long

/-- What the ELF file shows at an address, in terms of the entries that are alive at the start. -/
structure EntryShown (file : List UInt8) (startTime : UInt64) (entries : List JitEntry) (elf : ElfImage)
    (addr : Nat) : Prop where
  found : ∀ e ∈ entries, startTime ≤ e.lifeEnd → e.Has addr → ∃ e ∈ entries, startTime ≤ e.lifeEnd ∧ e.Has addr ∧
    (∃ sym, elf.symbolAt addr = some sym ∧ NameFrom e.symbolName sym.name) ∧
    (elf.byteAt file addr = some 0 ∨ ∃ code, e.code = some code ∧ elf.byteAt file addr = file[code + (addr - e.lo)]?)
  nothing : (∀ e ∈ entries, startTime ≤ e.lifeEnd → ¬e.Has addr) → ∀ b, elf.byteAt file addr = some b → b = 0
  alone : ∀ e, e.Has addr → Kept e (entries.filter fun x => startTime ≤ x.lifeEnd) →
    (e.code = none → elf.byteAt file addr = some 0) ∧
      (∀ code, e.code = some code → elf.byteAt file addr = file[code + (addr - e.lo)]?)

theorem convert_shows {resolved : List JitEntry} {startTime : UInt64} (hresolved : Resolved startTime entries resolved)
    (hleads : Leads resolved pointers) (hbuilt : Built (renamed resolved pointers) elf) (addr : Nat) :
    EntryShown file startTime entries elf addr := by
  have hfinal : ∀ p ∈ resolved, p.Has addr → ∃ (k : Nat) (p' : JitEntry), (renamed resolved pointers)[k]? = some p' ∧ p'.Has addr ∧
      Renames p p' := by
    intro p hp ha
    obtain ⟨k, hk⟩ := List.mem_iff_getElem?.mp hp
    obtain ⟨p', hp', -, hrenames⟩ := hleads.to_renamed hk
    refine ⟨k, p', hp', ?_, hrenames⟩
    rw [JitEntry.Has, hrenames.lo, hrenames.hi]
    exact ha
  have hcode : ∀ {p p' : JitEntry}, Renames p p' → p'.code = p.code := by
    intro p p' hrenames
    rw [hrenames.2]
  refine ⟨?_, ?_, ?_⟩
  · intro e he hlife ha
    obtain ⟨p, hp, hpa⟩ := hresolved.cover addr e he hlife ha
    obtain ⟨e', he', hlife', hpiece⟩ := hresolved.piece p hp
    obtain ⟨k, p', hp', hpa', hrenames⟩ := hfinal p hp hpa
    obtain ⟨sym, hsym, hname⟩ := hbuilt.symbolAt hp' hpa'
    refine ⟨e', he', hlife', hpiece.has hpa, ⟨sym, hsym, p.symbolName, hpiece.name, hname ▸ hrenames.1⟩, ?_⟩
    obtain ⟨hzero, hwritten⟩ := hbuilt.byteAt file hp' hpa'
    rw [hcode hrenames, hrenames.lo] at hwritten
    rw [hcode hrenames] at hzero
    rcases hpiece.code with hnone | ⟨hsame, hvma⟩
    · exact Or.inl (hzero hnone)
    · have hlo : p.lo = e'.lo := congrArg UInt64.toNat hvma
      rw [hsame, hlo] at hwritten
      rw [hsame] at hzero
      cases hentry : e'.code with
      | none => exact Or.inl (hzero hentry)
      | some code => exact Or.inr ⟨code, rfl, hwritten code hentry⟩
  · intro hno
    refine fun b => hbuilt.byteAt_zero fun p' hp' ha => ?_
    obtain ⟨k, hk⟩ := List.mem_iff_getElem?.mp hp'
    obtain ⟨p, hp, -, hrenames⟩ := hleads.of_renamed hk
    obtain ⟨e, he, hlife, hpiece⟩ := hresolved.piece p (List.mem_of_getElem? hp)
    rw [JitEntry.Has, hrenames.lo, hrenames.hi] at ha
    exact hno e he hlife (hpiece.has ha)
  · intro e ha hkept
    obtain ⟨p, hp, himage⟩ := (hresolved.kept e hkept).exists
    have hlo := lo_of_image himage
    have hpa : p.Has addr := by
      rw [JitEntry.Has, hlo, hi_of_image himage]
      exact ha
    obtain ⟨k, p', hp', hpa', hrenames⟩ := hfinal p hp hpa
    have hbyte := hbuilt.byteAt file hp' hpa'
    rwa [hcode hrenames, hrenames.lo, hlo, code_of_image himage] at hbyte

end Oprofile.Opjitconv

namespace Oprofile.JitDump

open Opjitconv (ElfImage Asymbol ConvertEnv NameFrom)

/-- The piece of code is alive when the samples start. -/
def Life.AliveFrom (startTime endTime : UInt64) (life : Life) : Prop := startTime ≤ life.closed.getD endTime

def Life.Has (life : Life) (addr : Nat) : Prop :=
  life.nc.vma.toNat ≤ addr ∧ addr < life.nc.vma.toNat + life.nc.size.toNat

/-- Two pieces of code that have addresses in common, or one without code inside the other. -/
def Life.Meets (life other : Life) : Prop :=
  other.nc.vma.toNat < life.nc.vma.toNat + life.nc.size.toNat ∧
    life.nc.vma.toNat < other.nc.vma.toNat + other.nc.size.toNat

/-- The byte that the agent gave for an address. -/
def Life.codeAt (life : Life) (addr : Nat) : Option UInt8 :=
  life.nc.code.map fun code => code.mem (addr - life.nc.vma.toNat)

/-- What the ELF file shows at an address, in terms of what the agent wrote. -/
structure LifeShown (file : List UInt8) (startTime endTime : UInt64) (lives : List Life) (elf : ElfImage)
    (addr : Nat) : Prop where
  found : ∀ life ∈ lives, life.AliveFrom startTime endTime → life.Has addr →
    ∃ life ∈ lives, life.AliveFrom startTime endTime ∧ life.Has addr ∧
      (∃ sym, elf.symbolAt addr = some sym ∧ NameFrom life.nc.symbolName.chars sym.name) ∧
      (elf.byteAt file addr = some 0 ∨ ∃ b, elf.byteAt file addr = some b ∧ life.codeAt addr = some b)
  nothing : (∀ life ∈ lives, life.AliveFrom startTime endTime → ¬life.Has addr) →
    ∀ b, elf.byteAt file addr = some b → b = 0
  alone : ∀ pre life post, lives = pre ++ life :: post → life.AliveFrom startTime endTime → life.Has addr →
    (∀ other ∈ pre ++ post, other.AliveFrom startTime endTime → ¬life.Meets other) →
    elf.byteAt file addr = some ((life.codeAt addr).getD 0)

variable {file : List UInt8} {startTime endTime : UInt64} {lives : List Life} {life : Life}
  {entries : List Opjitconv.JitEntry} {e : Opjitconv.JitEntry} {addr : Nat}

/-- The entry of a piece of code. -/
structure Life.Stored (file : List UInt8) (endTime : UInt64) (life : Life) (e : Opjitconv.JitEntry) : Prop where
  vma : e.vma = life.nc.vma
  size : e.codeSize.toInt = life.nc.size.toNat
  name : e.symbolName = life.nc.symbolName.chars
  lifeEnd : e.lifeEnd = life.closed.getD endTime
  code : e.code.map (fun code => (file.drop code).take e.codeSize.toInt.toNat) = life.nc.codeBytes

theorem stored_of_shows {read : List JitEntry}
    (hshows : read.map (JitEntry.shows file) = lives.map fun life => some (life.shown endTime))
    (hread : read.mapM (Opjitconv.jitEntryAt file) = some entries) :
    List.Forall₂ (Life.Stored file endTime) lives entries := by
  induction read generalizing lives entries with
  | nil =>
    obtain rfl := List.map_eq_nil_iff.mp hshows.symm
    obtain rfl := Option.some.inj hread
    exact .nil
  | cons entry read ih =>
    cases lives with
    | nil => cases hshows
    | cons life lives =>
      rw [List.map_cons, List.map_cons, List.cons.injEq] at hshows
      rw [List.mapM_cons] at hread
      obtain ⟨e, he, hread⟩ := Option.bind_eq_some_iff.mp hread
      obtain ⟨es, hes, hread⟩ := Option.bind_eq_some_iff.mp hread
      obtain rfl := Option.some.inj hread
      refine .cons ?_ (ih hshows.2 hes)
      obtain ⟨name, hname, hcode⟩ := Option.map_eq_some_iff.mp hshows.1
      rw [Opjitconv.jitEntryAt, hname] at he
      obtain rfl := Option.some.inj he
      exact ⟨congrArg JitCode.vma hcode, congrArg JitCode.codeSize hcode, congrArg JitCode.symbolName hcode,
        congrArg JitCode.lifeEnd hcode, congrArg JitCode.code hcode⟩

theorem Life.Stored.has (h : life.Stored file endTime e) : e.Has addr ↔ life.Has addr := by
  rw [Opjitconv.JitEntry.Has, Life.Has, Opjitconv.JitEntry.lo, Opjitconv.JitEntry.hi, h.vma, h.size, Int.toNat_natCast]

theorem Life.Stored.alive (h : life.Stored file endTime e) : startTime ≤ e.lifeEnd ↔ life.AliveFrom startTime endTime := by
  rw [h.lifeEnd, Life.AliveFrom]

/-- What the entry points to is the code. -/
theorem Life.Stored.codeAt (h : life.Stored file endTime e) (ha : life.Has addr) :
    (e.code = none → life.codeAt addr = none) ∧ ∀ code, e.code = some code →
      ∃ b, file[code + (addr - e.lo)]? = some b ∧ life.codeAt addr = some b := by
  have hlo : e.lo = life.nc.vma.toNat := congrArg UInt64.toNat h.vma
  have hcode := h.code
  rw [h.size, Int.toNat_natCast, NativeCode.codeBytes] at hcode
  have hlt : addr - life.nc.vma.toNat < life.nc.size.toNat := by
    have hright := ha.2
    have hleft := ha.1
    omega
  rw [Life.codeAt, hlo]
  cases hptr : life.nc.code with
  | none =>
    rw [hptr] at hcode
    obtain hnone := Option.map_eq_none_iff.mp hcode
    refine ⟨fun _ => rfl, fun ptr hptr' => ?_⟩
    rw [hnone] at hptr'
    cases hptr'
  | some code =>
    rw [hptr] at hcode
    obtain ⟨ptr, hptr', hbytes⟩ := Option.map_eq_some_iff.mp hcode
    have hget := congrArg (fun bs : List UInt8 => bs[addr - life.nc.vma.toNat]?) hbytes
    simp only [List.getElem?_take, if_pos hlt, List.getElem?_drop, List.getElem?_map, List.getElem?_range hlt,
      Option.map_some] at hget
    refine ⟨fun hnone => ?_, fun ptr' hptr'' => ⟨_, ?_, rfl⟩⟩
    · rw [hptr'] at hnone
      cases hnone
    · rw [← Option.some.inj (hptr'.symm.trans hptr'')]
      exact hget

/-! Two lists side by side. -/

section

variable {A B : Type} {R : A → B → Prop} {as : List A} {bs : List B}

theorem exists_right (h : List.Forall₂ R as bs) {a : A} (ha : a ∈ as) : ∃ b ∈ bs, R a b := by
  induction h with
  | nil => cases ha
  | @cons x y xs ys hxy _ ih =>
    rcases List.mem_cons.mp ha with rfl | ha
    · exact ⟨y, List.mem_cons_self, hxy⟩
    · obtain ⟨b, hb, hab⟩ := ih ha
      exact ⟨b, List.mem_cons_of_mem _ hb, hab⟩

theorem exists_left (h : List.Forall₂ R as bs) {b : B} (hb : b ∈ bs) : ∃ a ∈ as, R a b :=
  exists_right (R := fun b a => R a b) h.flip hb

theorem split_right {pre post : List A} {a : A} (h : List.Forall₂ R (pre ++ a :: post) bs) :
    ∃ pre' b post', bs = pre' ++ b :: post' ∧ R a b ∧ List.Forall₂ R (pre ++ post) (pre' ++ post') := by
  induction pre generalizing bs with
  | nil =>
    cases h with
    | @cons _ b _ post' hab hrest => exact ⟨[], b, post', rfl, hab, hrest⟩
  | cons x pre ih =>
    cases h with
    | @cons _ y _ ys hxy hrest =>
      obtain ⟨pre', b, post', rfl, hab, hothers⟩ := ih hrest
      exact ⟨y :: pre', b, post', rfl, hab, .cons hxy hothers⟩

end

variable {elf : ElfImage}

theorem lifeShown_of_entries (hstored : List.Forall₂ (Life.Stored file endTime) lives entries)
    (hvma : ∀ life ∈ lives, life.nc.vma ≠ 0) (h : Opjitconv.EntryShown file startTime entries elf addr) :
    LifeShown file startTime endTime lives elf addr where
  found life hlife halive ha := by
    obtain ⟨e, he, hs⟩ := exists_right hstored hlife
    obtain ⟨e', he', halive', ha', ⟨sym, hsym, hname⟩, hbyte⟩ := h.found e he (hs.alive.mpr halive) (hs.has.mpr ha)
    obtain ⟨life', hlife', hs'⟩ := exists_left hstored he'
    have hhas := hs'.has.mp ha'
    refine ⟨life', hlife', hs'.alive.mp halive', hhas, ⟨sym, hsym, hs'.name ▸ hname⟩, ?_⟩
    rcases hbyte with hzero | ⟨code, hcode, hbyte⟩
    · exact Or.inl hzero
    · obtain ⟨b, hb, hgiven⟩ := (hs'.codeAt hhas).2 code hcode
      exact Or.inr ⟨b, hbyte.trans hb, hgiven⟩
  nothing hno := by
    refine h.nothing fun e he halive ha => ?_
    obtain ⟨life, hlife, hs⟩ := exists_left hstored he
    exact hno life hlife (hs.alive.mp halive) (hs.has.mp ha)
  alone pre life post hlives halive ha hothers := by
    subst hlives
    obtain ⟨pre', e, post', rfl, hs, hrest⟩ := split_right hstored
    have hlo : e.lo = life.nc.vma.toNat := congrArg UInt64.toNat hs.vma
    have hmeets : Opjitconv.Meeting e e = true := by
      have hhas := hs.has.mpr ha
      have hnonzero := hvma life (List.mem_append_right _ List.mem_cons_self)
      rw [← hs.vma] at hnonzero
      have hleft := hhas.1
      have hright := hhas.2
      exact Opjitconv.meeting_iff.mpr ⟨hnonzero, by omega, by omega⟩
    have hapart : ∀ x ∈ pre' ++ post', startTime ≤ x.lifeEnd → Opjitconv.Meeting e x = false := by
      intro x hx hlife
      obtain ⟨other, hother, hs'⟩ := exists_left hrest hx
      have hno := hothers other hother (hs'.alive.mp hlife)
      refine decide_eq_false fun hmeet => hno ?_
      have hbelow := hmeet.2.1
      have habove := hmeet.2.2
      rw [Opjitconv.JitEntry.lo, Opjitconv.JitEntry.hi, hs'.vma, hs.vma, hs.size, Int.toNat_natCast] at hbelow
      rw [Opjitconv.JitEntry.lo, Opjitconv.JitEntry.hi, hs'.vma, hs.vma, hs'.size, Int.toNat_natCast] at habove
      exact ⟨hbelow, habove⟩
    obtain ⟨hzero, hwritten⟩ := h.alone e (hs.has.mpr ha)
      (Opjitconv.kept_of_alone hmeets (hs.alive.mpr halive) hapart)
    cases hcode : e.code with
    | none => rw [hzero hcode, (hs.codeAt ha).1 hcode, Option.getD_none]
    | some code =>
      obtain ⟨b, hb, hgiven⟩ := (hs.codeAt ha).2 code hcode
      rw [hwritten code hcode, hb, hgiven, Option.getD_some]

/-- The pieces of code come from records that load them. -/
theorem lives_loaded {records : List Record} {story : Story} (h : life ∈ (records.foldl Story.tell story).lives) :
    life.nc ∈ story.lives.map Life.nc ∨ ∃ time junk, Record.load life.nc time junk ∈ records := by
  induction records generalizing story with
  | nil => exact Or.inl (List.mem_map_of_mem h)
  | cons r records ih =>
    rcases ih h with hstory | ⟨time, junk, hload⟩
    · cases r with
      | load nc time junk =>
        rcases List.mem_cons.mp hstory with heq | hstory
        · exact Or.inr ⟨time, junk, by rw [heq]; exact List.mem_cons_self⟩
        · exact Or.inl hstory
      | unload vma time =>
        left
        rw [Story.tell] at hstory
        split_ifs at hstory
        · rwa [closeNewest_ncs] at hstory
        · exact hstory
      | table codeAddr compileMap time junk => exact Or.inl hstory
    · exact Or.inr ⟨time, junk, List.mem_cons_of_mem _ hload⟩

theorem life_called {calls : List (CallEnv × AgentCall)} (h : life ∈ (storyOf (recordsOf calls)).lives) :
    ∃ env, (env, AgentCall.writeNativeCode life.nc) ∈ calls := by
  rcases lives_loaded h with hstart | ⟨time, junk, hload⟩
  · cases hstart
  · obtain ⟨env, call, hcall, heq⟩ := mem_recordsOf hload
    cases call with
    | writeNativeCode nc =>
      cases heq
      exact ⟨env, hcall⟩
    | unloadNativeCode vma => cases heq
    | writeDebugLineInfo codeAddr compileMap =>
      rw [AgentCall.recordAt] at heq
      split_ifs at heq
      cases heq

/-- From the calls of the agent to the ELF file: symbols have names of their own; at every address of code that is
alive when the samples start the reader of the file finds the symbol of such a piece of code, and of the same piece
the byte that the agent gave, or zero; it finds no byte or zero elsewhere, and every byte of a piece that meets no
other one that is alive. -/
theorem opJitConvert_shows {target : AgentTarget} {openEnv closeEnv : CallEnv} {calls : List (CallEnv × AgentCall)}
    {d : DumpFile} {env : ConvertEnv} {fuel : Nat} {resolved : List Opjitconv.JitEntry}
    (h : writeDump openEnv target calls closeEnv = some d) (ht : NotAtEnd endTime calls)
    (hfit : Holdable target calls ∧ SizesFit calls)
    (hplaces : ∀ callEnv nc, (callEnv, AgentCall.writeNativeCode nc) ∈ calls →
      nc.vma ≠ 0 ∧ nc.vma.toNat + nc.size.toNat < 2 ^ 64)
    (hresolved : Opjitconv.resolvedEntries env fuel d.bytes startTime endTime = some resolved)
    (hshort : Opjitconv.ShortSections resolved)
    (hconvert : Opjitconv.opJitConvert env fuel d.bytes startTime endTime = some elf) :
    (elf.symbols.map Asymbol.name).Nodup ∧
      ∀ addr, LifeShown d.bytes startTime endTime (storyOf (recordsOf calls)).lives elf addr := by
  -- what the reader makes of the dump
  obtain ⟨st, hparse, hrc, hentries, -⟩ := roundTrip_of_fit h ht hfit.1 hfit.2
  have hsteps := hresolved
  rw [Opjitconv.resolvedEntries, hparse, Option.bind_eq_bind, Option.bind_some, if_neg (by rw [hrc]; decide)]
    at hsteps
  obtain ⟨entries, hread, hsteps⟩ := Option.bind_eq_some_iff.mp hsteps
  obtain ⟨arrays, harrays, hsteps⟩ := Option.bind_eq_some_iff.mp hsteps
  obtain ⟨left, hleft, hsteps⟩ := Option.bind_eq_some_iff.mp hsteps
  obtain rfl := Option.some.inj hsteps
  have hstored := stored_of_shows hentries hread
  have hloaded : ∀ life ∈ (storyOf (recordsOf calls)).lives,
      life.nc.vma ≠ 0 ∧ life.nc.vma.toNat + life.nc.size.toNat < 2 ^ 64 := by
    intro life hlife
    obtain ⟨callEnv, hcall⟩ := life_called hlife
    exact hplaces callEnv life.nc hcall
  have hsound : ∀ e ∈ entries, e.Sound := by
    intro e he
    obtain ⟨life, hlife, hs⟩ := exists_left hstored he
    obtain ⟨hvma, hwrap⟩ := hloaded life hlife
    refine ⟨by rw [hs.vma]; exact hvma, by rw [hs.size]; exact Int.natCast_nonneg _, ?_⟩
    rw [Opjitconv.JitEntry.hi, hs.vma, hs.size, Int.toNat_natCast]
    exact hwrap
  have hpieces := Opjitconv.resolveOverlaps_resolved hsound harrays hleft
  -- the names, and the passes over what is left
  rw [Opjitconv.opJitConvert, hresolved, Option.bind_eq_bind, Option.bind_some] at hconvert
  obtain ⟨pointers, hpointers, hconvert⟩ := Option.bind_eq_some_iff.mp hconvert
  obtain ⟨hleads, hnodup⟩ := Opjitconv.disambiguatePointers_spec env.pointers hpointers
    ((Opjitconv.leads_zipIdx left.addressAscending).perm (env.pointers.perm _)) (env.pointers.sorted _)
  dsimp only at hconvert
  split_ifs at hconvert with hnone hopens
  have hbuilt := Opjitconv.buildElf_built (hleads.laid hpieces.laid) (hleads.shortSections hshort) hnone hconvert
  refine ⟨?_, fun addr => lifeShown_of_entries hstored (fun life hlife => (hloaded life hlife).1)
    (Opjitconv.convert_shows hpieces hleads hbuilt addr)⟩
  have hnames : elf.symbols.map Asymbol.name = Opjitconv.names (Opjitconv.renamed left.addressAscending pointers) := by
    refine List.ext_getElem? fun k => ?_
    rw [Opjitconv.names, List.getElem?_map, List.getElem?_map]
    cases he : (Opjitconv.renamed left.addressAscending pointers)[k]? with
    | none =>
      have hk := List.getElem?_eq_none_iff.mp he
      rw [List.getElem?_eq_none_iff.mpr (by rw [hbuilt.count]; exact hk)]
      rfl
    | some e =>
      obtain ⟨sym, hsym, hname, -⟩ := hbuilt.symbols k e he
      rw [hsym, Option.map_some, hname, Option.map_some]
  rw [hnames]
  exact hleads.nodup hnodup

/-- `qsort` as an insertion sort, and BFD without failures. -/
def sampleEnv : ConvertEnv where
  sorts := Opjitconv.insertionSorts
  pointers := Sorting.insertion _ (fun a b => List.le_total a.1.symbolName b.1.symbolName) fun _ _ _ => List.le_trans
  debug := false
  opens := true
  bfd := ⟨fun _ => false, fun _ => false, false, fun _ => false⟩

theorem noNul_f : (0 : UInt8) ∉ [102] := by decide

theorem sixtyFour_ne_zero : (64 : UInt64) ≠ 0 := by decide

/-- Two pieces of code with the same name, the second one at the end of the first. -/
def twinCalls : List (CallEnv × AgentCall) :=
  [(.fine 2, .writeNativeCode ⟨⟨[102], noNul_f⟩, 4096, some ⟨64, sixtyFour_ne_zero, fun _ => 144⟩, 16⟩),
    (.fine 3, .writeNativeCode ⟨⟨[102], noNul_f⟩, 4104, some ⟨64, sixtyFour_ne_zero, fun _ => 195⟩, 16⟩)]

theorem mem_twinCalls {env : CallEnv} {call : AgentCall} (h : (env, call) ∈ twinCalls) :
    ∃ nc, call = .writeNativeCode nc ∧ nc.Whole env ∧ nc.recSize ≤ 64 ∧ nc.size = 16 ∧ nc.vma ≠ 0 ∧
      nc.vma.toNat ≤ 4104 := by
  simp only [twinCalls, List.mem_cons, Prod.mk.injEq, List.not_mem_nil, or_false] at h
  rcases h with ⟨rfl, rfl⟩ | ⟨rfl, rfl⟩
  · exact ⟨_, rfl, ⟨fun k hk => (by cases hk), fun k hk => (by cases hk)⟩, by decide, rfl, by decide, by decide⟩
  · exact ⟨_, rfl, ⟨fun k hk => (by cases hk), fun k hk => (by cases hk)⟩, by decide, rfl, by decide, by decide⟩

def twinEntries : List Opjitconv.JitEntry :=
  [⟨4096, some 82, 16, [102, 37, 49, 48, 48], 2, 6⟩, ⟨4112, none, 8, [102, 35, 49], 3, 6⟩]

/-- The first piece stays, and the second one keeps its end, without code. -/
theorem opJitConvert_shows_twins : ∃ d elf, writeDump (.fine 1) targetX86 twinCalls (.fine 5) = some d ∧
    Opjitconv.opJitConvert sampleEnv 3 d.bytes 0 6 = some elf ∧ (elf.symbols.map Asymbol.name).Nodup ∧
    ∀ addr, LifeShown d.bytes 0 6 (storyOf (recordsOf twinCalls)).lives elf addr := by
  obtain ⟨d, hd⟩ : ∃ d, writeDump (.fine 1) targetX86 twinCalls (.fine 5) = some d :=
    Option.isSome_iff_exists.mp (by decide)
  have hresolves : (writeDump (.fine 1) targetX86 twinCalls (.fine 5)).bind (fun d =>
      Opjitconv.resolvedEntries sampleEnv 3 d.bytes 0 6) = some twinEntries := by
    decide +kernel
  have hconverts : ((writeDump (.fine 1) targetX86 twinCalls (.fine 5)).bind fun d =>
      Opjitconv.opJitConvert sampleEnv 3 d.bytes 0 6).isSome := by
    decide +kernel
  rw [hd, Option.bind_some] at hresolves hconverts
  obtain ⟨elf, helf⟩ := Option.isSome_iff_exists.mp hconverts
  have ht : NotAtEnd 6 twinCalls := by
    intro env vma hmem
    obtain ⟨nc, hcall, -⟩ := mem_twinCalls hmem
    cases hcall
  have hheld : Holdable targetX86 twinCalls := by
    refine ⟨by decide, fun env nc hmem => ?_, fun env codeAddr compileMap hmem => ?_⟩
    · obtain ⟨nc', hcall, hwhole, hsize, -⟩ := mem_twinCalls hmem
      cases hcall
      refine ⟨hwhole, ?_⟩
      unfold aligned
      omega
    · obtain ⟨nc', hcall, -⟩ := mem_twinCalls hmem
      cases hcall
  have hfit : SizesFit twinCalls := by
    intro env nc hmem
    obtain ⟨nc', hcall, -, hrec, hsize, -⟩ := mem_twinCalls hmem
    cases hcall
    refine ⟨by rw [hsize]; decide, fun _ => ?_⟩
    unfold aligned
    omega
  have hplaces : ∀ env nc, (env, AgentCall.writeNativeCode nc) ∈ twinCalls →
      nc.vma ≠ 0 ∧ nc.vma.toNat + nc.size.toNat < 2 ^ 64 := by
    intro env nc hmem
    obtain ⟨nc', hcall, -, -, hsize, hvma, hlow⟩ := mem_twinCalls hmem
    cases hcall
    rw [hsize]
    exact ⟨hvma, Nat.lt_of_le_of_lt (Nat.add_le_add_right hlow _) (by decide)⟩
  have hshort : Opjitconv.ShortSections twinEntries := by
    intro i j e ee _ _ hj _
    have hhi : ∀ e ∈ twinEntries, e.hi < 2 ^ 31 := by decide
    have hlt := hhi ee (List.mem_of_getElem? hj)
    omega
  obtain ⟨hnodup, hshown⟩ := opJitConvert_shows hd ht ⟨hheld, hfit⟩ hplaces hresolves hshort helf
  exact ⟨d, elf, hd, helf, hnodup, hshown⟩

end Oprofile.JitDump
