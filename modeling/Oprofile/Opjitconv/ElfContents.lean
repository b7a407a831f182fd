import Oprofile.Opjitconv.ElfSections

/-! The symbols and the contents of the ELF image go to the sections that the entries were placed in. -/
namespace Oprofile.Opjitconv

/-- The symbol of an entry. -/
def symbolFor (entries : List JitEntry) (sections : List Asection) (k : Nat) : Option Asymbol := do
  let e ← entries[k]?
  let sec ← sections[sectionOf entries k]?
  some ⟨e.symbolName, sectionOf entries k, e.vma - sec.vma⟩

/-- What is written of an entry: its code, if it has any. -/
def contentFor (entries : List JitEntry) (sections : List Asection) (k : Nat) : List SectionContents :=
  match entries[k]?, sections[sectionOf entries k]? with
  | some e, some sec =>
    (e.code.map fun code =>
      ⟨sectionOf entries k, code, (e.vma - sec.vma).toInt64, e.codeSize.toInt64.toUInt64⟩).toList
  | _, _ => []

section

variable {entries : List JitEntry} {e : JitEntry} {sec : Asection} {i j k : Nat} {p : Partition} {env : BfdEnv}

theorem symbolFor_eq {sections : List Asection} (he : entries[k]? = some e)
    (hsec : sections[sectionOf entries k]? = some sec) :
    symbolFor entries sections k = some ⟨e.symbolName, sectionOf entries k, e.vma - sec.vma⟩ := by
  simp only [symbolFor, he, hsec, Option.bind_eq_bind, Option.bind_some]

/-! `fill_symtab`. -/

/-- The section is that of the entry before, and the symbols so far are those of the entries. -/
structure Symtab (entries : List JitEntry) (p : Partition) (k : Nat) (st : Nat × List Asymbol) : Prop where
  asection : st.1 = sectionOf entries (k - 1)
  symbols : st.2.map some = (List.range k).map (symbolFor entries p.sections)

theorem mark_getD (hp : Placed entries entries.length p) (hk : k < entries.length) :
    ∃ mark, p.marks[k]? = some mark ∧ mark.getD (sectionOf entries (k - 1)) = sectionOf entries k := by
  refine ⟨_, hp.mark k hk, ?_⟩
  by_cases hstart : SectionStarts entries k
  · rw [if_pos ⟨hk, hstart⟩]
    rfl
  · rw [if_neg (fun h => hstart h.2)]
    cases k with
    | zero => exact absurd (Or.inl rfl) hstart
    | succ k =>
      have hgap : ¬gapBefore entries (k + 1) = true := fun h => hstart (Or.inr h)
      rw [sectionOf, if_neg hgap]
      rfl

theorem symtabStep_spec (hp : Placed entries entries.length p) (hk : k < entries.length)
    {st : Nat × List Asymbol} (h : Symtab entries p k st) :
    (∀ st', symtabStep env entries p st k = some st' → Symtab entries p (k + 1) st') ∧
      ((∀ i, env.symbolFails i = false) → ∃ st', symtabStep env entries p st k = some st') := by
  obtain ⟨e, he⟩ : ∃ e, entries[k]? = some e := ⟨_, List.getElem?_eq_getElem hk⟩
  obtain ⟨mark, hmark, hget⟩ := mark_getD hp hk
  obtain ⟨sec, hsec, -⟩ := hp.holds k e hk he
  have hround : symtabStep env entries p st k = if env.symbolFails k then none
      else some (sectionOf entries k, st.2 ++ [⟨e.symbolName, sectionOf entries k, e.vma - sec.vma⟩]) := by
    simp only [symtabStep, he, hmark, h.asection, hget, hsec, Option.bind_eq_bind, Option.bind_some]
  rw [hround]
  constructor
  · intro st' hst'
    split_ifs at hst' with hfails
    obtain rfl := Option.some.inj hst'
    refine ⟨rfl, ?_⟩
    rw [List.map_append, h.symbols, List.range_succ, List.map_append, List.map_singleton, List.map_singleton,
      symbolFor_eq he hsec]
  · intro hworks
    rw [hworks]
    exact ⟨_, rfl⟩

theorem fillSymtab_spec (hne : 0 < entries.length) (hcount : entries.length ≤ intMax)
    (hp : Placed entries entries.length p) :
    (∀ syms, fillSymtab env entries p = some syms →
        syms.map some = (List.range entries.length).map (symbolFor entries p.sections)) ∧
      ((∀ i, env.symbolFails i = false) → env.symtabFails = false → ∃ syms, fillSymtab env entries p = some syms) := by
  have hsmall : ¬2 ^ 32 - 2 < entries.length := by
    unfold intMax at hcount
    omega
  have hfirst : p.marks[0]? = some (some 0) := by
    rw [hp.mark 0 hne, if_pos ⟨hne, Or.inl rfl⟩]
    rfl
  have hstart : Symtab entries p 0 (0, []) := ⟨rfl, rfl⟩
  have hstep : ∀ k st st', 0 ≤ k → k < 0 + entries.length → Symtab entries p k st →
      symtabStep env entries p st k = some st' → Symtab entries p (k + 1) st' := by
    intro k st st' _ hk h
    exact (symtabStep_spec hp (by omega) h).1 st'
  have hbody : fillSymtab env entries p =
      ((List.range' 0 entries.length).foldlM (symtabStep env entries p) (0, [])).bind fun st =>
        if env.symtabFails then none else some st.2 := by
    rw [fillSymtab, if_neg hsmall, hfirst, List.range_eq_range']
    rfl
  rw [hbody]
  constructor
  · intro syms hsyms
    obtain ⟨st, hrun, hsyms⟩ := Option.bind_eq_some_iff.mp hsyms
    have hinv := Loops.invariant _ hstart hstep hrun
    rw [Nat.zero_add] at hinv
    split_ifs at hsyms
    obtain rfl := Option.some.inj hsyms
    exact hinv.symbols
  · intro hworks hsymtab
    obtain ⟨st, hrun⟩ := Loops.total _ hstart hstep fun k st _ hk h =>
      (symtabStep_spec hp (by omega) h).2 hworks
    refine ⟨st.2, ?_⟩
    rw [hrun, Option.bind_some, hsymtab]
    rfl

/-! `fill_sections`. -/

/-- What is written of the entries before `n`. -/
def contentsBefore (entries : List JitEntry) (sections : List Asection) (n : Nat) : List SectionContents :=
  (List.range n).flatMap (contentFor entries sections)

theorem contentsBefore_succ (sections : List Asection) (n : Nat) :
    contentsBefore entries sections (n + 1) = contentsBefore entries sections n ++ contentFor entries sections n := by
  rw [contentsBefore, List.range_succ, List.flatMap_append, List.flatMap_singleton]
  rfl

theorem contentFor_eq {sections : List Asection} (he : entries[k]? = some e)
    (hsec : sections[sectionOf entries k]? = some sec) : contentFor entries sections k =
      (e.code.map fun code =>
        ⟨sectionOf entries k, code, (e.vma - sec.vma).toInt64, e.codeSize.toInt64.toUInt64⟩).toList := by
  simp only [contentFor, he, hsec]

/-- An entry of the section that starts at `i`. -/
theorem contentStep_spec {start : JitEntry} (hp : Placed entries entries.length p) (hi : entries[i]? = some start)
    (hstarts : SectionStarts entries i) (hik : i ≤ k) (hk : k < entries.length)
    (hopen : ∀ m, i < m → m ≤ k → gapBefore entries m = false) :
    (∀ contents, contentStep env entries (sectionOf entries i) start.vma (contentsBefore entries p.sections k) k =
        some contents → contents = contentsBefore entries p.sections (k + 1)) ∧
      ((∀ i, env.contentsFails i = false) → ∃ contents,
        contentStep env entries (sectionOf entries i) start.vma (contentsBefore entries p.sections k) k =
          some contents) := by
  obtain ⟨e, he⟩ : ∃ e, entries[k]? = some e := ⟨_, List.getElem?_eq_getElem hk⟩
  obtain ⟨sec, hsec, -, hvma⟩ := hp.holds i start (by omega) hi
  have hsame : sectionOf entries k = sectionOf entries i := sectionOf_eq hik hopen
  rw [← hsame] at hsec ⊢
  rw [contentsBefore_succ, contentFor_eq he hsec, ← hvma hstarts, contentStep, he, Option.bind_eq_bind, Option.bind_some]
  cases e.code with
  | none =>
    constructor
    · intro contents hcontents
      rw [← Option.some.inj hcontents]
      exact (List.append_nil _).symm
    · exact fun _ => ⟨_, rfl⟩
  | some code =>
    constructor
    · intro contents hcontents
      dsimp only at hcontents
      split_ifs at hcontents
      exact (Option.some.inj hcontents).symm
    · intro hworks
      dsimp only
      rw [hworks]
      exact ⟨_, rfl⟩

theorem fillTextSectionContent_spec (env : BfdEnv) {last : Nat} (hp : Placed entries entries.length p)
    (hle : i ≤ last) (hlast : last < entries.length) (hstarts : SectionStarts entries i)
    (hopen : ∀ m, i < m → m ≤ last → gapBefore entries m = false) :
    (∀ contents, fillTextSectionContent env entries (sectionOf entries i) i last
        (contentsBefore entries p.sections i) = some contents →
        contents = contentsBefore entries p.sections (last + 1)) ∧
      ((∀ i, env.contentsFails i = false) → ∃ contents, fillTextSectionContent env entries (sectionOf entries i) i
        last (contentsBefore entries p.sections i) = some contents) := by
  obtain ⟨start, hi⟩ : ∃ e, entries[i]? = some e :=
    ⟨_, List.getElem?_eq_getElem (show i < entries.length by omega)⟩
  have hround : ∀ k, i ≤ k → k < i + (last + 1 - i) → k < entries.length ∧
      ∀ m, i < m → m ≤ k → gapBefore entries m = false := by
    intro k _ hk
    exact ⟨by omega, fun m hm hm' => hopen m hm (by omega)⟩
  have hstep : ∀ k contents contents', i ≤ k → k < i + (last + 1 - i) →
      contents = contentsBefore entries p.sections k →
      contentStep env entries (sectionOf entries i) start.vma contents k = some contents' →
      contents' = contentsBefore entries p.sections (k + 1) := by
    rintro k contents contents' hik hk rfl
    obtain ⟨hlt, hjoined⟩ := hround k hik hk
    exact (contentStep_spec hp hi hstarts hik hlt hjoined).1 contents'
  rw [fillTextSectionContent, hi, Option.bind_eq_bind, Option.bind_some]
  constructor
  · intro contents hrun
    have hinv := Loops.invariant (I := fun k contents => contents = contentsBefore entries p.sections k) _ rfl
      hstep hrun
    rwa [show i + (last + 1 - i) = last + 1 by omega] at hinv
  · intro hworks
    refine Loops.total (I := fun k contents => contents = contentsBefore entries p.sections k) _ rfl hstep ?_
    rintro k contents hik hk rfl
    obtain ⟨hlt, hjoined⟩ := hround k hik hk
    exact (contentStep_spec hp hi hstarts hik hlt hjoined).2 hworks

/-- Where the loop of `fill_sections` stands. -/
structure Filling (entries : List JitEntry) (p : Partition) (j : Nat) (st : Nat × List SectionContents) : Prop where
  lt : st.1 < j
  starts : SectionStarts entries st.1
  joined : ∀ k, st.1 < k → k < j → gapBefore entries k = false
  contents : st.2 = contentsBefore entries p.sections st.1

theorem mark_of_starts (hp : Placed entries entries.length p) (hi : i < entries.length)
    (hstarts : SectionStarts entries i) : (p.marks[i]?).join = some (sectionOf entries i) := by
  rw [hp.mark i hi, if_pos ⟨hi, hstarts⟩]
  rfl

theorem fillStep_eq (hp : Placed entries entries.length p) (hpos : 0 < j) (hj : j < entries.length)
    {st : Nat × List SectionContents} (h : Filling entries p j st) :
    fillStep env entries p st j = if gapBefore entries j then
      (fillTextSectionContent env entries (sectionOf entries st.1) st.1 (j - 1)
        (contentsBefore entries p.sections st.1)).map fun contents => (j, contents)
      else some st := by
  have hlt := h.lt
  have hmark := hp.mark j hj
  by_cases hgap : gapBefore entries j = true
  · rw [if_pos ⟨hj, Or.inr hgap⟩] at hmark
    rw [if_pos hgap, fillStep, hmark, Option.bind_eq_bind, Option.bind_some, mark_of_starts hp (by omega) h.starts,
      h.contents]
    rfl
  · have hno : ¬(j < entries.length ∧ SectionStarts entries j) := by
      rintro ⟨-, hzero | hgap'⟩
      · omega
      · exact hgap hgap'
    rw [if_neg hno] at hmark
    rw [if_neg hgap, fillStep, hmark]
    rfl

theorem fillStep_spec (hp : Placed entries entries.length p) (hpos : 0 < j) (hj : j < entries.length)
    {st : Nat × List SectionContents} (h : Filling entries p j st) :
    (∀ st', fillStep env entries p st j = some st' → Filling entries p (j + 1) st') ∧
      ((∀ i, env.contentsFails i = false) → ∃ st', fillStep env entries p st j = some st') := by
  have hlt := h.lt
  rw [fillStep_eq hp hpos hj h]
  by_cases hgap : gapBefore entries j = true
  · rw [if_pos hgap]
    obtain ⟨hspec, htotal⟩ := fillTextSectionContent_spec env hp (show st.1 ≤ j - 1 by omega) (by omega)
      h.starts fun k hk hk' => h.joined k hk (by omega)
    rw [Nat.sub_add_cancel hpos] at hspec
    constructor
    · intro st' hst'
      obtain ⟨contents, hcontents, rfl⟩ := Option.map_eq_some_iff.mp hst'
      exact ⟨Nat.lt_succ_self j, Or.inr hgap, fun k hk hk' => absurd hk' (by omega), hspec contents hcontents⟩
    · intro hworks
      obtain ⟨contents, hcontents⟩ := htotal hworks
      rw [hcontents]
      exact ⟨_, rfl⟩
  · rw [if_neg hgap]
    constructor
    · intro st' hst'
      obtain rfl := Option.some.inj hst'
      refine ⟨by omega, h.starts, fun k hk hk' => ?_, h.contents⟩
      rcases Nat.lt_succ_iff_lt_or_eq.mp hk' with hk' | rfl
      · exact h.joined k hk hk'
      · exact Bool.eq_false_iff.mpr hgap
    · exact fun _ => ⟨st, rfl⟩

theorem fillContents_spec (hne : 0 < entries.length) (hp : Placed entries entries.length p) :
    (∀ contents, fillContents env entries p = some contents →
        contents = contentsBefore entries p.sections entries.length) ∧
      ((∀ i, env.contentsFails i = false) → ∃ contents, fillContents env entries p = some contents) := by
  have hstart : Filling entries p 1 (0, []) :=
    ⟨Nat.one_pos, Or.inl rfl, fun k hk hk' => absurd hk' (by omega), rfl⟩
  have hstep : ∀ j st st', 1 ≤ j → j < 1 + (entries.length - 1) → Filling entries p j st →
      fillStep env entries p st j = some st' → Filling entries p (j + 1) st' := by
    intro j st st' hpos hj h
    exact (fillStep_spec hp hpos (by omega) h).1 st'
  have hlast : ∀ st, Filling entries p (1 + (entries.length - 1)) st →
      (if st.1 < entries.length then do
        let asection ← (p.marks[st.1]?).join
        fillTextSectionContent env entries asection st.1 (entries.length - 1) st.2
      else some st.2) = fillTextSectionContent env entries (sectionOf entries st.1) st.1 (entries.length - 1)
        (contentsBefore entries p.sections st.1) := by
    intro st h
    have hlt := h.lt
    rw [if_pos (by omega), mark_of_starts hp (by omega) h.starts, h.contents]
    rfl
  have hspec : ∀ st, Filling entries p (1 + (entries.length - 1)) st → _ := fun st h =>
    fillTextSectionContent_spec env hp (show st.1 ≤ entries.length - 1 by have hlt := h.lt; omega)
      (show entries.length - 1 < entries.length by omega) h.starts
      (fun k hk hk' => h.joined k hk (by omega))
  rw [fillContents]
  constructor
  · intro contents hcontents
    obtain ⟨st, hrun, hcontents⟩ := Option.bind_eq_some_iff.mp hcontents
    have hinv := Loops.invariant _ hstart hstep hrun
    have hend := (hspec st hinv).1 contents ((hlast st hinv).symm.trans hcontents)
    rwa [Nat.sub_add_cancel hne] at hend
  · intro hworks
    obtain ⟨st, hrun⟩ := Loops.total _ hstart hstep fun j st hpos hj h =>
      (fillStep_spec hp hpos (by omega) h).2 hworks
    have hinv := Loops.invariant _ hstart hstep hrun
    obtain ⟨contents, hcontents⟩ := (hspec st hinv).2 hworks
    refine ⟨contents, ?_⟩
    rw [Option.bind_eq_bind, hrun, Option.bind_some]
    exact (hlast st hinv).trans hcontents

end

/-- The section is where all passes put the entry, and no other section contains it. -/
structure InSection (elf : ElfImage) (k : Nat) (e : JitEntry) (writes : List SectionContents) (s : Nat)
    (sec : Asection) : Prop where
  found : elf.sections[s]? = some sec
  holds : sec.Holds e
  alone : ∀ s' sec', elf.sections[s']? = some sec' → sec'.Holds e → s' = s
  symbol : ∃ sym, elf.symbols[k]? = some sym ∧ sym.name = e.symbolName ∧ sym.asection = s ∧
    sym.value.toNat + sec.lo = e.lo
  noCode : e.code = none → writes = []
  code : ∀ code, e.code = some code → ∃ w, writes = [w] ∧ w.asection = s ∧ w.code = code ∧
    w.offset.toInt = e.lo - sec.lo ∧ w.size.toNat = e.hi - e.lo

/-- Sections are far apart, every entry has one, and nothing else is written. -/
structure PassesAgree (entries : List JitEntry) (elf : ElfImage) : Prop where
  apart : FarApart elf.sections
  symbols : elf.symbols.length = entries.length
  placed : ∃ writes : Nat → List SectionContents,
    elf.contents = (List.range entries.length).flatMap writes ∧
      ∀ k e, entries[k]? = some e → ∃ s sec, InSection elf k e (writes k) s sec

/-- No call of BFD fails. -/
structure BfdEnv.Works (env : BfdEnv) : Prop where
  sections : ∀ i, env.sectionFails i = false
  symbols : ∀ i, env.symbolFails i = false
  symtab : env.symtabFails = false
  contents : ∀ i, env.contentsFails i = false

section

variable {entries : List JitEntry} {e : JitEntry} {sec : Asection} {k : Nat} {p : Partition} {elf : ElfImage}

/-- Sections that are far apart do not contain the same entry. -/
theorem FarApart.alone {sections : List Asection} {s s' : Nat} {sec' : Asection} (h : FarApart sections)
    (hs : sections[s]? = some sec) (hs' : sections[s']? = some sec') (hholds : sec.Holds e) (hholds' : sec'.Holds e) :
    s' = s := by
  obtain ⟨hlt, rfl⟩ := List.getElem?_eq_some_iff.mp hs
  obtain ⟨hlt', rfl⟩ := List.getElem?_eq_some_iff.mp hs'
  obtain ⟨hlo, hhi⟩ := hholds
  obtain ⟨hlo', hhi'⟩ := hholds'
  have he := lo_le_hi e
  rcases Nat.lt_trichotomy s' s with hlt₁ | heq | hgt
  · have hfar := List.pairwise_iff_getElem.mp h s' s hlt' hlt hlt₁
    omega
  · exact heq
  · have hfar := List.pairwise_iff_getElem.mp h s s' hlt hlt' hgt
    omega

theorem toInt64_of_lt {x : UInt64} (h : x.toNat < 2 ^ 63) : x.toInt64.toInt = x.toNat := by
  change x.toBitVec.toInt = _
  rw [BitVec.toInt_eq_toNat_of_lt]
  · rfl
  · change 2 * x.toNat < _
    omega

theorem symbols_getElem (hsyms : elf.symbols.map some = (List.range entries.length).map (symbolFor entries elf.sections))
    (hk : k < entries.length) (he : entries[k]? = some e) (hsec : elf.sections[sectionOf entries k]? = some sec) :
    elf.symbols[k]? = some ⟨e.symbolName, sectionOf entries k, e.vma - sec.vma⟩ := by
  have hget := congrArg (fun l : List (Option Asymbol) => l[k]?) hsyms
  rw [List.getElem?_map, List.getElem?_map, List.getElem?_range hk, Option.map_some, symbolFor_eq he hsec] at hget
  obtain ⟨sym, hsym, heq⟩ := Option.map_eq_some_iff.mp hget
  rw [hsym, heq]

/-- The entry lies in its section by all passes. -/
theorem inSection_of_placed (hlaid : Laid entries) (hp : Placed entries entries.length p)
    (hsections : elf.sections = p.sections)
    (hsyms : elf.symbols.map some = (List.range entries.length).map (symbolFor entries p.sections))
    (he : entries[k]? = some e) :
    ∃ s sec, InSection elf k e (contentFor entries p.sections k) s sec := by
  have hk : k < entries.length := (List.getElem?_eq_some_iff.mp he).1
  obtain ⟨sec, hsec, hholds, -⟩ := hp.holds k e hk he
  have hshort := hp.short sec (List.mem_of_getElem? hsec)
  have hsize := hlaid.size e (List.mem_of_getElem? he)
  have hhi := hi_cast hsize
  have hcast := codeSize_toNat e.codeSize
  have hmax := Int32.toInt_lt e.codeSize
  obtain ⟨hlo, hend⟩ := hholds
  have he' := lo_le_hi e
  unfold Asection.hi at hend
  unfold Asection.lo at hlo
  unfold JitEntry.lo at hlo he'
  have hoffset : (e.vma - sec.vma).toNat = e.vma.toNat - sec.vma.toNat :=
    UInt64.toNat_sub_of_le _ _ (UInt64.le_iff_toNat_le.mpr hlo)
  have hcontent := contentFor_eq he hsec
  refine ⟨sectionOf entries k, sec, ?_⟩
  rw [← hsections] at hsec hsyms
  refine ⟨hsec, ⟨hlo, hend⟩, ?_, ?_, ?_, ?_⟩
  · intro s' sec' hs' hholds'
    rw [hsections] at hsec hs'
    exact hp.apart.alone hsec hs' ⟨hlo, hend⟩ hholds'
  · refine ⟨_, symbols_getElem hsyms hk he hsec, rfl, rfl, ?_⟩
    change (e.vma - sec.vma).toNat + sec.vma.toNat = e.vma.toNat
    omega
  · intro hcode
    rw [hcontent, hcode]
    rfl
  · intro code hcode
    rw [hcontent, hcode]
    refine ⟨_, rfl, rfl, rfl, ?_, ?_⟩
    · change (e.vma - sec.vma).toInt64.toInt = (e.vma.toNat : Int) - sec.vma.toNat
      rw [toInt64_of_lt (by omega)]
      omega
    · change e.codeSize.toInt64.toUInt64.toNat = e.hi - e.vma.toNat
      omega

/-- `partition_sections`, `fill_symtab` and `fill_sections` agree on the section of every entry, and they come to
their end when BFD does what they ask for. -/
theorem buildElf_agrees (env : BfdEnv) (entries : List JitEntry) (hne : entries ≠ [])
    (hcount : entries.length ≤ intMax) (hlaid : Laid entries) (hshort : ShortSections entries) :
    (∀ elf, buildElf env entries = some elf → PassesAgree entries elf) ∧
      (env.Works → ∃ elf, buildElf env entries = some elf) := by
  have hpos : 0 < entries.length := List.length_pos_iff.mpr hne
  obtain ⟨hpartition, hpartitions⟩ := partitionSections_spec env hpos hcount hlaid hshort
  rw [buildElf]
  constructor
  · intro elf helf
    obtain ⟨p, hp, helf⟩ := Option.bind_eq_some_iff.mp helf
    obtain ⟨syms, hsyms, helf⟩ := Option.bind_eq_some_iff.mp helf
    obtain ⟨contents, hcontents, helf⟩ := Option.bind_eq_some_iff.mp helf
    have hplaced := hpartition p hp
    have hsymbols := (fillSymtab_spec hpos hcount hplaced).1 syms hsyms
    obtain rfl := (fillContents_spec hpos hplaced).1 contents hcontents
    obtain rfl := Option.some.inj helf
    refine ⟨hplaced.apart, ?_, contentFor entries p.sections, rfl, ?_⟩
    · have hlength := congrArg List.length hsymbols
      rwa [List.length_map, List.length_map, List.length_range] at hlength
    · intro k e he
      exact inSection_of_placed hlaid hplaced rfl hsymbols he
  · intro hworks
    obtain ⟨p, hp⟩ := hpartitions hworks.sections
    have hplaced := hpartition p hp
    obtain ⟨syms, hsyms⟩ := (fillSymtab_spec hpos hcount hplaced).2 hworks.symbols hworks.symtab
    obtain ⟨contents, hcontents⟩ := (fillContents_spec hpos hplaced).2 hworks.contents
    refine ⟨⟨p.sections, syms, contents⟩, ?_⟩
    rw [Option.bind_eq_bind, hp, Option.bind_some, hsyms, Option.bind_eq_bind, Option.bind_some, hcontents]
    rfl

end

/-- Two methods close to each other, one of them without code, and a third one on another page. -/
def sampleMethods : List JitEntry :=
  [⟨4096, some 7, 16, [0x66], 0, 5⟩, ⟨4112, none, 4, [0x67], 0, 5⟩, ⟨16384, some 9, 8, [0x68], 0, 5⟩]

theorem buildElf_agrees_methods :
    ∃ elf, buildElf ⟨fun _ => false, fun _ => false, false, fun _ => false⟩ sampleMethods = some elf ∧
      PassesAgree sampleMethods elf := by
  have hshort : ShortSections sampleMethods := by
    intro i j e ee _ _ hj _
    have hhi : ∀ e ∈ sampleMethods, e.hi < 2 ^ 31 := by decide
    have hlt := hhi ee (List.mem_of_getElem? hj)
    omega
  obtain ⟨hagrees, hbuilds⟩ := buildElf_agrees ⟨fun _ => false, fun _ => false, false, fun _ => false⟩ sampleMethods
    (by decide) (by decide) ⟨by decide, by decide⟩ hshort
  obtain ⟨elf, helf⟩ := hbuilds ⟨fun _ => rfl, fun _ => rfl, rfl, fun _ => rfl⟩
  exact ⟨elf, helf, hagrees elf helf⟩

end Oprofile.Opjitconv
