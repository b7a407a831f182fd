import Oprofile.Opjitconv.JitSymbol

/-! The ELF image of the JIT code (`create_bfd.c`). A pointer to a section is its number in the file, and the
`section` fields of the entries are kept apart from them. -/
namespace Oprofile.Opjitconv

structure Asection where
  vma : UInt64
  size : UInt64
  deriving DecidableEq

structure Asymbol where
  name : List UInt8
  asection : Nat
  value : UInt64
  deriving DecidableEq

/-- A call of `bfd_set_section_contents`. -/
structure SectionContents where
  asection : Nat
  code : Nat
  offset : Int64
  size : UInt64
  deriving DecidableEq

/-- Which calls of BFD fail. -/
structure BfdEnv where
  sectionFails : Nat → Bool
  symbolFails : Nat → Bool
  symtabFails : Bool
  contentsFails : Nat → Bool

/-- The sections of the file, and the `section` field of each entry. -/
structure Partition where
  sections : List Asection
  marks : List (Option Nat)

/-- `create_text_section`; nothing for `OP_JIT_CONV_FAIL`. -/
def createTextSection (env : BfdEnv) (entries : List JitEntry) (startIdx endIdx : Nat) (p : Partition) :
    Option Partition := do
  let e ← entries[startIdx]?
  let ee ← entries[endIdx]?
  let size : Int32 := (ee.endAddr - e.vma).toUInt32.toInt32
  if env.sectionFails p.sections.length then none
  else
    some
      { sections := p.sections ++ [⟨e.vma, size.toInt64.toUInt64⟩]
        marks := p.marks.set startIdx (some p.sections.length) }

/-- A round of the loop of `partition_sections`: the start of the section and what there is so far. -/
def partitionStep (env : BfdEnv) (entries : List JitEntry) (st : Nat × Partition) (j : Nat) :
    Option (Nat × Partition) := do
  let entry ← entries[j]?
  let pred ← entries[j - 1]?
  if 4096 ≤ entry.vma - pred.endAddr then
    (createTextSection env entries st.1 (j - 1) st.2).map fun p => (j, p)
  else some st

/-- `partition_sections`; an `int` must be able to hold the indices. -/
def partitionSections (env : BfdEnv) (entries : List JitEntry) : Option Partition :=
  if intMax < entries.length then none
  else do
    let (i, p) ← (List.range' 1 (entries.length - 1)).foldlM (partitionStep env entries)
      (0, ⟨[], List.replicate entries.length none⟩)
    if i < entries.length then createTextSection env entries i (entries.length - 1) p else some p

/-- A round of the loop of `fill_symtab`: the section and the symbols so far. -/
def symtabStep (env : BfdEnv) (entries : List JitEntry) (p : Partition) (st : Nat × List Asymbol) (i : Nat) :
    Option (Nat × List Asymbol) := do
  let e ← entries[i]?
  let mark ← p.marks[i]?
  let asection := mark.getD st.1
  let sec ← p.sections[asection]?
  if env.symbolFails i then none
  else some (asection, st.2 ++ [⟨e.symbolName, asection, e.vma - sec.vma⟩])

/-- `fill_symtab`; nothing for `OP_JIT_CONV_FAIL` or if the assertion fails. -/
def fillSymtab (env : BfdEnv) (entries : List JitEntry) (p : Partition) : Option (List Asymbol) :=
  if 2 ^ 32 - 2 < entries.length then none
  else do
    let mark ← p.marks[0]?
    let asection ← mark
    let (_, syms) ← (List.range entries.length).foldlM (symtabStep env entries p) (asection, [])
    if env.symtabFails then none else some syms

/-- A round of the loop of `fill_text_section_content`. -/
def contentStep (env : BfdEnv) (entries : List JitEntry) (asection : Nat) (vmaStart : UInt64)
    (contents : List SectionContents) (i : Nat) : Option (List SectionContents) := do
  let e ← entries[i]?
  match e.code with
  | none => some contents
  | some code =>
    if env.contentsFails contents.length then none
    else some (contents ++ [⟨asection, code, (e.vma - vmaStart).toInt64, e.codeSize.toInt64.toUInt64⟩])

/-- `fill_text_section_content`. -/
def fillTextSectionContent (env : BfdEnv) (entries : List JitEntry) (asection startIdx endIdx : Nat)
    (contents : List SectionContents) : Option (List SectionContents) := do
  let e ← entries[startIdx]?
  (List.range' startIdx (endIdx + 1 - startIdx)).foldlM (contentStep env entries asection e.vma) contents

/-- A round of the loop of `fill_sections`: the start of the section and what is written so far. -/
def fillStep (env : BfdEnv) (entries : List JitEntry) (p : Partition) (st : Nat × List SectionContents) (j : Nat) :
    Option (Nat × List SectionContents) := do
  let mark ← p.marks[j]?
  if mark.isSome then
    let asection ← (p.marks[st.1]?).join
    (fillTextSectionContent env entries asection st.1 (j - 1) st.2).map fun contents => (j, contents)
  else some st

/-- `fill_sections` behind `fill_symtab`. -/
def fillContents (env : BfdEnv) (entries : List JitEntry) (p : Partition) : Option (List SectionContents) := do
  let (i, contents) ← (List.range' 1 (entries.length - 1)).foldlM (fillStep env entries p) (0, [])
  if i < entries.length then
    let asection ← (p.marks[i]?).join
    fillTextSectionContent env entries asection i (entries.length - 1) contents
  else some contents

structure ElfImage where
  sections : List Asection
  symbols : List Asymbol
  contents : List SectionContents

/-- `partition_sections` and `fill_sections`. -/
def buildElf (env : BfdEnv) (entries : List JitEntry) : Option ElfImage := do
  let p ← partitionSections env entries
  let symbols ← fillSymtab env entries p
  let contents ← fillContents env entries p
  some ⟨p.sections, symbols, contents⟩

end Oprofile.Opjitconv
