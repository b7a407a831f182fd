import Oprofile.Libutilpp.OpBfd
import Mathlib.Data.List.Sort

/-! How an `op_bfd` gets its symbols (`op_bfd.cpp`, `bfd_support.cpp`). -/
namespace Oprofile.Libutilpp

open SampleNames

/-- An `asection`; `code` is its flag `SEC_CODE`. -/
structure Section where
  name : Text
  code : Bool
  filepos : UInt64
  vma : UInt64
  size : UInt64
  deriving DecidableEq

/-- An `asymbol` with the flags that are looked at. BFD gives every symbol a section; no name is an empty
one. -/
structure ASymbol where
  name : Text
  value : UInt64
  symSection : SectionRef
  isWeak : Bool
  isLocal : Bool
  isGlobal : Bool
  sectionSym : Bool
  deriving DecidableEq

/-- Where the section objects are, which change their file positions. -/
abbrev Sections := SectionRef → Section

/-- A binary that could be opened, and its separate debug file. -/
structure Image where
  filename : Text
  fileSize : UInt64
  sections : Sections
  ibfdSections : List SectionRef
  ibfdSyms : List ASymbol
  dbfdValid : Bool
  dbfdSyms : List ASymbol
  ibfdStartAddress : UInt64
  dbfdStartAddress : UInt64

/-- `interesting_symbol`. -/
def interestingSymbol (sections : Sections) (sym : ASymbol) : Bool :=
  if ¬(sections sym.symSection).code then false
  else if sym.name = [] then true
  else if sym.name = ['$', 'a'] ∨ sym.name = ['$', 't'] ∨ sym.name = ['$', 'd'] then false
  else if sym.name.take 2 = ['.', 'L'] then false
  else if sym.name = "gcc2_compiled.".toList then false
  else !sym.sectionSym

/-- The constructor of an `op_bfd_symbol`; a symbol without a name is named after its section. -/
def opBfdSymbol (sections : Sections) (a : ASymbol) : OpBfdSymbol where
  bfdSection := some a.symSection
  symbValue := a.value
  sectionFilepos := (sections a.symSection).filepos
  sectionVma := (sections a.symSection).vma
  symbSize := 0
  symbName := if a.name ≠ [] then a.name else '?' :: '?' :: (sections a.symSection).name
  symbHidden := a.name ≠ [] ∧ a.isLocal ∧ ¬a.isGlobal
  symbWeak := a.name ≠ [] ∧ a.isWeak
  symbArtificial := false

/-- The `filepos_map` and the filtered sections of the constructor. -/
structure CodeSections where
  fileposMap : List (Text × UInt32)
  filteredSection : List SectionRef
  deriving DecidableEq

/-- `filepos_map[name]`. -/
def CodeSections.filepos (code : CodeSections) (name : Text) : UInt32 :=
  ((code.fileposMap.find? fun e => e.1 = name).map Prod.snd).getD 0

/-- A round of the loop of the constructor; nothing when it aborts over a section found twice. -/
def codeSectionsStep (sections : Sections) (code : CodeSections) (ref : SectionRef) : Option CodeSections :=
  let sect := sections ref
  if sect.code then
    if code.filepos sect.name ≠ 0 then none
    else
      some
        { fileposMap := (sect.name, sect.filepos.toUInt32) :: code.fileposMap
          filteredSection :=
            if sect.vma = 0 ∧ sect.name ≠ ".text".toList then code.filteredSection ++ [ref]
            else code.filteredSection }
  else some code

def codeSections (image : Image) : Option CodeSections :=
  image.ibfdSections.foldlM (codeSectionsStep image.sections) ⟨[], []⟩

/-- The symbols that the binary gives. -/
def ibfdSymbols (image : Image) (code : CodeSections) : List OpBfdSymbol :=
  (image.ibfdSyms.filter fun sym =>
    interestingSymbol image.sections sym ∧ sym.symSection ∉ code.filteredSection).map (opBfdSymbol image.sections)

/-- The loop over the symbols of the debug file, which moves their sections to where the binary has them. -/
def dbfdSymbols (code : CodeSections) : Sections → List ASymbol → List OpBfdSymbol × Sections
  | sections, [] => ([], sections)
  | sections, sym :: syms =>
    if interestingSymbol sections sym then
      let sect := sections sym.symSection
      let filepos := code.filepos sect.name
      let sections :=
        if filepos ≠ 0 then Function.update sections sym.symSection { sect with filepos := filepos.toUInt64 }
        else sections
      let (symbols, sections') := dbfdSymbols code sections syms
      (opBfdSymbol sections sym :: symbols, sections')
    else dbfdSymbols code sections syms

/-- `boring_symbol`. -/
def boringSymbol (first second : OpBfdSymbol) : Bool :=
  if first.symbName = "Letext".toList then true
  else if second.symbName = "Letext".toList then false
  else if first.symbName.take 2 = ['?', '?'] then true
  else if second.symbName.take 2 = ['?', '?'] then false
  else if first.symbHidden ∧ ¬second.symbHidden then true
  else if ¬first.symbHidden ∧ second.symbHidden then false
  else if first.symbName.head? = some '_' ∧ second.symbName.head? ≠ some '_' then true
  else if first.symbName.head? ≠ some '_' ∧ second.symbName.head? = some '_' then false
  else if first.symbWeak ∧ ¬second.symbWeak then true
  else false

/-- The loop over the sorted symbols with `it` at the first: of neighbours at one place one goes. -/
def eraseBoring (it : OpBfdSymbol) : List OpBfdSymbol → List OpBfdSymbol
  | [] => [it]
  | temp :: symbols =>
    if it.vma = temp.vma ∧ it.filepos = temp.filepos then
      eraseBoring (if boringSymbol it temp then temp else it) symbols
    else it :: eraseBoring temp symbols

/-- `symbols.sort()`, and the boring symbols erased. -/
def sortSymbols (symbols : List OpBfdSymbol) : List OpBfdSymbol :=
  match symbols.insertionSort fun a b => a.filepos ≤ b.filepos with
  | [] => []
  | it :: symbols => eraseBoring it symbols

/-- `symbol_endpos`: where the section of a symbol ends. -/
def symbolEndpos (sections : Sections) (sym : OpBfdSymbol) : UInt64 :=
  sym.bfdSection.elim 0 fun ref => (sections ref).filepos + (sections ref).size

/-- The `end` of `symbol_size`. -/
def symbolEnd (sections : Sections) (fileSize : UInt64) (sym : OpBfdSymbol) (next : Option OpBfdSymbol) : UInt64 :=
  match next with
  | none => (sym.bfdSection.elim 0 fun ref => (sections ref).filepos) + fileSize
  | some next => if sym.bfdSection ≠ next.bfdSection then symbolEndpos sections sym else next.filepos

/-- `symbol_size`. -/
def symbolSize (sections : Sections) (fileSize : UInt64) (sym : OpBfdSymbol) (next : Option OpBfdSymbol) : UInt64 :=
  if symbolEnd sections fileSize sym next < sym.filepos then 0
  else symbolEnd sections fileSize sym next - sym.filepos

/-- The loop that calculates the sizes. -/
def setSizes (sections : Sections) (fileSize : UInt64) : List OpBfdSymbol → List OpBfdSymbol
  | [] => []
  | it :: symbols =>
    { it with symbSize := symbolSize sections fileSize it symbols.head? } :: setSizes sections fileSize symbols

/-- The symbols that `get_symbols` keeps, in order and before they get sizes, and the sections by then. -/
def keptSymbols (image : Image) (code : CodeSections) : List OpBfdSymbol × Sections :=
  let (symbols, sections) := dbfdSymbols code image.sections image.dbfdSyms
  (sortSymbols (ibfdSymbols image code ++ symbols), sections)

/-- `get_symbols`. -/
def getSymbols (image : Image) (code : CodeSections) : List OpBfdSymbol :=
  let (symbols, sections) := keptSymbols image code
  setSizes sections image.fileSize symbols

/-- `add_symbols`, with the placeholder for an image without symbols. -/
def addSymbols (image : Image) (symbolFilter : Text → Bool) (symbols : List OpBfdSymbol) : List OpBfdSymbol :=
  (if symbols = [] then [OpBfdSymbol.artificial 0 image.fileSize image.filename] else symbols).filter
    fun sym => symbolFilter sym.symbName

/-- The `op_bfd` of an image. -/
def opBfd (image : Image) (code : CodeSections) (symbolFilter : Text → Bool) (embeddingFilename : Text)
    (getLinenr : Nat → UInt64 → Option (Text × UInt32)) : OpBfd where
  filename := image.filename
  syms := addSymbols image symbolFilter (getSymbols image code)
  anonObj := ".jo".toList <:+ image.filename
  vmaAdj :=
    if image.dbfdValid ∧ image.ibfdSyms = [] then image.ibfdStartAddress - image.dbfdStartAddress else 0
  embeddingFilename := embeddingFilename
  startOffset := (code.filepos ".text".toList).toUInt64
  getLinenr := getLinenr

end Oprofile.Libutilpp
