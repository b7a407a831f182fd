import Oprofile.Library.CNumbers
import Oprofile.Library.Interning
import Oprofile.Library.Sorting
import Oprofile.Libpp.ProfileContainer
import Oprofile.Libpp.XmlModules

/-! The symbols, symbol data and details of the XML reports (`format_output.cpp`). -/
namespace Oprofile.Libpp

open SampleNames CNumbers

/-- `is >> line` for a `size_t`. -/
def readSize (s : Text) : Nat :=
  let (negative, body) := splitSign (s.dropWhile isSpace)
  let v := numeral 10 (body.takeWhile (isDigitOf 10))
  if 2 ^ 64 ≤ v then 2 ^ 64 - 1 else if negative then (2 ^ 64 - v) % 2 ^ 64 else v

/-- `get_linenr_info` with the long file name, as the XML reports have it. -/
def getLinenrInfo (names : Names) (floc : FileLocation) : Text :=
  let filename := names.debugNames.get floc.filename
  if filename ≠ [] then filename ++ ':' :: Nat.toDigits 10 floc.linenr.toNat
  else "(no location information)".toList

/-- `extract_linenr_info` -/
def extractLinenrInfo (info : Text) : Option (Text × Nat) :=
  if ':' ∈ info then some (info.takeWhile (· ≠ ':'), readSize ((info.dropWhile (· ≠ ':')).drop 1)) else none

/-- `get_vma` -/
def getVma (vma : UInt64) (vma64 : Bool) : Text :=
  let digits := Nat.toDigits 16 vma.toNat
  List.replicate ((if vma64 then 16 else 8) - digits.length) '0' ++ digits

/-- `symbol_name_storage::demangle`, over `demangle_symbol`. -/
def demangle (demangleSymbol : Text → Text) : Text → Text
  | [] => []
  | c :: name =>
    if c ≠ '?' then demangleSymbol (c :: name)
    else if name.head? ≠ some '?' then "(no symbols)".toList
    else "anonymous symbol from section ".toList ++ name.dropWhile (· = '?')

theorem byVma_total (a b : (Nat × UInt64) × SampleEntry) : a.1.2 ≤ b.1.2 ∨ b.1.2 ≤ a.1.2 := UInt64.le_total _ _

theorem byVma_trans (a b c : (Nat × UInt64) × SampleEntry) : a.1.2 ≤ b.1.2 → b.1.2 ≤ c.1.2 → a.1.2 ≤ c.1.2 :=
  UInt64.le_trans

/-- The entries of a symbol in the order of the map. -/
def byVma : Sorting.QSort fun a b : (Nat × UInt64) × SampleEntry => a.1.2 ≤ b.1.2 :=
  Sorting.insertion _ byVma_total byVma_trans

/-- A `count` element; the class only with subclasses. -/
structure SummaryData where
  className : Option Text
  count : UInt64
  deriving DecidableEq

/-- A `symboldata` element. -/
structure SymbolData where
  id : Nat
  name : Option Text
  sourceFile : Option Text
  sourceLine : Option Nat
  startingAddr : Option Text
  deriving DecidableEq

/-- A `detaildata` element. -/
structure DetailData where
  id : Nat
  vma : Text
  sourceFile : Option Text
  sourceLine : Option Nat
  className : Text
  count : UInt64
  deriving DecidableEq

/-- One call of `output_symbol`: the symbol with its node, and the range of classes. -/
structure SymbolCall where
  symb : SymbolEntry × Nat
  lo : Nat
  hi : Nat
  deriving DecidableEq

/-- A `symbol` element. The call that wrote it is not printed. -/
structure SymbolElement where
  call : SymbolCall
  idref : Nat
  detail : Option (Nat × Nat)
  summary : List SummaryData
  deriving DecidableEq

/-- A `symbol_details_t`. -/
structure SymbolDetails where
  id : Int32
  index : Nat
  details : List DetailData
  deriving DecidableEq

def SymbolDetails.new : SymbolDetails := ⟨-1, 0, []⟩

/-- The global tables. -/
structure XmlTables where
  symbolData : Interning.Table Text
  symbolDetails : List SymbolDetails

def XmlTables.empty : XmlTables := ⟨.empty, []⟩

/-- `symbol_details[index] = sd`; the vector grows. -/
def growSet (index : Nat) (sd : SymbolDetails) (details : List SymbolDetails) : List SymbolDetails :=
  (details ++ List.replicate (index + 1 - details.length) SymbolDetails.new).set index sd

/-- An `xml_formatter`, with the globals it reads; the symbols are in the order of the report. -/
structure XmlFormatter where
  profile : ProfileContainer
  symbols : List (SymbolEntry × Nat)
  classNames : List Text
  hasSubclasses : Bool
  needDetails : Bool
  linenrInfo : Bool
  vma64 : Bool
  demangleSymbol : Text → Text

namespace XmlFormatter

variable (f : XmlFormatter)

def symbolName (symb : SymbolEntry) : Text := f.profile.names.symbolNames.get symb.name

/-- `image + ":" + name` -/
def qname (symb : SymbolEntry) : Text :=
  f.profile.names.imageNames.get symb.imageName ++ ':' :: f.symbolName symb

/-- What `output_the_symbol_data` writes of a symbol whose name is in the table. -/
def symbolData (id : Nat) (symb : SymbolEntry) : SymbolData :=
  let name := f.symbolName symb
  let shown := demangle f.demangleSymbol name
  let location :=
    if f.linenrInfo then extractLinenrInfo (getLinenrInfo f.profile.names symb.sample.fileLoc) else none
  { id := id, name := if shown ≠ [] then some shown else none
    sourceFile := location.map Prod.fst, sourceLine := location.map Prod.snd
    startingAddr := if name ≠ [] ∧ name.head? ≠ some '?' then some (getVma symb.sample.vma f.vma64) else none }

/-- `output_the_symbol_data` -/
def outputTheSymbolData (symb : SymbolEntry) (table : List (Text × Nat)) : Option SymbolData × List (Text × Nat) :=
  match KeyMap.find (f.qname symb) table with
  | some id => (some (f.symbolData id symb), KeyMap.erase (f.qname symb) table)
  | none => (none, table)

/-- The loop of `output_symbol_data`. -/
def outputSymbolData : List (SymbolEntry × Nat) → List (Text × Nat) → List SymbolData
  | [], _ => []
  | symb :: symbols, table =>
    let (data, table) := f.outputTheSymbolData symb.1 table
    data.toList ++ outputSymbolData symbols table

/-- A `detaildata` element; its source file is written when it is not the symbol's. -/
def detailData (symb : SymbolEntry) (sample : SampleEntry) (p id : Nat) : DetailData :=
  let symInfo := extractLinenrInfo (getLinenrInfo f.profile.names symb.sample.fileLoc)
  let sampInfo := extractLinenrInfo (getLinenrInfo f.profile.names sample.fileLoc)
  { id := id, vma := getVma sample.vma f.vma64
    sourceFile := do
      let samp ← sampInfo
      let sym ← symInfo
      if sym.1 ≠ samp.1 then some samp.1 else none
    sourceLine := sampInfo.map Prod.snd
    className := f.classNames.getD p [], count := sample.counts.get (UInt32.ofNat p) }

/-- A round of the inner loop of `output_symbol_details`: the text so far, and the next id. -/
def outputDetail (symb : SymbolEntry) (sample : SampleEntry) (str : List DetailData × Nat) (p : Nat) :
    List DetailData × Nat :=
  if sample.counts.get (UInt32.ofNat p) = 0 then str else (str.1 ++ [f.detailData symb sample p str.2], str.2 + 1)

/-- `output_symbol_details` -/
def outputSymbolDetails (symb : SymbolEntry × Nat) (detailIndex lo hi : Nat) : List DetailData × Nat :=
  if hasSampleCounts symb.1.sample.counts lo hi then
    (byVma.sort (samplesOf symb.2 f.profile.samples)).foldl
      (fun str it => (List.range' lo (hi + 1 - lo)).foldl (f.outputDetail symb.1 it.2) str) ([], detailIndex)
  else ([], detailIndex)

/-- `output_summary_data` -/
def outputSummaryData (summary : CountArray) (pclass : Nat) : Option SummaryData :=
  let count := summary.get (UInt32.ofNat pclass)
  if count = 0 then none
  else some ⟨if f.hasSubclasses then some (f.classNames.getD pclass []) else none, count⟩

/-- The summary data of a range of classes. -/
def outputSummary (summary : CountArray) (lo hi : Nat) : List SummaryData :=
  (List.range' lo (hi + 1 - lo)).filterMap (f.outputSummaryData summary)

/-- The part of `output_symbol` that is done with details. -/
def appendDetails (call : SymbolCall) (indx : Nat) (symbolDetails : List SymbolDetails) :
    Option (Nat × Nat) × List SymbolDetails :=
  let sd := symbolDetails.getD indx .new
  let detailLo := sd.index
  let (details, index) := f.outputSymbolDetails call.symb sd.index call.lo call.hi
  let sd := { sd with index := index, id := if details ≠ [] ∧ sd.id < 0 then Int32.ofNat indx else sd.id }
  if index > detailLo then
    (some (detailLo, index - 1), growSet indx { sd with details := sd.details ++ details } symbolDetails)
  else (none, growSet indx sd symbolDetails)

/-- `output_symbol` -/
def outputSymbol (call : SymbolCall) (tables : XmlTables) : Option SymbolElement × XmlTables :=
  let summary := f.outputSummary call.symb.1.sample.counts call.lo call.hi
  if summary = [] then (none, tables)
  else
    let (indx, symbolData) := tables.symbolData.intern (f.qname call.symb.1)
    let (detail, symbolDetails) :=
      if f.needDetails then f.appendDetails call indx tables.symbolDetails else (none, tables.symbolDetails)
    (some ⟨call, indx, detail, summary⟩, ⟨symbolData, symbolDetails⟩)

end XmlFormatter

/-- The results of a step taken for each element in turn. -/
def collect {A B S : Type} (step : A → S → B × S) : List A → S → List B × S
  | [], s => ([], s)
  | a :: as, s =>
    let (b, s) := step a s
    let (bs, s) := collect step as s
    (b :: bs, s)

/-- A `module` element. -/
structure ModuleElement where
  name : Text
  summary : List SummaryData
  symbols : List SymbolElement

/-- A `thread` element. -/
structure ThreadElement where
  threadId : Text
  summary : List SummaryData
  modules : List ModuleElement

/-- A `process` element. -/
structure ProcessElement where
  processId : Text
  name : Text
  summary : List SummaryData
  threads : List ThreadElement

/-- A `binary` element. -/
structure BinaryElement where
  own : ModuleElement
  modules : List ModuleElement

/-- What `output_program_structure` goes over. -/
inductive ProgramStructure
  | processes (infos : List ProcessModules)
  | binaries (infos : List BinaryInfo)

inductive ProgramElements
  | processes (elements : List ProcessElement)
  | binaries (elements : List BinaryElement)

/-- The symbol elements in the order of the report. -/
def ProgramElements.symbols : ProgramElements → List SymbolElement
  | .processes elements => elements.flatMap fun p => p.threads.flatMap fun t => t.modules.flatMap (·.symbols)
  | .binaries elements => elements.flatMap fun b => b.own.symbols ++ b.modules.flatMap (·.symbols)

/-- A `symboldetails` element. -/
structure DetailTable where
  id : Nat
  details : List DetailData
  deriving DecidableEq

/-- What `output` writes, without the bytes of the symbols. -/
structure XmlReport where
  elements : ProgramElements
  symbolTable : List SymbolData
  detailTable : List DetailTable

namespace XmlFormatter

variable (f : XmlFormatter)

/-- `module_info::output_symbols`. The end of a module is set before it is written. -/
def outputSymbols (m : ModuleInfo) (tables : XmlTables) : List SymbolElement × XmlTables :=
  match m.beginSym, m.endSym with
  | some b, some e =>
    let (written, tables) := collect (fun symb => f.outputSymbol ⟨symb, m.lo, m.hi⟩) ((f.symbols.take e).drop b) tables
    (written.reduceOption, tables)
  | _, _ => ([], tables)

/-- `module_info::output` -/
def outputModule (m : ModuleInfo) (tables : XmlTables) : ModuleElement × XmlTables :=
  let (symbols, tables) := f.outputSymbols m tables
  (⟨m.name, f.outputSummary m.summary m.lo m.hi, symbols⟩, tables)

/-- `thread_info::output` -/
def outputThread (t : ThreadModules) (tables : XmlTables) : Option ThreadElement × XmlTables :=
  let summary := f.outputSummary t.summary t.thread.lo t.thread.hi
  let (modules, tables) := collect f.outputModule t.modules tables
  (if modules = [] ∧ summary = [] then none else some ⟨t.thread.threadId, summary, modules⟩, tables)

/-- `process_info::output` -/
def outputProcess (p : ProcessModules) (tables : XmlTables) : Option ProcessElement × XmlTables :=
  let summary := f.outputSummary p.summary p.process.lo p.process.hi
  let (threads, tables) := collect f.outputThread p.threads tables
  (if threads.reduceOption = [] ∧ summary = [] then none
    else some ⟨p.process.processId, p.name, summary, threads.reduceOption⟩, tables)

/-- `binary_info::output` -/
def outputBinary (b : BinaryInfo) (tables : XmlTables) : BinaryElement × XmlTables :=
  let (own, tables) := f.outputModule b.own tables
  let (modules, tables) := collect f.outputModule b.modules tables
  (⟨own, modules⟩, tables)

/-- `output_program_structure`, after the structure is built. -/
def outputProgramStructure (program : ProgramStructure) (tables : XmlTables) : ProgramElements × XmlTables :=
  match program with
  | .processes infos =>
    let (elements, tables) := collect f.outputProcess infos tables
    (.processes elements.reduceOption, tables)
  | .binaries infos =>
    let (elements, tables) := collect f.outputBinary infos tables
    (.binaries elements, tables)

/-- The symbol details that are written, by their index as an `int`. -/
def detailTable (symbolDetails : List SymbolDetails) : List DetailTable :=
  symbolDetails.filterMap fun sd => if sd.id ≥ 0 then some ⟨sd.id.toInt.toNat, sd.details⟩ else none

/-- `xml_formatter::output`, the only call of a run. -/
def output (program : ProgramStructure) : XmlReport :=
  let (elements, tables) := f.outputProgramStructure program .empty
  { elements := elements, symbolTable := f.outputSymbolData f.symbols tables.symbolData.entries
    detailTable := if f.needDetails then detailTable tables.symbolDetails else [] }

end XmlFormatter

end Oprofile.Libpp
