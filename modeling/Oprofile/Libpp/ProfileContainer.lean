import Oprofile.Libpp.CountArray
import Oprofile.Libpp.Profile
import Oprofile.SampleNames.ParseFilename

/-! The container of symbols and samples (`profile_container.cpp`, `symbol_container.cpp`,
`sample_container.cpp`). -/
namespace Oprofile.Libpp

open SampleNames Libutilpp

/-- A `unique_storage`: the values of the ids from 1 on. -/
abbrev UniqueStorage := List Text

/-- `unique_storage::create`: the id, and the storage that has it. -/
def UniqueStorage.create (storage : UniqueStorage) (value : Text) : Nat × UniqueStorage :=
  if value ∈ storage then (storage.idxOf value + 1, storage)
  else (storage.length + 1, storage ++ [value])

/-- `unique_storage::get`, for an id that was made. -/
def UniqueStorage.get (storage : UniqueStorage) (id : Nat) : Text := if id = 0 then [] else storage.getD (id - 1) []

/-- `image_names`, `symbol_names` and `debug_names`. -/
structure Names where
  imageNames : UniqueStorage
  symbolNames : UniqueStorage
  debugNames : UniqueStorage
  deriving DecidableEq

structure FileLocation where
  filename : Nat
  linenr : UInt32
  deriving DecidableEq

structure SampleEntry where
  fileLoc : FileLocation
  vma : UInt64
  counts : CountArray
  deriving DecidableEq

/-- A `symbol_entry`; names are ids. -/
structure SymbolEntry where
  imageName : Nat
  appName : Nat
  symIndex : Nat
  sample : SampleEntry
  name : Nat
  size : UInt64
  spuOffset : UInt64
  embeddingFilename : Nat
  vmaAdj : UInt64
  deriving DecidableEq

/-- `less_symbol`. -/
def lessSymbol (lhs rhs : SymbolEntry) : Bool :=
  if lhs.imageName ≠ rhs.imageName then lhs.imageName < rhs.imageName
  else if lhs.appName ≠ rhs.appName then lhs.appName < rhs.appName
  else if lhs.name ≠ rhs.name then lhs.name < rhs.name
  else if lhs.sample.vma ≠ rhs.sample.vma then lhs.sample.vma < rhs.sample.vma
  else lhs.size < rhs.size

/-- Neither symbol is less: a set keeps one of the two. -/
def SameSymbol (lhs rhs : SymbolEntry) : Prop :=
  lessSymbol lhs rhs = false ∧ lessSymbol rhs lhs = false

instance (lhs rhs : SymbolEntry) : Decidable (SameSymbol lhs rhs) :=
  inferInstanceAs (Decidable (_ ∧ _))

/-- `counts += rhs.counts` on a stored symbol. -/
def SymbolEntry.addCounts (s : SymbolEntry) (counts : CountArray) : SymbolEntry :=
  { s with sample := { s.sample with counts := s.sample.counts.add counts } }

/-- `symbol_container::insert`. The nodes of the set stand in the order they were made in, and the pointer
to a node is its place. -/
def insertSymbol (symb : SymbolEntry) : List SymbolEntry → List SymbolEntry × Nat
  | [] => ([symb], 0)
  | s :: symbols =>
    if SameSymbol s symb then (s.addCounts symb.sample.counts :: symbols, 0)
    else
      let (symbols, i) := insertSymbol symb symbols
      (s :: symbols, i + 1)

/-- `samples_storage`: a symbol's node and an address, with the entry. -/
abbrev SamplesStorage := List ((Nat × UInt64) × SampleEntry)

/-- `sample_container::insert`. -/
def insertSample (symbol : Nat) (sample : SampleEntry) (samples : SamplesStorage) : SamplesStorage :=
  Tally.upsert (symbol, sample.vma) (fun e => { e with counts := e.counts.add sample.counts }) sample samples

/-- The order of the keys of `samples_storage`. -/
def lessKey (lhs rhs : Nat × UInt64) : Bool := lhs.1 < rhs.1 ∨ lhs.1 = rhs.1 ∧ lhs.2 < rhs.2

/-- From `begin(symbol)` to before `end(symbol)`. -/
def samplesOf (symbol : Nat) (samples : SamplesStorage) : SamplesStorage :=
  samples.filter fun e => ¬lessKey e.1 (symbol, 0) ∧ ¬lessKey (symbol, -1) e.1

structure ProfileContainer where
  symbols : List SymbolEntry
  samples : SamplesStorage
  totalCount : CountArray
  names : Names
  debugInfo : Bool
  needDetails : Bool

/-- One call of `add`. -/
structure AddCall where
  profile : Profile
  abfd : OpBfd
  appName : Text
  pclass : UInt32

/-- The file location that the debug information gives, if it is asked for. -/
def fileLocation (debugInfo : Bool) (abfd : OpBfd) (symIndex : Nat) (offset : UInt64) (names : Names) :
    FileLocation × Names :=
  match if debugInfo then abfd.getLinenr symIndex offset else none with
  | none => (⟨0, 0⟩, names)
  | some (filename, linenr) =>
    let (id, debugNames) := names.debugNames.create filename
    (⟨id, linenr⟩, { names with debugNames := debugNames })

/-- A round of the loop of `add_samples`. -/
def addSample (call : AddCall) (symIndex symbol : Nat) (start baseVma : UInt64) (c : ProfileContainer)
    (it : Sample) : ProfileContainer :=
  let (fileLoc, names) := fileLocation c.debugInfo call.abfd symIndex it.1 c.names
  let sample : SampleEntry :=
    { fileLoc := fileLoc, vma := (it.1 - start) + baseVma, counts := CountArray.empty.set call.pclass it.2 }
  { c with samples := insertSample symbol sample c.samples, names := names }

/-- The symbol entry that `add` makes of a symbol with samples, with the names it creates. -/
def symbolEntry (call : AddCall) (debugInfo : Bool) (symIndex : Nat) (sym : OpBfdSymbol) (count : UInt64)
    (names : Names) : SymbolEntry × Names :=
  let (start, last) := call.abfd.getSymbolRange sym
  let (name, symbolNames) := names.symbolNames.create sym.symbName
  let (fileLoc, names) :=
    fileLocation debugInfo call.abfd symIndex start { names with symbolNames := symbolNames }
  let (imageName, imageNames) := names.imageNames.create call.abfd.filename
  let (appName, imageNames) := imageNames.create call.appName
  let spu := call.profile.fileHeader.spuProfile ∧ call.profile.fileHeader.embeddedOffset ≠ 0
  let (embeddingFilename, imageNames) :=
    if spu then imageNames.create call.abfd.embeddingFilename else (0, imageNames)
  ({ imageName := imageName, appName := appName, symIndex := symIndex
     sample := { fileLoc := fileLoc, vma := sym.vma, counts := CountArray.empty.set call.pclass count }
     name := name, size := last - start
     spuOffset := if spu then call.profile.fileHeader.embeddedOffset else 0
     embeddingFilename := embeddingFilename, vmaAdj := call.abfd.vmaAdj },
   { names with imageNames := imageNames })

/-- A round of the loop of `add`; nothing when `samples_range` throws. -/
def addSymbol (call : AddCall) (c : ProfileContainer) (symIndex : Nat) (sym : OpBfdSymbol) :
    Option ProfileContainer :=
  let (start, last) := call.abfd.getSymbolRange sym
  (call.profile.samplesRange start last).map fun range =>
    let count := accumulate range
    if count = 0 then c
    else
      let (symb, names) := symbolEntry call c.debugInfo symIndex sym count c.names
      let (symbols, symbol) := insertSymbol symb c.symbols
      let c :=
        { c with symbols := symbols, names := names, totalCount := c.totalCount.addAt call.pclass count }
      if c.needDetails then range.foldl (addSample call symIndex symbol start sym.vma) c else c

/-- The loop of `add` over the symbols from `symIndex` on. What was added before an exception stays. -/
def addEachSymbol (call : AddCall) : Nat → List OpBfdSymbol → ProfileContainer → ProfileContainer
  | _, [], c => c
  | symIndex, sym :: syms, c =>
    match addSymbol call c symIndex sym with
    | none => c
    | some c => addEachSymbol call (symIndex + 1) syms c

/-- `profile_container::add`. -/
def ProfileContainer.add (c : ProfileContainer) (call : AddCall) : ProfileContainer :=
  addEachSymbol call 0 call.abfd.syms c

/-- A new container; the names may already hold others. -/
def ProfileContainer.new (debugInfo needDetails : Bool) (names : Names) : ProfileContainer where
  symbols := []
  samples := []
  totalCount := .empty
  names := names
  debugInfo := debugInfo
  needDetails := needDetails

end Oprofile.Libpp
