import Oprofile.SampleNames.Mangle

/-! The symbols of a binary (`op_bfd.h`). -/
namespace Oprofile.Libutilpp

open SampleNames

/-- A section object: of the separate debug file or of the binary, and its place there. -/
structure SectionRef where
  debugFile : Bool
  index : Nat
  deriving DecidableEq

/-- An `op_bfd_symbol`; an artificial one has no section. -/
structure OpBfdSymbol where
  bfdSection : Option SectionRef
  symbValue : UInt64
  sectionFilepos : UInt64
  sectionVma : UInt64
  symbSize : UInt64
  symbName : Text
  symbHidden : Bool
  symbWeak : Bool
  symbArtificial : Bool
  deriving DecidableEq

namespace OpBfdSymbol

def vma (s : OpBfdSymbol) : UInt64 := s.symbValue + s.sectionVma

def filepos (s : OpBfdSymbol) : UInt64 := s.symbValue + s.sectionFilepos

/-- The constructor for artificial symbols. -/
def artificial (vma size : UInt64) (name : Text) : OpBfdSymbol where
  bfdSection := none
  symbValue := vma
  sectionFilepos := 0
  sectionVma := 0
  symbSize := size
  symbName := name
  symbHidden := false
  symbWeak := false
  symbArtificial := true

end OpBfdSymbol

/-- An `op_bfd` as the profile containers use it; `getLinenr` is what the debug information says of an
offset in a symbol, and `startOffset` the file position of `.text`. -/
structure OpBfd where
  filename : Text
  syms : List OpBfdSymbol
  anonObj : Bool
  vmaAdj : UInt64
  embeddingFilename : Text
  startOffset : UInt64
  getLinenr : Nat → UInt64 → Option (Text × UInt32)

/-- `get_symbol_range`. -/
def OpBfd.getSymbolRange (abfd : OpBfd) (sym : OpBfdSymbol) : UInt64 × UInt64 :=
  let start := if abfd.anonObj then sym.vma else sym.filepos
  (start, start + sym.symbSize)

end Oprofile.Libutilpp
