import Oprofile.Library.Histogram
import Oprofile.Libpp.DiffContainer

/-! Export of a profile as a `gmon.out` file (`opgprof.cpp`). -/
namespace Oprofile.Pp.Opgprof

open Libpp

/-- A section of the binary. -/
structure Section where
  filepos : UInt64
  vma : UInt64

/-- What the export reads of an `op_bfd`; `startOffset` is the file position of `.text`. -/
structure Bfd where
  bitsPerAddress : Nat
  sections : List Section
  startOffset : UInt64

/-- `op_bfd::offset_to_pc` -/
def offsetToPc : List Section → UInt64 → UInt64
  | [], _ => 0
  | [sect], offset => if sect.filepos ≤ offset then sect.vma + (offset - sect.filepos) else 0
  | sect :: next :: rest, offset =>
    if sect.filepos ≤ offset ∧ offset < next.filepos then sect.vma + (offset - sect.filepos)
    else offsetToPc (next :: rest) offset

/-- One call of an `op_write` function. -/
inductive Write
  | file (bytes : List UInt8)
  | u8 (val : UInt8)
  | u32 (val : UInt32)
  | u64 (val : UInt64)
  | u16s (vals : List UInt16)
  deriving DecidableEq

/-- `op_write_vma`; nothing when it exits. -/
def opWriteVma (abfd : Bfd) (vma : UInt64) : Option Write :=
  if abfd.bitsPerAddress = 32 then some (.u32 vma.toUInt32)
  else if abfd.bitsPerAddress = 64 then some (.u64 vma)
  else none

/-- `get_vma_range` -/
def getVmaRange (samples : SamplesStorage) : UInt64 × UInt64 :=
  let (min, max) := samples.foldl
    (fun (range : UInt64 × UInt64) it =>
      (if it.2.vma < range.1 then it.2.vma else range.1, if it.2.vma > range.2 then it.2.vma else range.2))
    (-1, 0)
  (if min = -1 then 0 else min, if max ≠ 0 then max + 1 else max)

/-- `aligned_samples` -/
def alignedSamples (samples : SamplesStorage) (gap : UInt64) : Bool := samples.all fun it => it.2.vma % gap = 0

theorem nodeOrder_total (a b : SymbolEntry × Nat) : lessSymbol b.1 a.1 = false ∨ lessSymbol a.1 b.1 = false := by
  simp only [lessSymbol_false, lessSymbol_iff]
  omega

theorem nodeOrder_trans (a b c : SymbolEntry × Nat) (hab : lessSymbol b.1 a.1 = false)
    (hbc : lessSymbol c.1 b.1 = false) : lessSymbol c.1 a.1 = false := by
  simp only [lessSymbol_false, lessSymbol_iff] at hab hbc ⊢
  omega

/-- The nodes of the symbols in the order of `less_symbol`. -/
def nodeOrder : Sorting.QSort fun a b : SymbolEntry × Nat => lessSymbol b.1 a.1 = false :=
  Sorting.insertion _ nodeOrder_total nodeOrder_trans

/-- The samples of one symbol in the order of their addresses. -/
def vmaOrder : Sorting.QSort fun a b : (Nat × UInt64) × SampleEntry => a.1.2 ≤ b.1.2 :=
  Sorting.insertion _ (fun a b => UInt64.le_total a.1.2 b.1.2) fun _ _ _ => UInt64.le_trans

/-- `profile_container::select_symbols`, without the hints that this caller does not read. -/
def selectSymbols (samples : ProfileContainer) (choice : SymbolChoice) : List (SymbolEntry × Nat) :=
  (nodeOrder.sort samples.symbols.zipIdx).filter fun it =>
    (¬choice.matchImage ∨ samples.names.imageNames.getD (it.1.imageName - 1) [] = choice.imageName) ∧
    choice.threshold / 100 ≤ opRatio (countValue (it.1.sample.counts.get 0)) (countValue (samples.totalCount.get 0))

/-- The histogram, and the bins that were called bogus. -/
structure Hist where
  bins : List UInt16
  bogus : List UInt32

/-- A count added to a bin, capped. -/
def addCount (count : UInt64) (bin : UInt16) : UInt16 :=
  if bin.toUInt64 + count > 0xffff then 0xffff else bin + count.toUInt16

/-- The inner loop on a sample. -/
def addSample (lowPc multiplier histsize : UInt64) (hist : Hist) (sample : SampleEntry) : Hist :=
  let pos := ((sample.vma - lowPc) / multiplier).toUInt32
  let count := sample.counts.get 0
  if pos.toUInt64 ≥ histsize then { hist with bogus := hist.bogus ++ [pos] }
  else { hist with bins := hist.bins.modify pos.toNat (addCount count) }

/-- The samples that the two loops go over. -/
def visited (samples : ProfileContainer) (symbols : List (SymbolEntry × Nat)) : List SampleEntry :=
  symbols.flatMap fun sit => (vmaOrder.sort (samplesOf sit.2 samples.samples)).map Prod.snd

/-- `output_cg`, whose count is checked and then written as it is. -/
def outputCg (abfd : Bfd) (cgDb : Profile) : Option (List Write) := do
  let header := cgDb.fileHeader
  let offset := if header.isKernel ≠ 0 then abfd.startOffset else header.anonStart
  let arcs ← cgDb.orderedSamples.mapM fun it => do
    let vma := it.1 + cgDb.startOffset
    let fromPc ← opWriteVma abfd (offsetToPc abfd.sections ((vma >>> 32) + offset))
    let toPc ← opWriteVma abfd (offsetToPc abfd.sections ((vma &&& 0xffffffff) + offset))
    some [.u8 1, fromPc, toPc, .u32 it.2.toUInt32]
  some arcs.flatten

/-- `"gmon"`, the version and the spare words. -/
def gmonHdr : List Write := [.file [103, 109, 111, 110], .u32 1, .u32 0, .u32 0, .u32 0]

/-- `"samples"`, padded with zeros. -/
def dimension : List UInt8 := [115, 97, 109, 112, 108, 101, 115, 0, 0, 0, 0, 0, 0, 0, 0]

def multiplierOf (samples : ProfileContainer) : UInt64 := if alignedSamples samples.samples 4 then 8 else 2

/-- `low_pc` rounded down. -/
def lowPcOf (samples : ProfileContainer) : UInt64 :=
  (getVmaRange samples.samples).1 / multiplierOf samples * multiplierOf samples

/-- `high_pc` rounded up. -/
def highPcOf (samples : ProfileContainer) : UInt64 :=
  ((getVmaRange samples.samples).2 + multiplierOf samples - 1) / multiplierOf samples * multiplierOf samples

def histsizeOf (samples : ProfileContainer) : UInt64 := (highPcOf samples - lowPcOf samples) / multiplierOf samples

/-- `output_gprof`: the file, and the bins called bogus; nothing when it exits. -/
def outputGprof (abfd : Bfd) (samples : ProfileContainer) (cgDb : Profile) (threshold : ℚ) :
    Option (List Write × List UInt32) := do
  let lowPc := lowPcOf samples
  let highPc := highPcOf samples
  let histsize := histsizeOf samples
  let low ← opWriteVma abfd lowPc
  let high ← opWriteVma abfd highPc
  let choice : SymbolChoice := ⟨⟨false, false⟩, threshold, false, []⟩
  let symbols := selectSymbols samples choice
  let hist := (visited samples symbols).foldl (addSample lowPc (multiplierOf samples) histsize)
    ⟨List.replicate histsize.toNat 0, []⟩
  let arcs ← if cgDb.orderedSamples ≠ [] then outputCg abfd cgDb else some []
  some (gmonHdr ++ [.u8 0, low, high, .u32 histsize.toUInt32, .u32 1, .file dimension, .u8 49, .u16s hist.bins] ++
    arcs, hist.bogus)

end Oprofile.Pp.Opgprof
