import Oprofile.Libutilpp.OpBfd

/-! The samples of one image (`profile.h`). -/
namespace Oprofile.Libpp

/-- The fields of an `opd_header` that the containers read. -/
structure OpdHeader where
  isKernel : UInt32
  cgToIsKernel : UInt32
  spuProfile : Bool
  embeddedOffset : UInt64
  anonStart : UInt64
  cgToAnonStart : UInt64
  deriving DecidableEq

/-- A key of the map and its count. -/
abbrev Sample := UInt64 × UInt64

/-- A `profile_t`; the map of its samples is the list of its entries in order. -/
structure Profile where
  fileHeader : OpdHeader
  orderedSamples : List Sample
  startOffset : UInt64
  ordered : orderedSamples.Pairwise fun a b => a.1 < b.1

/-- The entries from `lower_bound(start)` to before `lower_bound(last)`. -/
def Profile.between (profile : Profile) (start last : UInt64) : List Sample :=
  profile.orderedSamples.filter fun s => start ≤ s.1 ∧ s.1 < last

/-- `samples_range`: what its iterators run over, the addresses with the start offset; nothing when it
throws. -/
def Profile.samplesRange (profile : Profile) (start last : UInt64) : Option (List Sample) :=
  if start < profile.startOffset then some []
  else
    let start := start - profile.startOffset
    let last := last - profile.startOffset
    if last < start then none
    else some ((profile.between start last).map fun s => (s.1 + profile.startOffset, s.2))

/-- `std::accumulate` of the counts. -/
def accumulate (samples : List Sample) : UInt64 := (samples.map Prod.snd).foldl (· + ·) 0

end Oprofile.Libpp
