import Oprofile.SampleNames.ParseFilename

/-! Profile classes (`arrange_profiles.h`). -/
namespace Oprofile.Libpp

open SampleNames

/-- Which parameters are merged. -/
structure MergeOption where
  cpu : Bool
  lib : Bool
  tid : Bool
  tgid : Bool
  unitmask : Bool

structure ProfileTemplate where
  event : Text
  count : Text
  unitmask : Text
  tgid : Text
  tid : Text
  cpu : Text
  deriving DecidableEq

/-- `template_from_profile`: a merged field stays blank. -/
def templateFromProfile (parsed : ParsedFilename) (mergeBy : MergeOption) : ProfileTemplate where
  event := parsed.event
  count := parsed.count
  unitmask := if mergeBy.unitmask then [] else parsed.unitmask
  tgid := if mergeBy.tgid then [] else parsed.tgid
  tid := if mergeBy.tid then [] else parsed.tid
  cpu := if mergeBy.cpu then [] else parsed.cpu

end Oprofile.Libpp
