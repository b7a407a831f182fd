import Oprofile.Library.Sorting
import Mathlib.Tactic.Linarith

/-! Overlapping entries of a JIT dump (`jitsymbol.c`). An array of pointers to entries is the list of
what they point to. -/
namespace Oprofile.Opjitconv

/-- A `jitentry` with the characters of its name, allocated or not. -/
structure JitEntry where
  vma : UInt64
  code : Option Nat
  codeSize : Int32
  symbolName : List UInt8
  lifeStart : UInt64
  lifeEnd : UInt64
  deriving DecidableEq

/-- `vma + code_size`. -/
def JitEntry.endAddr (e : JitEntry) : UInt64 := e.vma + e.codeSize.toInt64.toUInt64

/-- `life_end - life_start`. -/
def JitEntry.lifetime (e : JitEntry) : UInt64 := e.lifeEnd - e.lifeStart

/-- `qsort` with `cmp_address` and with `cmp_symbolname`. -/
structure Sorts where
  address : Sorting.QSort fun a b : JitEntry => a.vma ≤ b.vma
  symbolname : Sorting.QSort fun a b : JitEntry => a.symbolName ≤ b.symbolName

/-- `entries_address_ascending` and `entries_symbols_ascending`. The second is stale while overlaps are
resolved; nothing reads it then. -/
structure Arrays where
  addressAscending : List JitEntry
  symbolsAscending : List JitEntry
  deriving DecidableEq

/-- The greatest `int`. The loops over the arrays count with one. -/
def intMax : Nat := 2 ^ 31 - 1

/-- `create_arrays` over the entries of `jitentry_list`; nothing if an `int` cannot count them. -/
def createArrays (sorts : Sorts) (jitentryList : List JitEntry) : Option Arrays :=
  if jitentryList.length ≤ intMax then
    some ⟨sorts.address.sort jitentryList, sorts.symbolname.sort jitentryList⟩
  else none

/-- `resort_address`: the invalidated entries come first and go. -/
def resortAddress (sorts : Sorts) (entries : List JitEntry) : List JitEntry :=
  (sorts.address.sort entries).dropWhile fun e => e.vma = 0

/-- `resort_symbol`. -/
def resortSymbol (sorts : Sorts) (entries : List JitEntry) : Arrays :=
  ⟨entries, sorts.symbolname.sort entries⟩

/-- `invalidate_entry`. -/
def invalidateEntry (e : JitEntry) : JitEntry := { e with vma := 0 }

/-- `invalidate_earlybirds`. -/
def invalidateEarlybirds (sorts : Sorts) (startTime : UInt64) (arrays : Arrays) : Arrays :=
  if ∃ e ∈ arrays.addressAscending, e.lifeEnd < startTime then
    resortSymbol sorts <| resortAddress sorts <| arrays.addressAscending.map fun e =>
      if e.lifeEnd < startTime then invalidateEntry e else e
  else arrays

/-- A round of the loop of `select_one`: the candidate so far and its lifetime. -/
def selectStep (entries : List JitEntry) (best : Option (Nat × UInt64)) (i : Nat) :
    Option (Nat × UInt64) :=
  match entries[i]?, best with
  | none, best => best
  | some e, none => some (i, e.lifetime)
  | some e, some (candidate, lifetime) =>
    if lifetime < e.lifetime then some (i, e.lifetime) else some (candidate, lifetime)

/-- `select_one`. -/
def selectOne (entries : List JitEntry) (startIdx endIdx : Nat) : Option Nat :=
  ((List.range' startIdx (endIdx + 1 - startIdx)).foldl (selectStep entries) none).map Prod.fst

/-- The right part that `split_entry` makes of an entry, without code. -/
def splitRight (split keep : JitEntry) : List JitEntry :=
  if keep.endAddr < split.endAddr then
    [{ vma := keep.endAddr, code := none
       codeSize := (split.endAddr - keep.endAddr).toUInt32.toInt32
       symbolName := split.symbolName ++ [0x23, 0x31]
       lifeStart := split.lifeStart, lifeEnd := split.lifeEnd }]
  else []

/-- The left part, in the place of the entry. -/
def splitLeft (split keep : JitEntry) : JitEntry :=
  if split.vma < keep.vma then
    { split with
      codeSize := (keep.vma - split.vma).toUInt32.toInt32
      symbolName := split.symbolName ++ [0x23, 0x30] }
  else invalidateEntry split

/-- The array and the total lifetime so far in `eliminate_overlaps`. -/
structure Elimination where
  entries : List JitEntry
  minStart : UInt64
  maxEnd : UInt64

/-- A round of the loop of `eliminate_overlaps`; nothing if an assertion fails. -/
def eliminateStep (debug : Bool) (keepIdx : Nat) (keep : JitEntry) (st : Elimination) (i : Nat) :
    Option Elimination :=
  if i = keepIdx then some st
  else
    match st.entries[i]? with
    | none => none
    | some e =>
      if debug ∧ ¬(e.vma ≤ e.endAddr ∧ keep.vma ≤ keep.endAddr) then none
      else if e.vma < keep.endAddr ∧ keep.vma < e.endAddr then
        some
          { entries := st.entries.set i (splitLeft e keep) ++ splitRight e keep
            minStart := if e.lifeStart < st.minStart then e.lifeStart else st.minStart
            maxEnd := if st.maxEnd < e.lifeEnd then e.lifeEnd else st.maxEnd }
      else some st

/-- `eliminate_overlaps`: the entries and the total lifetime. -/
def eliminateOverlaps (debug : Bool) (startIdx endIdx keepIdx : Nat) (keep : JitEntry)
    (entries : List JitEntry) : Option (List JitEntry × UInt64) :=
  ((List.range' startIdx (endIdx + 1 - startIdx)).foldlM (eliminateStep debug keepIdx keep)
    ⟨entries, keep.lifeStart, keep.lifeEnd⟩).map fun st => (st.entries, st.maxEnd - st.minStart)

def decimal (n : Nat) : List UInt8 := (Nat.toDigits 10 n).map fun c => UInt8.ofNat c.toNat

/-- The name with the percentage, in a buffer that is measured by the percentage as an `int`. -/
def markedName (name : List UInt8) (pct : UInt64) : List UInt8 :=
  let cnt := (decimal pct.toUInt32.toInt32.toInt.natAbs).length + name.length + 2 + 1
  (name ++ 0x25 :: decimal pct.toNat).take (cnt - 1)

/-- `handle_overlap_region`; nothing for `OP_JIT_CONV_FAIL`. -/
def handleOverlapRegion (debug : Bool) (startIdx endIdx : Nat) (entries : List JitEntry) :
    Option (List JitEntry) := do
  let idx ← selectOne entries startIdx endIdx
  let keep ← entries[idx]?
  let (entries, totaltime) ← eliminateOverlaps debug startIdx endIdx idx keep entries
  if totaltime = UInt64.ofNat (2 ^ 64 - 1) then none
  else
    let e ← entries[idx]?
    let pct := if totaltime = 0 then 100 else e.lifetime * 100 / totaltime
    some (entries.set idx { e with symbolName := markedName e.symbolName pct })

/-- Where `scan_overlaps` stands; `flag` tells that an overlap was found. -/
structure Scan where
  i : Nat
  endAddr : UInt64
  flag : Bool
  entries : List JitEntry

/-- What is done with the entries from `i` to `last` when they are followed by a gap. -/
def closeRegion (debug : Bool) (last : Nat) (st : Scan) : Option Scan :=
  if st.i ≠ last then
    (handleOverlapRegion debug st.i last st.entries).map fun entries =>
      { st with entries := entries, flag := true }
  else some st

/-- A round of the loop of `scan_overlaps`. -/
def scanStep (debug : Bool) (st : Scan) (j : Nat) : Option Scan := do
  let a ← st.entries[j - 1]?
  let st := { st with endAddr := if st.endAddr < a.endAddr then a.endAddr else st.endAddr }
  let a ← st.entries[j]?
  if st.endAddr ≤ a.vma then (closeRegion debug (j - 1) st).map fun st => { st with i := j }
  else some st

/-- `scan_overlaps`: the entries, and whether an overlap was found; nothing for `OP_JIT_CONV_FAIL` or if
an `int` cannot hold the count. -/
def scanOverlaps (debug : Bool) (entries : List JitEntry) : Option (List JitEntry × Bool) :=
  if intMax < entries.length then none
  else do
    let st ← (List.range' 1 (entries.length - 1)).foldlM (scanStep debug) ⟨0, 0, false, entries⟩
    let st ← closeRegion debug (max 1 entries.length - 1) st
    some (st.entries, st.flag)

/-- The loop of `resolve_overlaps`: the entries and whether it counted a scan; nothing when it fails or
takes more than `fuel` scans. -/
def rescan (sorts : Sorts) (debug : Bool) : Nat → List JitEntry → Option (List JitEntry × Bool)
  | 0, _ => none
  | fuel + 1, entries =>
    match scanOverlaps debug entries with
    | none => none
    | some (entries, false) => some (entries, false)
    | some (entries, true) =>
      (rescan sorts debug fuel (resortAddress sorts entries)).map fun (entries, _) => (entries, true)

/-- `resolve_overlaps`: the arrays it leaves behind when it returns `OP_JIT_CONV_OK`. -/
def resolveOverlaps (sorts : Sorts) (debug : Bool) (fuel : Nat) (startTime : UInt64) (arrays : Arrays) :
    Option Arrays :=
  let arrays := invalidateEarlybirds sorts startTime arrays
  (rescan sorts debug fuel arrays.addressAscending).map fun (entries, again) =>
    if again then resortSymbol sorts entries else { arrays with addressAscending := entries }

end Oprofile.Opjitconv
