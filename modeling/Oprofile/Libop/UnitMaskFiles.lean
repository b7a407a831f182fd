import Oprofile.Libop.UnitMasks
import Oprofile.Library.CNumbers
import Oprofile.SampleNames.Mangle
import Oprofile.Library.Results

/-! Reading the unit mask files, and merging unit masks for the events that name several (`op_events.c`). -/
namespace Oprofile.Libop.UnitMaskFiles

open SampleNames (Text)
open CNumbers
open UnitMasks (UnitMaskType maxUnitMask)

/-- Why the program does not go on: it exits with a message, the length of a text is negative, or it writes past the
table of a unit mask or into one that has been freed. -/
inductive UmStop
  | exit (context : String)
  | overrun
  | fault
  deriving DecidableEq

/-! ### Lines -/

/-- The blanks of `op_string.c`. -/
def isBlank (c : Char) : Bool := c = ' ' || c = '\t' || c = '\n'

def skipWs (c : Text) : Text := c.dropWhile isBlank

def skipNonws (c : Text) : Text := c.dropWhile fun c => !isBlank c

def emptyLine (line : Text) : Bool := (skipWs line).isEmpty

def commentLine (line : Text) : Bool := (skipWs line).head? = some '#'

/-- `sscanf` of `%x`: the number, and what is behind it. -/
def scanHex (s : Text) : Option (UInt32 × Text) :=
  let (negative, body) := splitSign (s.dropWhile isSpace)
  let text := match body with
    | '0' :: x :: d :: rest => if (x = 'x' ∨ x = 'X') ∧ isDigitOf 16 d then d :: rest else '0' :: x :: d :: rest
    | body => body
  let digits := text.takeWhile (isDigitOf 16)
  if digits = [] then none
  else
    let v := numeral 16 digits
    let value := if 2 ^ 64 ≤ v then 2 ^ 64 - 1 else if negative then (2 ^ 64 - v) % 2 ^ 64 else v
    some (UInt32.ofNat value, text.dropWhile (isDigitOf 16))

/-- `parse_hex` -/
def parseHex (str : Text) : Except UmStop UInt32 :=
  let scanned := match str with
    | '0' :: 'x' :: rest => scanHex rest
    | '0' :: 'X' :: rest => scanHex rest
    | _ => none
  match scanned with
  | some (value, _) => .ok value
  | none => .error (.exit "expected hexadecimal value")

/-- The text of a pointer and a length, which is the distance to a later pointer into the same text. -/
def textUpTo (start stop : Text) : Except UmStop Text :=
  if stop.length ≤ start.length then .ok (start.take (start.length - stop.length)) else .error .overrun

def extraEdge : UInt32 := (1 : UInt32) <<< 18
def extraAny : UInt32 := (1 : UInt32) <<< 21
def extraInv : UInt32 := (1 : UInt32) <<< 23
def extraCmaskShift : UInt32 := 24
def extraCmaskMask : UInt32 := 0xff
def extraPebs : UInt32 := (1 : UInt32) <<< 19
def extraNone : UInt32 := (1 : UInt32) <<< 22

/-- One modifier of `parse_extra`: the bits, and what is behind it. -/
def parseModifier (s : Text) : Except UmStop (UInt32 × Text) :=
  if ['e', 'd', 'g', 'e'].isPrefixOf s then .ok (extraEdge, s.drop 4)
  else if ['i', 'n', 'v'].isPrefixOf s then .ok (extraInv, s.drop 3)
  else
    match (if ['c', 'm', 'a', 's', 'k', '='].isPrefixOf s then scanHex (s.drop 6) else none) with
    | some (w, rest) => .ok ((w &&& extraCmaskMask) <<< extraCmaskShift, rest)
    | none =>
      if ['a', 'n', 'y'].isPrefixOf s then .ok (extraAny, s.drop 3)
      else if ['p', 'e', 'b', 's'].isPrefixOf s then .ok (extraPebs, s.drop 4)
      else .error (.exit "Illegal extra field modifier")

/-- The loop of `parse_extra`, whose rounds are at most as many as the characters. -/
def parseExtraLoop : Nat → UInt32 → Text → Except UmStop UInt32
  | 0, v, _ => .ok v
  | rounds + 1, v, s =>
    match s.head? with
    | none => .ok v
    | some c =>
      if isSpace c then .ok v
      else do
        let (bits, s) ← parseModifier s
        parseExtraLoop rounds (v ||| bits) (if s.head? = some ',' then s.drop 1 else s)

/-- `parse_extra` -/
def parseExtra (s : Text) : Except UmStop UInt32 := parseExtraLoop (s.length + 1) extraNone s

/-- `op_described_um` -/
structure DescribedUm where
  extra : UInt32
  value : UInt32
  name : Option Text
  desc : Text
  deriving DecidableEq

/-- What `parse_um_entry` stores first. -/
def entryValue (line : Text) : Except UmStop UInt32 := parseHex (skipWs line)

/-- What `parse_um_entry` stores behind the value. -/
def entryRest (line : Text) (value : UInt32) : Except UmStop DescribedUm :=
  let c := skipWs (skipNonws (skipWs line))
  if c = [] then .error (.exit "invalid unit mask entry")
  else if ['e', 'x', 't', 'r', 'a', ':'].isPrefixOf c then do
    let extra ← parseExtra (c.drop 6)
    let c := skipWs (skipNonws (c.drop 6))
    if c = [] then .error (.exit "invalid unit mask entry")
    else
      let name := c.takeWhile fun c => !(c = ' ' || c = '\t')
      let c := skipWs (skipNonws c)
      .ok ⟨extra, value, some name, if c = [] then name else c⟩
  else .ok ⟨0, value, none, c⟩

/-- What the line of a unit mask says. -/
structure UmLine where
  name : Option Text
  type : Option UnitMaskType
  defaultMask : Option (Except Text UInt32)
  deriving DecidableEq

/-- How `parse_um` ends. -/
inductive ParsedUm
  | includes (cpu : Text)
  | um (line : UmLine)

/-- One tag of `parse_um`, from its start, from behind its colon, and from the end of its value. -/
def parseTag (um : UmLine) (start tagend valueend : Text) : Except UmStop UmLine :=
  if ['n', 'a', 'm', 'e'].isPrefixOf start then
    if um.name.isSome then .error (.exit "duplicate name: tag")
    else (textUpTo tagend valueend).map fun name => { um with name := some name }
  else if ['t', 'y', 'p', 'e'].isPrefixOf start then
    if um.type.isSome then .error (.exit "duplicate type: tag")
    else if ['m', 'a', 'n', 'd', 'a', 't', 'o', 'r', 'y'].isPrefixOf tagend then .ok { um with type := some .mandatory }
    else if ['b', 'i', 't', 'm', 'a', 's', 'k'].isPrefixOf tagend then .ok { um with type := some .bitmask }
    else if ['e', 'x', 'c', 'l', 'u', 's', 'i', 'v', 'e'].isPrefixOf tagend then .ok { um with type := some .exclusive }
    else .error (.exit "invalid unit mask type")
  else if ['d', 'e', 'f', 'a', 'u', 'l', 't'].isPrefixOf start then
    if um.defaultMask.isSome then .error (.exit "duplicate default: tag")
    else if ['0', 'x'].isPrefixOf tagend = false then
      (textUpTo tagend valueend).map fun name => { um with defaultMask := some (.error name) }
    else (parseHex tagend).map fun mask => { um with defaultMask := some (.ok mask) }
  else .error (.exit "invalid unit mask tag")

/-- What `parse_um` checks behind its loop. -/
def finishUm (um : UmLine) : Except UmStop ParsedUm :=
  if um.name = none then .error (.exit "Missing name for unit mask")
  else if um.type = none then .error (.exit "Missing type for unit mask")
  else .ok (.um um)

theorem dropWhile_length_le (p : Char → Bool) (s : Text) : (s.dropWhile p).length ≤ s.length :=
  (List.dropWhile_sublist p).length_le

theorem skipWs_skipNonws_lt {c : Char} {s : Text} : (skipWs (skipNonws (c :: s))).length < (c :: s).length := by
  rw [skipNonws, List.length_cons]
  by_cases hblank : isBlank c = true
  · have hstays : (c :: s).dropWhile (fun c => !isBlank c) = c :: s := List.dropWhile_cons_of_neg (by simp [hblank])
    rw [hstays, skipWs, List.dropWhile_cons_of_pos hblank]
    exact Nat.lt_succ_of_le (dropWhile_length_le ..)
  · have hgoes : (c :: s).dropWhile (fun c => !isBlank c) = s.dropWhile fun c => !isBlank c :=
      List.dropWhile_cons_of_pos (by simp [hblank])
    rw [hgoes, skipWs]
    exact Nat.lt_succ_of_le ((dropWhile_length_le ..).trans (dropWhile_length_le ..))

/-- The loop of `parse_um`; its three pointers are given by the text behind them. -/
def parseUmLoop (um : UmLine) (start tagend : Text) : (valueend : Text) → Except UmStop ParsedUm
  | [] => finishUm um
  | c :: s =>
    let valueend := skipNonws (c :: s)
    let tagend := tagend.dropWhile (· ≠ ':')
    if valueend.length = tagend.length then finishUm um
    else if tagend = [] then .error (.exit "parse_um() expected :value")
    else if ['i', 'n', 'c', 'l', 'u', 'd', 'e'].isPrefixOf start then
      if um.name.isSome ∨ um.type.isSome ∨ um.defaultMask.isSome then .error (.exit "include must be on its own")
      else (textUpTo (tagend.drop 1) valueend).map .includes
    else
      match parseTag um start (tagend.drop 1) valueend with
      | .error stop => .error stop
      | .ok um => parseUmLoop um (skipWs (skipNonws (c :: s))) (skipWs (skipNonws (c :: s))) (skipWs (skipNonws (c :: s)))
termination_by valueend => valueend.length
decreasing_by exact skipWs_skipNonws_lt

/-- `parse_um`, without what it does to the list of unit masks. -/
def parseUm (line : Text) : Except UmStop ParsedUm :=
  parseUmLoop ⟨none, none, none⟩ line (line.drop 1) (line.drop 1)

/-! ### The list of unit masks -/

/-- `op_unit_mask`: `um` are the entries that have been stored. -/
structure OpUnitMask where
  name : Option Text
  num : Nat
  unitTypeMask : UnitMaskType
  defaultMask : UInt32
  defaultMaskName : Option Text
  um : List DescribedUm
  used : Bool

/-- What lies at each address, `um_list`, and the next address. An address is not given out twice. -/
structure UmState where
  ums : Nat → OpUnitMask
  umList : List Nat
  next : Nat

namespace UmState

/-- After `memset`. -/
def zeroed : OpUnitMask := ⟨none, 0, .mandatory, 0, none, [], false⟩

def init : UmState := ⟨fun _ => zeroed, [], 0⟩

variable (s : UmState)

def set (addr : Nat) (um : OpUnitMask) : UmState := { s with ums := fun a => if a = addr then um else s.ums a }

/-- `new_unit_mask`; the address is `next` before. -/
def newUnitMask : UmState :=
  { ums := fun a => if a = s.next then zeroed else s.ums a, umList := s.umList ++ [s.next], next := s.next + 1 }

/-- `free_unit_mask` -/
def freeUnitMask (addr : Nat) : UmState := { s with umList := s.umList.erase addr }

/-- What `parse_um` has stored. -/
def setLine (addr : Nat) (line : UmLine) : UmState :=
  s.set addr { s.ums addr with
    name := line.name
    unitTypeMask := line.type.getD .mandatory
    defaultMask := match line.defaultMask with
      | some (.ok mask) => mask
      | _ => 0
    defaultMaskName := match line.defaultMask with
      | some (.error name) => some name
      | _ => none }

/-- A write into the table of a unit mask. -/
def storeEntry (addr index : Nat) (entry : DescribedUm) : Except UmStop UmState :=
  if addr ∈ s.umList ∧ index < maxUnitMask then
    .ok (s.set addr { s.ums addr with um := (s.ums addr).um.take index ++ entry :: (s.ums addr).um.drop (index + 1) })
  else .error .fault

/-- An entry line: the value is stored before the rest of the line is parsed. -/
def readEntry (addr : Nat) (line : Text) : Except UmStop UmState := do
  let value ← entryValue line
  if ¬(addr ∈ s.umList ∧ (s.ums addr).num < maxUnitMask) then .error .fault
  else
    let entry ← entryRest line value
    let s ← s.storeEntry addr (s.ums addr).num entry
    .ok (s.set addr { s.ums addr with num := (s.ums addr).num + 1 })

/-- The loop of `read_unit_masks`, for the lines that are left; `included` reads the file of an include line. -/
def readLines (included : Text → UmState → Except UmStop UmState) : Option Nat → List Text → UmState →
    Except UmStop UmState
  | _, [], s => .ok s
  | um, line :: lines, s =>
    if emptyLine line || commentLine line then readLines included um lines s
    else if line.head? ≠ some '\t' then
      match parseUm line with
      | .error stop => .error stop
      | .ok (.includes cpu) =>
        match included cpu (s.newUnitMask.freeUnitMask s.next) with
        | .error stop => .error stop
        | .ok s' => readLines included (some s.next) lines s'
      | .ok (.um fields) => readLines included (some s.next) lines (s.newUnitMask.setLine s.next fields)
    else
      match um with
      | none => .error (.exit "no unit mask name line")
      | some addr =>
        match s.readEntry addr line with
        | .error stop => .error stop
        | .ok s' => readLines included (some addr) lines s'

/-- `read_unit_masks`, for the lines that `op_get_line` returns of the file of a processor; so many more files can be
opened. -/
def readUnitMasks (files : Text → Option (List Text)) : Nat → Text → UmState → Except UmStop UmState
  | 0, _, _ => .error (.exit "could not open unit mask description file")
  | depth + 1, cpu, s =>
    match files cpu with
    | none => .error (.exit "could not open unit mask description file")
    | some lines => readLines (readUnitMasks files depth) none lines s

/-! ### Merging -/

/-- `try_find_um` -/
def tryFindUm (value : Text) : Option (Nat × UmState) :=
  (s.umList.find? fun a => (s.ums a).name = some value).map fun a => (a, s.set a { s.ums a with used := true })

/-- `find_um` -/
def findUm (value : Text) : Except UmStop (Nat × UmState) :=
  match s.tryFindUm value with
  | some found => .ok found
  | none => .error (.exit "could not find unit mask")

/-- The inner loop of `merge_um`, for the entries that are left; `num` is the index of the next one. -/
def copyEntries (new : Nat) : List DescribedUm → Nat → UmState → Except UmStop (Nat × UmState)
  | [], num, s => .ok (num, s)
  | entry :: entries, num, s =>
    match s.storeEntry new num entry with
    | .error stop => .error stop
    | .ok s => copyEntries new entries (num + 1) s

/-- One round of the loop of `merge_um`, for a name; `type` is nothing before the first. -/
def mergeOne (new : Nat) (part : Text) (type : Option UnitMaskType) (num : Nat) :
    Except UmStop (UnitMaskType × Nat × UmState) := do
  let (um, s) ← s.findUm part
  let type := type.getD (s.ums um).unitTypeMask
  if (s.ums um).unitTypeMask ≠ type then .error (.exit "combined unit mask must be all the same types")
  else if type ≠ .bitmask ∧ type ≠ .exclusive then
    .error (.exit "combined unit mask must be all bitmasks or exclusive")
  else
    let entries := (s.ums um).um.take (s.ums um).num
    let s := s.set new { s.ums new with
      defaultMask := (s.ums new).defaultMask ||| (s.ums um).defaultMask
      num := (s.ums new).num + (s.ums um).num }
    if maxUnitMask < (s.ums new).num then .error (.exit "too many members in combined unit mask")
    else
      let (num, s) ← copyEntries new entries num s
      .ok (type, num, s)

/-- The loop of `merge_um`. -/
def mergeLoop (new : Nat) : List Text → Option UnitMaskType → Nat → UmState → Except UmStop (Option UnitMaskType × UmState)
  | [], type, _, s => .ok (type, s)
  | part :: parts, type, num, s =>
    match s.mergeOne new part type num with
    | .error stop => .error stop
    | .ok (type, num, s) => mergeLoop new parts (some type) num s

/-- `strsep` at commas. -/
def splitCommas : Text → List Text
  | [] => [[]]
  | c :: s =>
    if c = ',' then [] :: splitCommas s
    else
      match splitCommas s with
      | [] => [[c]]
      | part :: parts => (c :: part) :: parts

/-- `merge_um` -/
def mergeUm (value : Text) : Except UmStop (Nat × UmState) :=
  match s.tryFindUm value with
  | some found => .ok found
  | none =>
    let new := s.next
    let s := s.newUnitMask
    let s := s.set new { s.ums new with name := some value, used := true }
    match mergeLoop new (splitCommas value) none 0 s with
    | .error stop => .error stop
    | .ok (none, _) => .error (.exit "Empty unit mask")
    | .ok (some type, s) => .ok (new, s.set new { s.ums new with unitTypeMask := type })

/-- What `read_events` does for a tag `um:`. -/
def umTag (value : Text) : Except UmStop UmState :=
  if ',' ∈ value then (s.mergeUm value).map Prod.snd else (s.findUm value).map Prod.snd

/-- The tags `um:` of the events files, one after the other. -/
def readUmTags : List Text → UmState → Except UmStop UmState
  | [], s => .ok s
  | value :: values, s =>
    match s.umTag value with
    | .error stop => .error stop
    | .ok s => readUmTags values s

/-- `load_events_name`, for the values of the tags `um:` in the events files. -/
def loadEventsName (files : Text → Option (List Text)) (depth : Nat) (cpu : Text) (values : List Text) :
    Except UmStop UmState :=
  match readUnitMasks files depth cpu init with
  | .error stop => .error stop
  | .ok s => readUmTags values s

end UmState

end Oprofile.Libop.UnitMaskFiles
