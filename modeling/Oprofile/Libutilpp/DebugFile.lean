import Oprofile.Library.ByteOrder
import Oprofile.Libutil.Crc32

/-! Finding the separate debug file of a binary (`libutil++/bfd_support.cpp`). -/
namespace Oprofile.Libutilpp

open Libutil

/-- `file.read(buffer, sizeof(buffer))` until the stream fails, which a read of less than the buffer makes it. -/
def readCrc (fileCrc : UInt64) (file : List UInt8) : UInt64 :=
  let buffer := file.take (2 * 1024)
  if h : buffer.length < 2 * 1024 then calcCrc32 fileCrc buffer
  else readCrc (calcCrc32 fileCrc buffer) (file.drop (2 * 1024))
termination_by file.length
decreasing_by
  rw [List.length_take] at h
  rw [List.length_drop]
  omega

/-- Where `extra.find_image_path` finds an image (none is `img_ok != image_ok`), and the contents of the files that open. -/
structure Files where
  findImagePath : String → Option String
  contents : String → Option (List UInt8)

/-- `separate_debug_file_exists`: its result, and what it leaves in `name`. -/
def separateDebugFileExists (files : Files) (name : String) (crc : UInt64) : Bool × String :=
  match files.findImagePath name with
  | none => (false, name)
  | some imagePath =>
    match files.contents imagePath with
    | none => (false, imagePath)
    | some file => (crc == readCrc 0 file, imagePath)

/-- A binary: its byte order, and its sections by name, each with its contents if these can be read. -/
structure Bfd where
  order : ByteOrder.Order
  sections : String → Option (Option (List UInt8))

/-- How `get_build_id` ends: with what it has put into `build_id`, false, its exception, or an access outside the
section or the caller's buffer. -/
inductive BuildId
  | found (buildId : List UInt8)
  | missing
  | fatalError
  | fault
  deriving DecidableEq

def bfdGet32 (order : ByteOrder.Order) (contents : List UInt8) (ptr : Nat) : Option Nat :=
  if ptr + 4 ≤ contents.length then some (order.gather 4 ((contents.drop ptr).take 4)) else none

/-- `"GNU"` with the zero byte that ends it. -/
def gnu : List UInt8 := [0x47, 0x4e, 0x55, 0]

/-- `strcmp(s, ptr) == 0`, which reads up to the first difference. -/
def strcmpIs (contents : List UInt8) : List UInt8 → Nat → Option Bool
  | [], _ => some true
  | c :: s, ptr =>
    match contents[ptr]? with
    | none => none
    | some b => if c = b then strcmpIs contents s (ptr + 1) else some false

/-- The loop over the section. The header is read from its start in every round. -/
def getBuildIdLoop (order : ByteOrder.Order) (contents : List UInt8) (ptr : Nat) : BuildId :=
  if ptr < contents.length then
    match bfdGet32 order contents 0, bfdGet32 order contents 4, bfdGet32 order contents 8 with
    | some nNamesz, some nDescsz, some nType =>
      let name := ptr + 12
      match if nType = 3 ∧ nNamesz = 4 then strcmpIs contents gnu name else some false with
      | none => .fault
      | some true =>
        if name + nNamesz + nDescsz ≤ contents.length ∧ nDescsz ≤ 64 then
          .found ((contents.drop (name + nNamesz)).take nDescsz)
        else .fault
      | some false => getBuildIdLoop order contents (name + (nNamesz + nDescsz) % 2 ^ 32)
    | _, _, _ => .fault
  else .missing
termination_by contents.length - ptr

/-- The section that is searched. -/
def Bfd.buildIdSection (ibfd : Bfd) : Option (Option (List UInt8)) :=
  match ibfd.sections ".note.gnu.build-id" with
  | some sect => some sect
  | none => ibfd.sections ".notes"

def getBuildId (ibfd : Bfd) : BuildId :=
  match ibfd.buildIdSection with
  | none => .missing
  | some none => .fatalError
  | some (some contents) => getBuildIdLoop ibfd.order contents 0

/-! ### The checksum is that of the whole file, however it is read -/

variable {c : UInt64} {buffers : List (List UInt8)} {file : List UInt8}

/-- Buffer by buffer, the checksum is that of all of them in one. -/
theorem foldl_calcCrc32 (c : UInt64) (a : List UInt8) (buffers : List (List UInt8)) :
    buffers.foldl calcCrc32 (calcCrc32 c a) = calcCrc32 c (a ++ buffers.flatten) := by
  induction buffers generalizing a with
  | nil => rw [List.foldl_nil, List.flatten_nil, List.append_nil]
  | cons b buffers ih =>
    rw [List.foldl_cons, calcCrc32_append, ih, List.flatten_cons, List.append_assoc]

theorem readCrc_eq (c : UInt64) (file : List UInt8) : readCrc c file = calcCrc32 c file := by
  fun_induction readCrc c file with
  | case1 c file buffer hshort =>
    have hall : buffer = file := by
      apply List.take_of_length_le
      rw [List.length_take] at hshort
      omega
    rw [hall]
  | case2 c file buffer hfull ih =>
    rw [ih, calcCrc32_append, List.take_append_drop]

theorem readCrc_zero (file : List UInt8) : readCrc 0 file = widen (crc32 file) := by
  rw [readCrc_eq, calcCrc32_zero]

theorem separateDebugFileExists_iff (files : Files) (name : String) (crc : UInt64) :
    (separateDebugFileExists files name crc).1 = true ↔
      ∃ path file, files.findImagePath name = some path ∧ files.contents path = some file ∧ crc = widen (crc32 file) := by
  rw [separateDebugFileExists]
  cases hpath : files.findImagePath name with
  | none => simp
  | some path =>
    cases hfile : files.contents path with
    | none => simp [hfile]
    | some file => simp [hfile, readCrc_zero]

/-- The table method composes and is the division bit by bit; a debug file is accepted on the checksum of its contents. -/
theorem calcCrc32_standard :
    (∀ (c : UInt64) (a b : List UInt8), calcCrc32 (calcCrc32 c a) b = calcCrc32 c (a ++ b)) ∧
    (∀ a : List UInt8, calcCrc32 0 a = widen (crc32 a)) ∧
    (∀ buffers : List (List UInt8), buffers.foldl calcCrc32 0 = widen (crc32 buffers.flatten)) ∧
    (∀ file : List UInt8, readCrc 0 file = widen (crc32 file)) ∧
    ∀ (files : Files) (name : String) (crc : UInt64),
      (separateDebugFileExists files name crc).1 = true ↔
        ∃ path file, files.findImagePath name = some path ∧ files.contents path = some file ∧
          crc = widen (crc32 file) := by
  refine ⟨calcCrc32_append, calcCrc32_zero, ?_, readCrc_zero, separateDebugFileExists_iff⟩
  intro buffers
  have hzero : calcCrc32 0 [] = 0 := by decide
  have hfold := foldl_calcCrc32 0 [] buffers
  rw [hzero, List.nil_append, calcCrc32_zero] at hfold
  exact hfold

end Oprofile.Libutilpp
