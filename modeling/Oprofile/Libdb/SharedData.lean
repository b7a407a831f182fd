import Oprofile.Libdb.OdbOpen
import Oprofile.Library.Sharing

/-! Handles on sample files; those on one file share an `odb_data_t` (`db_manage.c`). -/
namespace Oprofile.Libdb

/-- `op_hash_string`. The characters are signed. -/
def opHashString (str : List UInt8) : UInt64 :=
  str.foldl (fun hash c => hash ^^^ ((hash <<< 16) ^^^ (hash >>> 8) ^^^ c.toInt8.toInt64.toUInt64)) 0

def filesHashSize : UInt64 := 512

/-- The chain that a file is in. -/
def filesHashOf (filename : List UInt8) : UInt64 := opHashString filename % filesHashSize

/-- An `odb_data_t` in memory; nothing is mapped when its file could not be opened. -/
structure SharedData where
  filename : List UInt8
  refCount : Nat
  store : Option OdbData

/-- What lies at each address (nothing where it has been freed), the next address, `files_hash`, and the field `data`
of each handle. An address is not given out twice. -/
structure OdbState (H : Type) where
  data : Nat → Option SharedData
  next : Nat
  filesHash : UInt64 → List Nat
  handle : H → Option Nat

namespace OdbState

variable {H : Type} (s : OdbState H)

/-- Every handle after `odb_init`. -/
def init : OdbState H where
  data := fun _ => none
  next := 0
  filesHash := fun _ => []
  handle := fun _ => none

/-- The search in a chain; it reads freed memory if an entry has been freed. -/
def findInChain (filename : List UInt8) : List Nat → Option (Option Nat)
  | [] => some none
  | entry :: chain =>
    match s.data entry with
    | none => none
    | some data => if data.filename = filename then some (some entry) else findInChain filename chain

/-- `find_samples_data` -/
def findSamplesData (filename : List UInt8) : Option (Option Nat) :=
  s.findInChain filename (s.filesHash (filesHashOf filename))

/-- `odb_open_count` -/
def odbOpenCount (h : H) : Option Nat :=
  match s.handle h with
  | none => some 0
  | some a => (s.data a).map SharedData.refCount

/-- `odb_update_node` and its kin, for whatever they do to what is mapped. -/
def odbUpdate (h : H) (change : OdbData → OdbData) : Option (OdbState H) :=
  match s.handle h with
  | none => none
  | some a =>
    (s.data a).map fun data =>
      { s with data := Function.update s.data a (some { data with store := data.store.map change }) }

variable [DecidableEq H]

/-- `odb_open`, with the errors of the system calls and the file that is there. It returns from `out` when `open` fails,
and by `fail` for all other errors. -/
def odbOpen (h : H) (filename : List UInt8) (errors : OpenErrors) (rw : OdbRw) (file : ByteMem.File)
    (sizeofHeader : Nat) : Option (Except Nat Unit × OdbState H) :=
  match s.findSamplesData filename with
  | none => none
  | some (some a) =>
    (s.data a).map fun data =>
      (.ok (), { s with
        data := Function.update s.data a (some { data with refCount := data.refCount + 1 })
        handle := Function.update s.handle h (some a) })
  | some none =>
    match errors.openFile with
    | some err =>
      some (.error err, { s with
        data := Function.update s.data s.next (some ⟨filename, 1, none⟩)
        next := s.next + 1 })
    | none =>
      match Libdb.odbOpen errors rw file sizeofHeader with
      | .error err => some (.error err, { s with next := s.next + 1, handle := Function.update s.handle h none })
      | .ok store =>
        some (.ok (), {
          data := Function.update s.data s.next (some ⟨filename, 1, some store⟩)
          next := s.next + 1
          filesHash := Function.update s.filesHash (filesHashOf filename) (s.next :: s.filesHash (filesHashOf filename))
          handle := Function.update s.handle h (some s.next) })

/-- `odb_close`; the handle is cleared only when the data is freed. -/
def odbClose (h : H) : Option (OdbState H) :=
  match s.handle h with
  | none => some s
  | some a =>
    (s.data a).map fun data =>
      if data.refCount - 1 = 0 then
        { s with
          data := Function.update s.data a none
          filesHash := fun b => (s.filesHash b).erase a
          handle := Function.update s.handle h none }
      else { s with data := Function.update s.data a (some { data with refCount := data.refCount - 1 }) }

end OdbState

end Oprofile.Libdb
