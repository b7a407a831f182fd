import Oprofile.Daemon.Trans
import Oprofile.Library.DoublyLinked

/-! The LRU list of the sfiles (`opd_sfile.c`), and opening a sample file (`opd_mangling.c`). -/
namespace Oprofile.Daemon

open DoublyLinked

/-- The sfiles and `lru_list`. A link leads to the head of the list, or to the sfile at an address. The entries for
call graphs have links of their own that lead to themselves. -/
structure LruState where
  table : SfileTable
  lru : Cells (Option Nat)

/-- Why a function does not return: the program is aborted, or it reads freed memory or runs on for ever. -/
inductive LruStop
  | aborted
  | stuck
  deriving DecidableEq

namespace LruState

variable (s : LruState)

def init : LruState where
  table := { hashes := [], kernelCmdlines := [], nextSfile := 0 }
  lru := ⟨fun a => a, fun a => a⟩

/-- `sfile_get` -/
def sfileGet : Option Nat → LruState
  | none => s
  | some sf => { s with lru := s.lru.delete (some sf) }

/-- `sfile_put` -/
def sfilePut : Option Nat → LruState
  | none => s
  | some sf => { s with lru := s.lru.addTail (some sf) none }

/-- `sfile_find`, with its steps on the list. -/
def sfileFind (o : Options) (anons : Nat → Option AnonMapping) (t : Transient) (ks : KernelImages) (c : Cmdline) :
    Except LruStop LruState :=
  match Daemon.sfileFind o anons t ks c s.table with
  | none => .error .stuck
  | some (.lost, table) => .ok { s with table }
  | some (.hit sf, table) => .ok (({ s with table } : LruState).sfileGet (some sf) |>.sfilePut (some sf))
  | some (.created sf, table) => .ok (({ s with table } : LruState).sfilePut (some sf))

/-- `for_one_sfile`, for a function that selects the sfiles to be killed. -/
def forOneSfile (func : SfileFields → Bool) (addr : Nat) : Except LruStop LruState :=
  match s.table.at addr with
  | none => .error .stuck
  | some sf =>
    if func sf.toSfileFields then
      .ok { table := s.table.clear fun sf => sf.addr = addr, lru := s.lru.delete (some addr) }
    else
      .ok { s with table := { s.table with
        hashes := s.table.hashes.map fun sf =>
          if sf.addr = addr then { sf with cgHash := sf.cgHash.filter fun cg => !func cg } else sf } }

/-- The loop of `for_each_sfile` from a place of the list; it is stuck if it visits more entries than there are. -/
def forEachLoop (func : SfileFields → Bool) : Nat → Option Nat → LruState → Except LruStop LruState
  | _, none, s => .ok s
  | 0, some _, _ => .error .stuck
  | rounds + 1, some pos, s => do
    let pos2 := s.lru.next (some pos)
    let s ← s.forOneSfile func pos
    forEachLoop func rounds pos2 s

/-- `for_each_sfile` -/
def forEachSfile (func : SfileFields → Bool) : Except LruStop LruState :=
  forEachLoop func s.table.hashes.length (s.lru.next none) s

/-- `sfile_clear_kernel` -/
def sfileClearKernel : Except LruStop LruState := s.forEachSfile fun sf => sf.kernel.isSome

/-- `sfile_clear_anon` -/
def sfileClearAnon (anon : Nat) : Except LruStop LruState := s.forEachSfile fun sf => sf.anon = some anon

def lruAmount : Nat := 256

/-- The loop of `sfile_lru_clear`, which breaks off when `--amount` is 0. -/
def lruClearLoop : Nat → Option Nat → LruState → Except LruStop LruState
  | _, none, s => .ok s
  | 0, some _, s => .ok s
  | amount + 1, some pos, s =>
    if amount = 0 then .ok s
    else do
      let pos2 := s.lru.next (some pos)
      let s ← s.forOneSfile (fun _ => true) pos
      lruClearLoop amount pos2 s

/-- `sfile_lru_clear`, with what it returns. -/
def sfileLruClear : Except LruStop (Nat × LruState) :=
  if s.lru.next none = none then .ok (1, s)
  else (lruClearLoop lruAmount (s.lru.next none) s).map fun s => (0, s)

/-- The loop at `retry`: `odb_open` fails with `EMFILE` so many times, and then ends in another way. -/
def retryLoop : Nat → LruState → Except LruStop LruState
  | 0, s => .ok s
  | emfiles + 1, s => do
    let (full, s) ← s.sfileLruClear
    if full ≠ 0 then .error .aborted else retryLoop emfiles s

/-- What is on the list again after `out:` -/
def putBoth (sf : Nat) (last : Option Nat) : LruState :=
  let s := s.sfilePut (some sf)
  if some sf ≠ last then s.sfilePut last else s

/-- `opd_open_sample_file`, by whether the name can be mangled and the path created. -/
def opdOpenSampleFile (sf : Nat) (last : Option Nat) (mangled created : Bool) (emfiles : Nat) :
    Except LruStop LruState :=
  if !mangled then .ok s
  else if !created then .ok (s.putBoth sf last)
  else do
    let s := s.sfileGet (some sf)
    let s := if some sf ≠ last then s.sfileGet last else s
    let s ← retryLoop emfiles s
    .ok (s.putBoth sf last)

end LruState

end Oprofile.Daemon
