import Oprofile.Daemon.SfileIdentity
import Oprofile.Daemon.IbsTrans

/-! The state of the daemon, and the anonymous mappings (`opd_anon.c`). -/
namespace Oprofile.Daemon

open SampleNames

/-- `HASH_SIZE` of `opd_anon.c`. -/
def anonHashSize : UInt64 := 1024

def anonLruSize : Nat := 8192

def anonLruAmount : Nat := anonLruSize / 8

/-- A line of `/proc/<tgid>/maps` from which `sscanf` gets six values, or seven. -/
structure MapsLine where
  start : UInt64
  stop : UInt64
  name : Option Text
  deriving DecidableEq

/-- The mappings, the hash lists, and the LRU list with the oldest first. -/
structure AnonMaps where
  anons : Nat → Option AnonMapping
  nextAnon : Nat
  hashes : UInt64 → List Nat
  lru : List Nat
  nrLru : Nat

/-- The statistics of `opd_trans.c` and `opd_ibs.c`. -/
inductive DaemonStat
  | samples | kernel | process | danglingCode
  | ibsFetchSample | ibsFetchIncomplete | ibsOpSample | ibsOpIncomplete | ibsDerivedEvent
  deriving DecidableEq

/-- What is handed to `odb_update_node_with_offset` or, for an arc to `last`, to `odb_update_node`, in a sample file
of the counter `event` or, with `ext`, of the derived event. -/
structure LogEntry where
  ext : Bool
  sfile : SfileFields
  last : Option SfileFields
  event : UInt64
  key : UInt64
  count : Nat
  deriving DecidableEq

/-- What the daemon reads, and what it has no hand in. -/
structure Surroundings where
  /-- What is in `/proc/<tgid>/cmdline`. -/
  cmdline : Int32 → Cmdline
  /-- What is in `/proc/<tgid>/maps` when `get_anon_maps` is called for the `n`-th time. -/
  maps : Nat → Int32 → List MapsLine
  /-- The entries of `/proc/modules` when they are read for the `n`-th time. -/
  modules : Nat → List KernelImage
  /-- The sfiles that are freed to open the file for the `n`-th entry logged. -/
  evicted : Nat → Sfile → Bool
  /-- What the field `fetch` points to in the memory of the `n`-th `ibs_sample` allocated. -/
  freshFetch : Nat → Option IbsFetchSample

/-- What lies at each address. Freed memory keeps what it held. -/
structure Memory where
  sfiles : Nat → SfileFields
  anons : Nat → AnonMapping
  images : Nat → KernelImage

/-- The daemon while it processes a buffer. -/
structure DaemonState where
  trans : Transient
  memory : Memory
  images : KernelImages
  nextImage : Nat
  anons : AnonMaps
  table : SfileTable
  mapsRead : Nat
  modulesRead : Nat
  ibsSamples : Nat
  stats : DaemonStat → Nat
  /-- The samples that have reached their translators. -/
  translated : List IbsSample
  logged : List LogEntry

namespace DaemonState

def bump (s : DaemonState) (stat : DaemonStat) : DaemonState :=
  { s with stats := fun x => if x = stat then s.stats x + 1 else s.stats x }

/-- `clear_trans_last` -/
def clearTransLast (s : DaemonState) : DaemonState :=
  { s with trans := { s.trans with last := none, lastAnon := none } }

/-- `clear_trans_current` -/
def clearTransCurrent (s : DaemonState) : DaemonState :=
  { s with trans := { s.trans with current := none, anon := none } }

end DaemonState

/-- `for_each_sfile`, for a function that selects the sfiles and the call-graph entries to be freed. -/
def SfileTable.forEach (tbl : SfileTable) (dead : SfileFields → Bool) : SfileTable :=
  { tbl with
    hashes := (tbl.hashes.filter fun sf => !dead sf.toSfileFields).map fun sf =>
      { sf with cgHash := sf.cgHash.filter fun cg => !dead cg } }

/-- `hash_anon` -/
def hashAnon (tgid : Int32) (app : UInt64) : UInt64 :=
  ((app >>> dcookieShift) ^^^ (tgid >>> 2).toInt64.toUInt64) &&& (anonHashSize - 1)

namespace AnonMaps

/-- `list_del` from both lists, and `free`. -/
def remove (x : AnonMaps) (a : Nat) : AnonMaps :=
  { x with
    anons := fun i => if i = a then none else x.anons i
    hashes := fun h => (x.hashes h).erase a
    lru := x.lru.erase a
    nrLru := x.nrLru - 1 }

/-- A new mapping at the end of its hash list and of the LRU list. -/
def insert (x : AnonMaps) (m : AnonMapping) : AnonMaps :=
  { anons := fun i => if i = x.nextAnon then some m else x.anons i
    nextAnon := x.nextAnon + 1
    hashes := fun h =>
      if h = hashAnon m.tgid m.appCookie then x.hashes h ++ [x.nextAnon] else x.hashes h
    lru := x.lru ++ [x.nextAnon]
    nrLru := x.nrLru + 1 }

/-- To the front of its hash list. -/
def toFront (x : AnonMaps) (hash : UInt64) (a : Nat) : AnonMaps :=
  { x with hashes := fun h => if h = hash then a :: (x.hashes h).erase a else x.hashes h }

end AnonMaps

namespace DaemonState

variable (s : DaemonState)

/-- A mapping is freed, with the sfiles and the cached pointers that lead to it. -/
def freeAnon (a : Nat) : DaemonState :=
  let s := if s.trans.lastAnon = some a then s.clearTransLast else s
  { s with table := s.table.forEach fun sf => sf.anon = some a, anons := s.anons.remove a }

/-- `do_lru`. The loop ends after the entry for which `nr_to_kill` is 0. -/
def doLru : DaemonState :=
  (s.anons.lru.take (anonLruAmount + 1)).foldl
    (fun s a => (if s.trans.anon = some a then s.clearTransCurrent else s).freeAnon a) s

/-- Whether a mapping is one of the process and application that run. -/
def ofTask (a : Nat) : Bool :=
  match s.anons.anons a with
  | some m => m.tgid = s.trans.tgid && m.appCookie = s.trans.appCookie
  | none => false

/-- `clear_anon_maps` -/
def clearAnonMaps : DaemonState :=
  ((s.anons.hashes (hashAnon s.trans.tgid s.trans.appCookie)).filter s.ofTask).foldl freeAnon s.clearTransCurrent

/-- A new mapping in memory and in the lists. -/
def allocAnon (m : AnonMapping) : DaemonState :=
  { s with
    memory := { s.memory with anons := fun a => if a = s.anons.nextAnon then m else s.memory.anons a }
    anons := s.anons.insert m }

/-- `add_anon_mapping` -/
def addAnonMapping (start stop : UInt64) (name : Text) : DaemonState :=
  let s := s.allocAnon ⟨start, stop, s.trans.tgid, s.trans.appCookie, name⟩
  if s.anons.nrLru = anonLruSize then s.doLru else s

/-- `"anon"`. -/
def anonName : Text := ['a', 'n', 'o', 'n']

/-- One line in the loop of `get_anon_maps`. -/
def getAnonLine (line : MapsLine) : DaemonState :=
  let name := line.name.getD anonName
  if name.head? = some '/' then s else s.addAnonMapping line.start line.stop (name.take 20)

/-- `get_anon_maps` -/
def getAnonMaps (sur : Surroundings) : DaemonState :=
  (sur.maps s.mapsRead s.trans.tgid).foldl getAnonLine { s with mapsRead := s.mapsRead + 1 }

/-- `anon_match` -/
def anonMatch (a : Nat) : Bool :=
  match s.anons.anons a with
  | none => false
  | some anon =>
    if s.trans.tgid ≠ anon.tgid then false
    else if s.trans.appCookie ≠ anon.appCookie then false
    else if s.trans.pc < anon.start then false
    else s.trans.pc < anon.stop

/-- The search in the hash list of `find_anon_mapping`. -/
def lookUpAnon : Option Nat :=
  (s.anons.hashes (hashAnon s.trans.tgid s.trans.appCookie)).find? s.anonMatch

/-- What `find_anon_mapping` does with the mapping it has found in the hash list. -/
def foundAnon (a : Nat) : DaemonState :=
  { s with anons := s.anons.toFront (hashAnon s.trans.tgid s.trans.appCookie) a }

/-- `find_anon_mapping` -/
def findAnonMapping (sur : Surroundings) : Option Nat × DaemonState :=
  if s.trans.anon.any s.anonMatch then (s.trans.anon, s)
  else
    match s.lookUpAnon with
    | some a => (some a, s.foundAnon a)
    | none =>
      let s := s.clearAnonMaps.getAnonMaps sur
      match s.lookUpAnon with
      | some a => (some a, s.foundAnon a)
      | none => (none, s)

end DaemonState

end Oprofile.Daemon
