import Oprofile.SampleNames.Mangle
import Mathlib.Data.List.Basic

/-! Transients, kernel images and the sfile table of the daemon (`opd_trans.h`, `opd_kernel.c`,
`opd_sfile.c`). A pointer is a number. -/
namespace Oprofile.Daemon

open SampleNames

def noCookie : UInt64 := 0

def invalidCookie : UInt64 := 0xffffffffffffffff

def unusedEmbeddedOffset : UInt64 := 0xffffffffffffffff

def dcookieShift : UInt64 := 7

def vmaShift : UInt64 := 13

/-- `HASH_BITS` of `opd_sfile.c`. -/
def hashBits : UInt64 := 2047

/-- What the command line fixes for the whole run, and which images are ignored. -/
structure Options extends SampleNames.Daemon where
  isImageIgnored : Text → Bool
  isCookieIgnored : UInt64 → Bool
  opNrCounters : Nat

structure KernelImage where
  name : Text
  start : UInt64
  stop : UInt64
  deriving DecidableEq

/-- `vmlinux_image`, `xen_image`, and the modules, the last one created first. -/
structure KernelImages where
  noVmlinux : Bool
  vmlinux : KernelImage
  xen : KernelImage
  modules : List (Nat × KernelImage)

/-- The addresses of the two images that are not allocated. -/
def vmlinuxAddr : Nat := 0

def xenAddr : Nat := 1

def KernelImage.covers (pc : UInt64) (image : KernelImage) : Bool :=
  image.start ≤ pc && pc < image.stop

/-- `find_kernel_image`. -/
def findKernelImage (ks : KernelImages) (pc : UInt64) : Option (Nat × KernelImage) :=
  if ks.noVmlinux then some (vmlinuxAddr, ks.vmlinux)
  else if ks.vmlinux.covers pc then some (vmlinuxAddr, ks.vmlinux)
  else
    match ks.modules.find? fun module => module.2.covers pc with
    | some module => some module
    | none => if ks.xen.covers pc then some (xenAddr, ks.xen) else none

/-- An `anon_mapping` without its links. -/
structure AnonMapping where
  start : UInt64
  stop : UInt64
  tgid : Int32
  appCookie : UInt64
  name : Text
  deriving DecidableEq

inductive TracingType
  | off | start | on
  deriving DecidableEq

/-- A `transient` without its buffer and `ext`. -/
structure Transient where
  tracing : TracingType
  current : Option Nat
  last : Option Nat
  anon : Option Nat
  lastAnon : Option Nat
  cookie : UInt64
  appCookie : UInt64
  pc : UInt64
  lastPc : UInt64
  event : UInt64
  inKernel : Int
  cpu : UInt64
  tid : Int32
  tgid : Int32
  embeddedOffset : UInt64
  deriving DecidableEq

/-- The fields of an sfile that `sfile_dup` copies; each of its `files` holds the address of its
data, if it is open. -/
structure SfileFields where
  hashval : UInt64
  cookie : UInt64
  appCookie : UInt64
  tid : Int32
  tgid : Int32
  cpu : UInt32
  kernel : Option Nat
  anon : Option Nat
  embeddedOffset : UInt64
  ignored : Bool
  files : List (Option Nat)
  deriving DecidableEq

/-- An sfile and where it lies. The slots of `cg_hash` are all in one: the entries of a slot are those
whose `to` has its hash value, the last one created first. -/
structure Sfile extends SfileFields where
  addr : Nat
  cgHash : List SfileFields
  deriving DecidableEq

/-- The hash lists, all in one: the sfiles of a bucket are those with its hash value, the last one
created first. `kernel_cmdlines` notes for a pid whether it has a command line. -/
structure SfileTable where
  hashes : List Sfile
  kernelCmdlines : List (Int32 × Bool)
  nextSfile : Nat
  deriving DecidableEq

/-- A pid, shifted and widened with its sign. -/
def pidBits (pid : Int32) : UInt64 := (pid <<< 2).toInt64.toUInt64

section Lookup

variable (o : Options) (anons : Nat → Option AnonMapping) (t : Transient)

/-- Whether `app_cookie` tells sfiles apart. -/
def separatesApp (anon ki : Option Nat) : Bool :=
  o.separateKernel || ((anon.isSome || o.separateLib) && ki.isNone)

/-- `sfile_hash`; it reads the mapping that `trans->anon` points to. -/
def sfileHash (ki : Option (Nat × KernelImage)) : Option UInt64 :=
  let val : UInt64 := 0
  let val := if o.separateThread then val ^^^ pidBits t.tid ^^^ pidBits t.tgid else val
  let val :=
    if separatesApp o t.anon (ki.map Prod.fst) then val ^^^ (t.appCookie >>> (dcookieShift + 3)) else val
  let val := if o.separateCpu then val ^^^ t.cpu else val
  match (if t.inKernel ≠ 0 then ki else none) with
  | some (_, image) => some ((val ^^^ (image.start >>> 14) ^^^ (image.stop >>> 7)) &&& hashBits)
  | none =>
    if t.cookie ≠ noCookie then some ((val ^^^ (t.cookie >>> dcookieShift)) &&& hashBits)
    else
      let val := if o.separateThread then val else val ^^^ pidBits t.tgid
      match t.anon with
      | none => some (val &&& hashBits)
      | some a =>
        (anons a).map fun anon =>
          (val ^^^ (anon.start >>> vmaShift) ^^^ (anon.stop >>> (vmaShift + 1))) &&& hashBits

/-- `do_match`. -/
def doMatch (sf : SfileFields) (cookie appCookie : UInt64) (ki anon : Option Nat) (tgid tid : Int32)
    (cpu : UInt32) : Bool :=
  if sf.kernel ≠ ki then false
  else if o.separateThread ∧ (sf.tid ≠ tid ∨ sf.tgid ≠ tgid) then false
  else if o.separateCpu ∧ sf.cpu ≠ cpu then false
  else if separatesApp o anon ki ∧ sf.appCookie ≠ appCookie then false
  else if ki.isSome then true
  else if sf.anon ≠ anon then false
  else sf.cookie = cookie

/-- `trans_match`. -/
def transMatch (sf : SfileFields) (ki : Option Nat) : Bool :=
  doMatch o sf t.cookie t.appCookie ki t.anon t.tgid t.tid t.cpu.toUInt32

/-- `sfile_equal`. -/
def sfileEqual (sf sf2 : SfileFields) : Bool :=
  doMatch o sf sf2.cookie sf2.appCookie sf2.kernel sf2.anon sf2.tgid sf2.tid sf2.cpu

/-- `is_sf_ignored`, from the name of the kernel image. -/
def isSfIgnored (kernel : Option Text) (anon : Option Nat) (cookie appCookie : UInt64) : Bool :=
  match kernel with
  | some name => if o.isImageIgnored name then o.isCookieIgnored appCookie else false
  | none =>
    if anon.isSome || o.isCookieIgnored cookie then o.isCookieIgnored appCookie else false

/-- `create_sfile`. -/
def createSfile (addr : Nat) (hash : UInt64) (ki : Option (Nat × KernelImage)) : Sfile :=
  let cookie := if t.inKernel ≠ 0 then invalidCookie else t.cookie
  let appCookie := if separatesApp o t.anon (ki.map Prod.fst) then t.appCookie else invalidCookie
  { hashval := hash
    cookie := cookie
    appCookie := if t.embeddedOffset ≠ unusedEmbeddedOffset then t.appCookie else appCookie
    tid := if o.separateThread then t.tid else -1
    tgid := if o.separateThread ∨ t.cookie = noCookie then t.tgid else -1
    cpu := if o.separateCpu then t.cpu.toUInt32 else 0
    kernel := ki.map Prod.fst
    anon := t.anon
    embeddedOffset := t.embeddedOffset
    ignored := isSfIgnored o (ki.map (·.2.name)) t.anon cookie appCookie
    files := List.replicate o.opNrCounters none
    addr := addr
    cgHash := [] }

/-- What the daemon finds in `/proc/<tgid>/cmdline`. -/
inductive Cmdline
  | unreadable | empty | present
  deriving DecidableEq

/-- The search in `kernel_cmdlines`: whether a kernel sample without application is kept. -/
def checkCmdline (cmdlines : List (Int32 × Bool)) (c : Cmdline) : Bool × List (Int32 × Bool) :=
  match cmdlines.find? fun kcmd => kcmd.1 = t.tgid with
  | some kcmd => (!kcmd.2, cmdlines)
  | none =>
    match c with
    | .empty => (true, (t.tgid, false) :: cmdlines)
    | .unreadable => (false, (t.tgid, true) :: cmdlines)
    | .present => (false, (t.tgid, true) :: cmdlines)

/-- What `sfile_find` returns, and whether it was in the table. -/
inductive Found
  | lost
  | hit (addr : Nat)
  | created (addr : Nat)
  deriving DecidableEq

def Found.sfile : Found → Option Nat
  | .lost => none
  | .hit addr => some addr
  | .created addr => some addr

/-- `sfile_find` from `find_sfile` on, without the steps on the LRU list. -/
def findSfile (ki : Option (Nat × KernelImage)) (tbl : SfileTable) : Option (Found × SfileTable) :=
  (sfileHash o anons t ki).map fun hash =>
    match tbl.hashes.find? fun sf =>
        decide (sf.hashval = hash) && transMatch o t sf.toSfileFields (ki.map Prod.fst) with
    | some sf => (.hit sf.addr, tbl)
    | none =>
      (.created tbl.nextSfile,
        { tbl with
          hashes := createSfile o t tbl.nextSfile hash ki :: tbl.hashes
          nextSfile := tbl.nextSfile + 1 })

/-- `sfile_find`, without the steps on the LRU list. -/
def sfileFind (ks : KernelImages) (c : Cmdline) (tbl : SfileTable) : Option (Found × SfileTable) :=
  if t.inKernel = -1 then some (.lost, tbl)
  else if t.inKernel ≠ 0 then
    match findKernelImage ks t.pc with
    | none => some (.lost, tbl)
    | some ki =>
      if t.tgid = 0 ∨ t.tgid = 1 ∨ t.tgid = 2 then findSfile o anons t (some ki) tbl
      else if t.appCookie = noCookie then
        let (kept, cmdlines) := checkCmdline t tbl.kernelCmdlines c
        let tbl := { tbl with kernelCmdlines := cmdlines }
        if kept then findSfile o anons t (some ki) tbl else some (.lost, tbl)
      else findSfile o anons t (some ki) tbl
  else if t.cookie = noCookie ∧ t.anon = none then some (.lost, tbl)
  else findSfile o anons t none tbl

end Lookup

end Oprofile.Daemon
