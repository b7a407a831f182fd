import Oprofile.Operf.ProcessInfo

/-! Kernel images and sample files of operf (`operf_kernel.cpp`, `operf_sfile.cpp`). -/
namespace Oprofile.Operf

structure KernelImage where
  name : CString
  start : UInt64
  stop : UInt64
  deriving DecidableEq

/-- The images known: `vmlinux_image`, and the modules, the last one created first. An image is
referred to by its number, zero for vmlinux. -/
structure KernelImages where
  noVmlinux : Bool
  vmlinux : KernelImage
  modules : List (Nat × KernelImage)

namespace KernelImages

/-- `operf_create_module`. -/
def createModule (ks : KernelImages) (name : CString) (start stop : UInt64) : KernelImages :=
  { ks with modules := (ks.modules.length + 1, ⟨name, start, stop⟩) :: ks.modules }

def covers (pc : UInt64) (image : KernelImage) : Bool := image.start ≤ pc && pc < image.stop

/-- `operf_find_kernel_image`. -/
def findKernelImage (ks : KernelImages) (pc : UInt64) : Option (Nat × KernelImage) :=
  if ks.noVmlinux then some (0, ks.vmlinux)
  else if covers pc ks.vmlinux then some (0, ks.vmlinux)
  else ks.modules.find? (covers pc ·.2)

end KernelImages

/-- An `operf_sfile`. Its `app_filename` is the address of the buffer in `trans`, so only the
length of the application's name is its own. -/
structure OperfSfile where
  id : Nat
  hashval : UInt64
  imageName : CString
  imageLen : Nat
  appLen : Nat
  tid : UInt32
  tgid : UInt32
  cpu : UInt32
  kernel : Option (Nat × KernelImage)
  isAnon : Bool
  startAddr : UInt64
  endAddr : UInt64
  deriving DecidableEq

/-- An `operf_transient`. -/
structure OperfTransient where
  current : Option OperfSfile
  last : Option OperfSfile
  isAnon : Bool
  curProcinfo : Option UInt32
  pc : UInt64
  imageName : Option CString
  appFilename : CString
  imageLen : Nat
  appLen : Nat
  lastPc : UInt64
  event : Int
  sampleId : UInt64
  inKernel : Bool
  cpu : UInt32
  tid : UInt32
  tgid : UInt32
  startAddr : UInt64
  endAddr : UInt64

/-- The static `trans` before anything is done. -/
def OperfTransient.zero : OperfTransient where
  current := none
  last := none
  isAnon := false
  curProcinfo := none
  pc := 0
  imageName := none
  appFilename := []
  imageLen := 0
  appLen := 0
  lastPc := 0
  event := 0
  sampleId := 0
  inKernel := false
  cpu := 0
  tid := 0
  tgid := 0
  startAddr := 0
  endAddr := 0

/-- A `char`, widened with its sign. -/
def charBits (c : Char) : UInt64 :=
  if c.toNat % 256 < 128 then UInt64.ofNat (c.toNat % 256)
  else UInt64.ofNat (c.toNat % 256) + 0xffffffffffffff00

/-- The loop over the last characters of a name, at most 16. -/
def hashName (val : UInt64) (name : CString) : UInt64 :=
  (name.drop (name.length - min 16 name.length)).foldl (fun v c => ((v <<< 5) + v) ^^^ charBits c) val

/-- `sfile_hash`, by the fields of the transient it reads. -/
def sfileHash (separateCpu : Bool) (tgid cpu : UInt32) (isAnon : Bool) (startAddr endAddr : UInt64)
    (appFilename imageName : CString) (ki : Option KernelImage) : UInt64 :=
  let val : UInt64 := (tgid <<< 2).toUInt64
  let val := if separateCpu then val ^^^ cpu.toUInt64 else val
  let val :=
    match ki with
    | some ki => val ^^^ (ki.start >>> 14) ^^^ (ki.stop >>> 7)
    | none => val
  let val :=
    if isAnon then val ^^^ (startAddr >>> 13) ^^^ (endAddr >>> 14)
    else hashName (hashName val appFilename) imageName
  val &&& 2047

/-- `do_match`. The names of the applications are one and the same buffer, and equal. -/
def doMatch (separateCpu : Bool) (sf : OperfSfile) (ki : Option (Nat × KernelImage)) (isAnon : Bool)
    (imageName : CString) (imageLen appLen : Nat) (tgid tid cpu : UInt32) : Bool :=
  if sf.kernel.map Prod.fst ≠ ki.map Prod.fst then false
  else if sf.tid ≠ tid ∨ sf.tgid ≠ tgid then false
  else if sf.isAnon ≠ isAnon then false
  else if sf.appLen ≠ appLen ∨ sf.imageLen ≠ imageLen then false
  else if separateCpu ∧ sf.cpu ≠ cpu then false
  else if ki.isSome then true
  else sf.imageName.take (min sf.imageLen imageLen) == imageName.take (min sf.imageLen imageLen)

/-- The hash lists, all in one: the files of a bucket are those with its hash value, the last one
created first. `nextSfile` tells files apart. -/
structure Sfiles where
  hashes : List OperfSfile
  nextSfile : Nat

/-- `create_sfile`. -/
def createSfile (separateCpu : Bool) (id : Nat) (hash : UInt64) (trans : OperfTransient)
    (imageName : CString) (ki : Option (Nat × KernelImage)) : OperfSfile where
  id := id
  hashval := hash
  imageName := imageName
  imageLen := trans.imageLen
  appLen := trans.appLen
  tid := trans.tid
  tgid := trans.tgid
  cpu := if separateCpu then trans.cpu else 0
  kernel := ki
  isAnon := trans.isAnon
  startAddr := trans.startAddr
  endAddr := trans.endAddr

/-- `operf_sfile_find` once the kernel image is known. -/
def sfileFind (separateCpu : Bool) (sfs : Sfiles) (trans : OperfTransient) (imageName : CString)
    (ki : Option (Nat × KernelImage)) : OperfSfile × Sfiles :=
  let hash := sfileHash separateCpu trans.tgid trans.cpu trans.isAnon trans.startAddr trans.endAddr
    trans.appFilename imageName (ki.map Prod.snd)
  match (sfs.hashes.filter (·.hashval = hash)).find? fun sf => doMatch separateCpu sf ki trans.isAnon
      imageName trans.imageLen trans.appLen trans.tgid trans.tid trans.cpu with
  | some sf => (sf, sfs)
  | none =>
    let sf := createSfile separateCpu sfs.nextSfile hash trans imageName ki
    (sf, { hashes := sf :: sfs.hashes, nextSfile := sfs.nextSfile + 1 })

end Oprofile.Operf
