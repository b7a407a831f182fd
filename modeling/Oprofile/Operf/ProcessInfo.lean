import Oprofile.Library.KeyMap

/-! Processes, their application names and their mappings (`operf_process_info.cpp`). -/
namespace Oprofile.Operf

/-- A C string, one character for each byte. -/
abbrev CString := List Char

/-- An `operf_mmap` on the heap. -/
abbrev MmapId := Nat

structure OperfMmap where
  startAddr : UInt64
  endAddr : UInt64
  pgoff : UInt64
  isAnonMapping : Bool
  isHypervisor : Bool
  filename : CString
  deriving DecidableEq

inductive OpFullname
  | notFullname
  | maybeFullname
  | yesFullname
  deriving DecidableEq

structure ProcessInfo where
  pid : UInt32
  appname : CString
  valid : Bool
  appnameValid : Bool
  lookForAppnameMatch : Bool
  forked : Bool
  appnameIsFullname : OpFullname
  appBasename : CString
  numAppCharsMatched : Int
  mmappings : List (UInt64 × MmapId)
  mmappingsFromParent : UInt64 → Bool
  forkedProcesses : List UInt32
  parentOfFork : Option UInt32

/-- `is_appname_valid`. -/
def ProcessInfo.isAppnameValid (p : ProcessInfo) : Bool := p.valid && p.appnameValid

/-- Keys of type `u64`. -/
def addrLt (a b : UInt64) : Bool := a < b

/-- Keys of type `pid_t`, which is signed. -/
def pidLt (a b : UInt32) : Bool := a.toInt32 < b.toInt32

theorem addrLt_strictOrder : KeyMap.StrictOrder addrLt where
  irrefl := fun a => by simp [addrLt]
  trans := fun a b c hab hbc => by
    simp only [addrLt, decide_eq_true_eq] at *
    exact UInt64.lt_trans hab hbc
  total := fun a b hne hlt => by
    simp only [addrLt, decide_eq_true_eq, decide_eq_false_iff_not, UInt64.not_lt] at *
    exact UInt64.lt_of_le_of_ne hlt (Ne.symm hne)

theorem pidLt_strictOrder : KeyMap.StrictOrder pidLt where
  irrefl := fun a => by simp [pidLt, Int32.lt_irrefl]
  trans := fun a b c hab hbc => by
    simp only [pidLt, decide_eq_true_eq] at *
    exact Int32.lt_trans hab hbc
  total := fun a b hne hlt => by
    simp only [pidLt, decide_eq_true_eq, decide_eq_false_iff_not, Int32.not_lt] at *
    refine Int32.lt_of_le_of_ne hlt fun heq => hne ?_
    rw [← UInt32.toUInt32_toInt32 a, ← heq, UInt32.toUInt32_toInt32]

theorem pidLt_asymm {a b : UInt32} (h : pidLt a b = true) : pidLt b a = false := by
  cases hlt : pidLt b a with
  | false => rfl
  | true =>
    have hself := pidLt_strictOrder.trans _ _ _ h hlt
    rw [pidLt_strictOrder.irrefl] at hself
    cases hself

/-- `erase_trailing_path_separator`, on the reversed name. -/
def eraseTrailingSeparator : List Char → List Char
  | [] => []
  | [c] => [c]
  | c :: cs => if c = '/' then eraseTrailingSeparator cs else c :: cs

/-- `op_basename`. -/
def opBasename (path : CString) : CString :=
  let rev := eraseTrailingSeparator path.reverse
  if rev.length = 1 then rev else (rev.takeWhile (· ≠ '/')).reverse

/-- `"taskset"`. -/
def taskset : CString := ['t', 'a', 's', 'k', 's', 'e', 't']

def unknownName : CString := ['u', 'n', 'k', 'n', 'o', 'w', 'n']

def hypervisorBucket : CString :=
  ['[', 'h', 'y', 'p', 'e', 'r', 'v', 'i', 's', 'o', 'r', '_', 'b', 'u', 'c', 'k', 'e', 't', ']']

/-- Characters in common at the front. -/
def matchingChars : List Char → List Char → Nat
  | a :: as, b :: bs => if a = b then matchingChars as bs + 1 else 0
  | _, _ => 0

namespace ProcessInfo

/-- `get_num_matching_chars`. -/
def getNumMatchingChars (p : ProcessInfo) (mappedFilename : CString) : Int :=
  let app := if p.appnameIsFullname = .notFullname then p.appname else opBasename p.appname
  let basename := opBasename mappedFilename
  if basename.length < app.length then -1
  else
    let numMatchedChars := matchingChars app basename
    if numMatchedChars = 0 then -1 else numMatchedChars

/-- `check_mapping_for_appname`. -/
def checkMappingForAppname (p : ProcessInfo) (mapping : OperfMmap) : ProcessInfo :=
  if mapping.isAnonMapping then p
  else
    let numMatchedChars := p.getNumMatchingChars mapping.filename
    if p.numAppCharsMatched < numMatchedChars then
      let p :=
        if numMatchedChars = p.appBasename.length then
          { p with appnameIsFullname := .yesFullname, lookForAppnameMatch := false, appnameValid := true }
        else { p with appnameIsFullname := .maybeFullname }
      { p with
        appname := mapping.filename
        appBasename := opBasename mapping.filename
        numAppCharsMatched := numMatchedChars }
    else p

/-- `find_best_match_appname_all_mappings`, given the process's mappings. -/
def findBestMatchAppnameAllMappings (p : ProcessInfo) (mappings : List OperfMmap) : ProcessInfo :=
  if p.appname = unknownName then p else mappings.foldl checkMappingForAppname p

/-- The name `set_appname` takes from the link to the executable or, when that is gone, from its
argument. -/
def nameFrom (p : ProcessInfo) (link appname : Option CString) (appArgIsFullname : Bool) :
    ProcessInfo :=
  match link with
  | some exe =>
    if taskset.isPrefixOf (opBasename exe) then
      { p with appname := unknownName, appBasename := unknownName }
    else { p with appname := exe, appBasename := opBasename exe, appnameValid := true }
  | none =>
    match appname with
    | none => { p with appname := unknownName, appBasename := unknownName }
    | some name =>
      if name = taskset then { p with appname := unknownName, appBasename := unknownName }
      else if appArgIsFullname then
        { p with appname := name, appBasename := name, appnameValid := true }
      else { p with appname := name, appBasename := name, lookForAppnameMatch := true }

/-- `set_appname`, given the answer of `readlink` for `/proc/<pid>/exe` and the mappings. -/
def setAppname (p : ProcessInfo) (link : Option CString) (mappings : List OperfMmap)
    (appname : Option CString) (appArgIsFullname : Bool) : ProcessInfo :=
  let fromCommEvent := appname.isSome && !appArgIsFullname
  if p.appnameValid then p
  else if p.appname ≠ [] ∧ p.lookForAppnameMatch ∧ ¬ fromCommEvent then
    p.findBestMatchAppnameAllMappings mappings
  else if p.appname ≠ [] ∧ appname = none then p
  else
    let p := p.nameFrom link appname appArgIsFullname
    if p.lookForAppnameMatch then p.findBestMatchAppnameAllMappings mappings else p

end ProcessInfo

/-- What the code asks of its surroundings. -/
structure Env where
  /-- The answer to the `n`-th call of `readlink`, for the process given. -/
  readlink : Nat → UInt32 → Option CString
  /-- Whether the sample file is open after the `n`-th call of `get_file`. -/
  openSampleFile : Nat → Bool
  /-- The sample files closed and freed to open that file. -/
  evicted : Nat → Nat → Bool

/-- `process_map` and the mappings on the heap. -/
structure Processes where
  processMap : List (UInt32 × ProcessInfo)
  mmaps : MmapId → Option OperfMmap
  nextMmap : MmapId
  readlinkCalls : Nat

namespace Processes

def find (t : Processes) (pid : UInt32) : Option ProcessInfo := KeyMap.find pid t.processMap

def set (t : Processes) (p : ProcessInfo) : Processes :=
  { t with processMap := KeyMap.insert pidLt p.pid p t.processMap }

/-- `new operf_mmap`. -/
def newMmap (t : Processes) (m : OperfMmap) : Processes :=
  { t with mmaps := fun i => if i = t.nextMmap then some m else t.mmaps i, nextMmap := t.nextMmap + 1 }

def setMmap (t : Processes) (id : MmapId) (m : Option OperfMmap) : Processes :=
  { t with mmaps := fun i => if i = id then m else t.mmaps i }

/-- The process's mappings in the order of their keys; nothing when one has been deleted. -/
def mappingsOf (t : Processes) (p : ProcessInfo) : Option (List OperfMmap) :=
  p.mmappings.mapM fun kv => t.mmaps kv.2

/-- `set_appname` called for the process `p` of the map. -/
def setAppname (env : Env) (t : Processes) (p : ProcessInfo) (appname : Option CString)
    (appArgIsFullname : Bool) : Option Processes := do
  let mappings ← t.mappingsOf p
  some { t.set (p.setAppname (env.readlink t.readlinkCalls p.pid) mappings appname appArgIsFullname)
    with readlinkCalls := t.readlinkCalls + 1 }

/-- The constructor of `operf_process_info`, with the entry in `process_map` it is made for. -/
def newProcessInfo (env : Env) (t : Processes) (tgid : UInt32) (appname : Option CString)
    (appArgIsFullname isValid : Bool) : Option Processes :=
  t.setAppname env
    { pid := tgid
      appname := []
      valid := isValid
      appnameValid := false
      lookForAppnameMatch := false
      forked := false
      appnameIsFullname := .notFullname
      appBasename := []
      numAppCharsMatched := -1
      mmappings := []
      mmappingsFromParent := fun _ => false
      forkedProcesses := []
      parentOfFork := none } appname appArgIsFullname

/-- `set_new_mapping_recursive`; nothing when the recursion does not end. -/
def setNewMappingRecursive : Nat → Processes → UInt32 → MmapId → Bool → Option Processes
  | 0, _, _, _, _ => none
  | fuel + 1, t, pid, mapping, doSelf => do
    let p ← t.find pid
    let m ← t.mmaps mapping
    let fromParent := doSelf && (KeyMap.find m.startAddr p.mmappings).isNone
    let t := t.set { p with
      mmappingsFromParent := fun a => if a = m.startAddr then fromParent else p.mmappingsFromParent a
      mmappings := KeyMap.insert addrLt m.startAddr mapping p.mmappings }
    p.forkedProcesses.foldlM (fun t fp => setNewMappingRecursive fuel t fp mapping true) t

/-- The entry of a process in `process_map`, made when there is none. -/
def ensureProcess (env : Env) (t : Processes) (pid : UInt32) (appname : Option CString)
    (appArgIsFullname : Bool) : Option Processes :=
  match t.find pid with
  | some _ => some t
  | none => t.newProcessInfo env pid appname appArgIsFullname false

/-- No chain of distinct processes is longer. -/
def depth (t : Processes) : Nat := t.processMap.length + 1

/-- A new mapping may tell the name of the application. -/
def nameFromMapping (env : Env) (t : Processes) (p : ProcessInfo) (m : OperfMmap) :
    Option Processes :=
  if !p.appnameValid && !p.forked then
    if p.lookForAppnameMatch then some (t.set (p.checkMappingForAppname m))
    else t.setAppname env p none false
  else some t

/-- `process_mapping`. -/
def processMapping (env : Env) (t : Processes) (pid : UInt32) (mapping : MmapId) (doSelf : Bool) :
    Option Processes := do
  let p ← t.find pid
  let m ← t.mmaps mapping
  let t ← t.nameFromMapping env p m
  t.setNewMappingRecursive t.depth pid mapping doSelf

/-- `copy_mappings_to_forked_process`. -/
def copyMappingsToForkedProcess (env : Env) (t : Processes) (parent forked : UInt32) :
    Option Processes := do
  let p ← t.find parent
  p.mmappings.foldlM (fun t kv => t.processMapping env forked kv.2 true) t

/-- `set_fork_info`. -/
def setForkInfo (env : Env) (t : Processes) (forked parent : UInt32) : Option Processes := do
  let p ← t.find forked
  let t := t.set { p with forked := true, parentOfFork := some parent }
  let q ← t.find parent
  let t := t.set { q with forkedProcesses := q.forkedProcesses ++ [forked] }
  t.copyMappingsToForkedProcess env parent forked

/-- `connect_forked_process_to_parent`. -/
def connectForkedProcessToParent (t : Processes) (p : ProcessInfo) : Option Processes := do
  let parent ← p.parentOfFork
  let q ← t.find parent
  some (t.set { p with
    valid := true, appname := q.appname, appBasename := opBasename q.appname, appnameValid := true })

/-- `remove_forked_process`. -/
def removeForkedProcess (t : Processes) (parent forked : UInt32) : Option Processes := do
  let q ← t.find parent
  some (t.set { q with forkedProcesses := q.forkedProcesses.erase forked })

/-- The link from the parent to a process that leaves it. -/
def leaveParent (t : Processes) (p : ProcessInfo) : Option Processes :=
  match p.parentOfFork with
  | some parent => t.removeForkedProcess parent p.pid
  | none => some t

/-- One mapping in the loop of `try_disassociate_from_parent`. -/
def keepOrDropMapping (env : Env) (pid : UInt32) (t : Processes) (kv : UInt64 × MmapId) :
    Option Processes := do
  let p ← t.find pid
  let cur ← t.mmaps kv.2
  if p.mmappingsFromParent cur.startAddr then
    some (t.set { p with
      mmappingsFromParent := fun a => if a = cur.startAddr then false else p.mmappingsFromParent a
      mmappings := KeyMap.erase kv.1 p.mmappings })
  else t.processMapping env pid kv.2 false

/-- `try_disassociate_from_parent`. -/
def tryDisassociateFromParent (env : Env) (t : Processes) (pid : UInt32) (appShortname : CString) :
    Option Processes := do
  let p ← t.find pid
  if p.parentOfFork = some pid then some t
  else
    let t ← (t.set { p with valid := true }).setAppname env { p with valid := true } appShortname false
    let t ← p.mmappings.foldlM (keepOrDropMapping env pid) t
    let t ← t.leaveParent p
    let p ← t.find pid
    some (t.set { p with parentOfFork := none, forked := false })

/-- `process_hypervisor_mapping`. -/
def processHypervisorMapping (env : Env) (t : Processes) (pid : UInt32) (ip : UInt64) :
    Option Processes := do
  let p ← t.find pid
  let mappings ← t.mappingsOf p
  let create (t : Processes) (endAddr : UInt64) : Option Processes :=
    (t.newMmap ⟨ip, endAddr, 0, true, true, hypervisorBucket⟩).processMapping env pid t.nextMmap false
  match (p.mmappings.zip mappings).find? (·.2.isHypervisor) with
  | none => create t ip
  | some ((start, id), m) =>
    if ip < m.startAddr then
      let t := t.set { p with mmappings := KeyMap.erase start p.mmappings }
      create (t.setMmap id none)
        (if m.endAddr = 0xffffffffffffffff ∨ m.endAddr < ip then ip else m.endAddr)
    else if m.endAddr ≤ ip then some (t.setMmap id (some { m with endAddr := ip }))
    else some t

/-- `find_mapping_for_sample`. -/
def findMappingForSample (t : Processes) (p : ProcessInfo) (sampleAddr : UInt64)
    (hypervisorSample : Bool) : Option (Option OperfMmap) := do
  let mappings ← t.mappingsOf p
  some (mappings.find? fun m =>
    m.startAddr ≤ sampleAddr && sampleAddr ≤ m.endAddr && m.isHypervisor == hypervisorSample)

end Processes

end Oprofile.Operf
