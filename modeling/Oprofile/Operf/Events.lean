import Oprofile.Operf.Header
import Oprofile.Operf.Sfile

/-! The records operf converts, one after the other (`operf_utils.cpp`). -/
namespace Oprofile.Operf

/-- `operf_stats`. -/
inductive OperfStat
  | samples
  | kernel
  | process
  | invalidCtx
  | lostKernel
  | lostSamplefile
  | lostNoMapping
  | noAppKernelSample
  | noAppUserSample
  | btLostNoMapping
  | lostInvalidHypervAddr
  | recordLostSample
  deriving DecidableEq

/-- What is read out of a PERF_RECORD_SAMPLE; without PERF_SAMPLE_CPU, `cpu` is whatever the
stack held. -/
structure SampleData where
  ip : UInt64
  pid : UInt32
  tid : UInt32
  id : UInt64
  cpu : UInt32
  deriving DecidableEq

structure SampleEvent where
  misc : UInt16
  data : SampleData
  callchain : List UInt64
  deriving DecidableEq

structure MmapEvent where
  misc : UInt16
  pid : UInt32
  start : UInt64
  len : UInt64
  pgoff : UInt64
  filename : CString

structure CommEvent where
  pid : UInt32
  tid : UInt32
  comm : CString

structure ForkEvent where
  pid : UInt32
  ppid : UInt32

/-- A record, by the type in its header. -/
inductive Event
  | sample (e : SampleEvent)
  | mmap (e : MmapEvent)
  | comm (e : CommEvent)
  | fork (e : ForkEvent)
  | throttle (id : UInt64)
  | lost (count : Nat)
  | exit
  | other (type : Nat)

def perfRecordMiscKernel : UInt16 := 1

def perfRecordMiscUser : UInt16 := 2

def perfRecordMiscHypervisor : UInt16 := 3

def perfContextKernel : UInt64 := 0xffffffffffffff80

def perfContextUser : UInt64 := 0xfffffffffffffe00

def perfContextMax : UInt64 := 0xfffffffffffff001

def maxHypervisorAddress : UInt64 := 0xfffffff

/-- The bits of `sample_type` that are tested. -/
structure SampleType where
  ip : Bool
  tid : Bool
  id : Bool
  callchain : Bool

structure OperfEvent where
  noUser : Bool

structure Config (n : Nat) where
  sampleType : SampleType
  separateCpu : Bool
  evts : List OperfEvent
  opHeader : OpHeader n
  appName : Option CString
  appPid : UInt32
  kptrRestrict : Int
  myUid : Nat
  ppc64Arch : Bool
  vconvert : Bool
  perfRecordMax : Nat

/-- A sample or an arc handed to `odb_update_node`. -/
inductive LogEntry
  | sample (sf : OperfSfile) (event : Int) (key : UInt64)
  | arc (sf last : OperfSfile) (event : Int) (key : UInt64)
  deriving DecidableEq

structure OperfState where
  trans : OperfTransient
  procs : Processes
  allImagesMap : List (CString × MmapId)
  kernelModules : List (UInt64 × MmapId)
  kernelMmap : Option MmapId
  kernelImages : KernelImages
  sfiles : Sfiles
  sfileInitDone : Bool
  unresolvedEvents : List SampleEvent
  firstTimeProcessing : Bool
  stats : OperfStat → Nat
  throttledEvents : List Int
  logCalls : Nat
  logged : List LogEntry

variable {n : Nat}

namespace OperfState

def bump (s : OperfState) (stat : OperfStat) (by_ : Nat) : OperfState :=
  { s with stats := fun i => if i = stat then s.stats i + by_ else s.stats i }

/-- `update_trans_last`. -/
def updateTransLast (s : OperfState) : OperfState :=
  { s with trans := { s.trans with last := s.trans.current, lastPc := s.trans.pc } }

/-- `clear_trans`. -/
def clearTrans (s : OperfState) : OperfState :=
  { s with trans := { s.trans with tgid := 0xffffffff, curProcinfo := none } }

def setProcs (s : OperfState) (t : Processes) : OperfState := { s with procs := t }

end OperfState

/-- The application name passed on for a process that no COMM event has named. -/
def knownAppname (cfg : Config n) (pid : UInt32) (otherwise : Option CString) :
    Option CString × Bool :=
  match cfg.appName with
  | some name => if cfg.appPid = pid then (some name, true) else (otherwise, false)
  | none => (otherwise, false)

/-- `__handle_fork_event`. -/
def handleForkEvent (cfg : Config n) (env : Env) (s : OperfState) (e : ForkEvent) :
    Option OperfState := do
  let t ← s.procs.ensureProcess env e.ppid cfg.appName cfg.appName.isSome
  if e.pid = e.ppid then some (s.setProcs t)
  else
    match t.find e.pid with
    | none => do
      let t ← t.newProcessInfo env e.pid none false false
      let t ← t.setForkInfo env e.pid e.ppid
      some (s.setProcs t)
    | some forkedProc =>
      if forkedProc.valid || forkedProc.forked then some (s.setProcs t)
      else do
        let t ← t.setForkInfo env e.pid e.ppid
        some (s.setProcs t)

/-- A COMM record for a process that is known. -/
def commKnownProcess (env : Env) (t : Processes) (p : ProcessInfo) (e : CommEvent) :
    Option Processes :=
  if !p.valid then
    if e.pid = e.tid then
      if p.forked then t.tryDisassociateFromParent env e.pid e.comm
      else (t.set { p with valid := true }).setAppname env { p with valid := true } e.comm false
    else some t
  else if e.pid = e.tid ∧ ¬ p.isAppnameValid then t.setAppname env p e.comm false
  else some t

/-- `__handle_comm_event`. -/
def handleCommEvent (cfg : Config n) (env : Env) (s : OperfState) (e : CommEvent) :
    Option OperfState :=
  match s.procs.find e.pid with
  | none =>
    let appnameArg := knownAppname cfg e.pid (some e.comm)
    (s.procs.newProcessInfo env e.pid appnameArg.1 appnameArg.2 (e.pid == e.tid)).map s.setProcs
  | some p => (commKnownProcess env s.procs p e).map s.setProcs

/-- `"//anon"`. -/
def slashAnon : CString := ['/', '/', 'a', 'n', 'o', 'n']

def anonName : CString := ['a', 'n', 'o', 'n']

/-- The mapping made for an MMAP record that no known mapping fits. -/
def mmapOf (e : MmapEvent) : OperfMmap :=
  let isSlashAnon := slashAnon.isPrefixOf e.filename
  { startAddr := e.start
    endAddr := if e.len = 0 then 0 else e.start + e.len - 1
    pgoff := e.pgoff
    isAnonMapping := e.filename.head? == some '[' || isSlashAnon
    isHypervisor := false
    filename := if e.filename.head? ≠ some '[' ∧ isSlashAnon then anonName else e.filename }

/-- The search for a known mapping: its file name has to equal the base name. -/
def knownMapping (s : OperfState) (imageBasename : CString) (start : UInt64) : Option MmapId :=
  ((s.allImagesMap.filter (·.1 = imageBasename)).find? fun x =>
    match s.procs.mmaps x.2 with
    | some m => m.filename == imageBasename && m.startAddr == start
    | none => false).map Prod.snd

/-- The mapping for an MMAP record, a known one or a new one. -/
def eventMapping (s : OperfState) (e : MmapEvent) : OperfState × MmapId :=
  let imageBasename := opBasename e.filename
  match knownMapping s imageBasename e.start with
  | some id => (s, id)
  | none =>
    let id := s.procs.nextMmap
    let s := s.setProcs (s.procs.newMmap (mmapOf e))
    if e.misc &&& perfRecordMiscUser ≠ 0 then
      ({ s with allImagesMap := s.allImagesMap ++ [(imageBasename, id)] }, id)
    else (s, id)

theorem eventMapping_known {s : OperfState} {e : MmapEvent} {id : MmapId}
    (h : knownMapping s (opBasename e.filename) e.start = some id) : eventMapping s e = (s, id) := by
  simp only [eventMapping, h]

theorem eventMapping_new {s : OperfState} {e : MmapEvent}
    (h : knownMapping s (opBasename e.filename) e.start = none) :
    ∃ images, eventMapping s e =
      ({ s.setProcs (s.procs.newMmap (mmapOf e)) with allImagesMap := images }, s.procs.nextMmap) := by
  simp only [eventMapping, h]
  split_ifs
  · exact ⟨_, rfl⟩
  · exact ⟨s.allImagesMap, rfl⟩

/-- A mapping of the kernel: vmlinux itself or a module. -/
def handleKernelMmap (cfg : Config n) (s : OperfState) (mapping : MmapId) (m : OperfMmap) :
    OperfState :=
  if m.filename.isPrefixOf s.kernelImages.vmlinux.name then { s with kernelMmap := some mapping }
  else if cfg.kptrRestrict = 1 ∧ ¬ s.kernelImages.noVmlinux ∧ cfg.myUid ≠ 0 then s
  else
    { s with
      kernelImages := s.kernelImages.createModule m.filename m.startAddr m.endAddr
      kernelModules := KeyMap.insert addrLt m.startAddr mapping s.kernelModules }

/-- `__handle_mmap_event`. -/
def handleMmapEvent (cfg : Config n) (env : Env) (s : OperfState) (e : MmapEvent) :
    Option OperfState := do
  let r := eventMapping s e
  let m ← r.1.procs.mmaps r.2
  if e.misc &&& perfRecordMiscKernel ≠ 0 then some (handleKernelMmap cfg r.1 r.2 m)
  else
    let appnameArg := knownAppname cfg e.pid none
    let t ← r.1.procs.ensureProcess env e.pid appnameArg.1 appnameArg.2
    let t ← t.processMapping env e.pid r.2 false
    some (r.1.setProcs t)

/-- The process of a sample: the one in `trans`, which may be NULL, or that of the map when its
application is known; nothing when the sample is to be dropped. -/
def sampleProcess (s : OperfState) (pid : UInt32) : Option (Option ProcessInfo) :=
  if s.trans.tgid = pid then some (s.trans.curProcinfo.bind s.procs.find)
  else
    match s.procs.find pid with
    | some p => if p.isAppnameValid then some (some p) else none
    | none => none

def inRange (ip : UInt64) (m : OperfMmap) : Bool := m.startAddr ≤ ip && ip ≤ m.endAddr

/-- The mapping of a kernel address. -/
def kernelMapping (s : OperfState) (ip : UInt64) : Option (Option OperfMmap) := do
  let kernelMmap ← s.kernelMmap.bind s.procs.mmaps
  if inRange ip kernelMmap then some (some kernelMmap)
  else
    let modules ← s.kernelModules.mapM fun kv => s.procs.mmaps kv.2
    match modules.find? (inRange ip) with
    | some m => some (some m)
    | none =>
      if kernelMmap.startAddr = 0 ∧ kernelMmap.endAddr = 0 then some (some kernelMmap) else some none

/-- The fields of `trans` that are set when process and mapping are found. -/
def setTrans (trans : OperfTransient) (data : SampleData) (appName : CString) (m : OperfMmap)
    (kernelMode : Bool) : OperfTransient :=
  { trans with
    imageName := some m.filename
    appLen := appName.length
    appFilename := appName
    imageLen := m.filename.length
    startAddr := m.startAddr
    endAddr := m.endAddr
    tgid := data.pid
    tid := data.tid
    curProcinfo := some data.pid
    cpu := data.cpu
    isAnon := m.isAnonMapping
    inKernel := kernelMode
    pc := if kernelMode || m.isAnonMapping then data.ip else data.ip - m.startAddr
    sampleId := data.id }

/-- The mapping of a sample, and the state with what was counted while looking for it. -/
def sampleMapping (s : OperfState) (proc : Option ProcessInfo) (ip : UInt64)
    (hypervisorDomain kernelMode : Bool) : Option (Option OperfMmap × OperfState) :=
  if kernelMode then (kernelMapping s ip).map (·, s)
  else do
    let p ← proc
    let m ← s.procs.findMappingForSample p ip hypervisorDomain
    if (m.any (·.isHypervisor)) && !hypervisorDomain then some (none, s.bump .invalidCtx 1)
    else some (m, s)

/-- `__get_operf_trans`; the flag says whether `trans` has been set. -/
def getOperfTrans (cfg : Config n) (s : OperfState) (data : SampleData)
    (hypervisorDomain kernelMode : Bool) : Option (Bool × OperfState) :=
  match sampleProcess s data.pid with
  | none =>
    if cfg.vconvert && !s.firstTimeProcessing then
      some (false, s.bump (if kernelMode then .noAppKernelSample else .noAppUserSample) 1)
    else some (false, s)
  | some proc => do
    let r ← sampleMapping s proc data.ip hypervisorDomain kernelMode
    match r with
    | (some m, s) => do
      let p ← proc
      some (true, { s with trans := setTrans s.trans data p.appname m kernelMode })
    | (none, s) =>
      if s.firstTimeProcessing then some (false, s) else some (false, s.bump .lostNoMapping 1)

/-- `operf_sfile_find(&trans)`, assigned to `trans.current`. -/
def findCurrent (cfg : Config n) (s : OperfState) : Option OperfState := do
  let imageName ← s.trans.imageName
  if !s.sfileInitDone then none
  else if s.trans.inKernel then
    match s.kernelImages.findKernelImage s.trans.pc with
    | none => some { s.bump .lostKernel 1 with trans := { s.trans with current := none } }
    | some ki =>
      let (sf, sfiles) := sfileFind cfg.separateCpu s.sfiles s.trans imageName (some ki)
      some { s with trans := { s.trans with current := some sf }, sfiles := sfiles }
  else
    let (sf, sfiles) := sfileFind cfg.separateCpu s.sfiles s.trans imageName none
    some { s with trans := { s.trans with current := some sf }, sfiles := sfiles }

/-- `get_file`: the sample file may have to be opened, which may fail, and may first close and
free any sample files but `current` and `last`. -/
def getFile (cfg : Config n) (env : Env) (s : OperfState) : Option (Bool × OperfState) := do
  let sf ← s.trans.current
  if s.trans.event < 0 ∨ (cfg.evts.length : Int) ≤ s.trans.event then none
  else
    some (env.openSampleFile s.logCalls,
      { s with
        logCalls := s.logCalls + 1
        sfiles := { s.sfiles with
          hashes := s.sfiles.hashes.filter fun f =>
            f.id = sf.id ∨ s.trans.last.map (·.id) = some f.id ∨ ¬ env.evicted s.logCalls f.id } })

/-- An address as an offset in the file of the sample. -/
def sampleOffset (sf : OperfSfile) (pc : UInt64) : UInt64 :=
  let pc := match sf.kernel with
    | some ki => pc - ki.2.start
    | none => pc
  if sf.isAnon then pc - sf.startAddr else pc

/-- `operf_sfile_log_sample`. -/
def operfSfileLogSample (cfg : Config n) (env : Env) (s : OperfState) : Option OperfState := do
  let sf ← s.trans.current
  let (file, s) ← getFile cfg env s
  if file then
    let s := { s with logged := s.logged ++ [LogEntry.sample sf s.trans.event (sampleOffset sf s.trans.pc)] }
    some ((s.bump .samples 1).bump (if s.trans.inKernel then .kernel else .process) 1)
  else some (s.bump .lostSamplefile 1)

/-- `operf_sfile_log_arc`. -/
def operfSfileLogArc (cfg : Config n) (env : Env) (s : OperfState) : Option OperfState := do
  let sf ← s.trans.current
  let last ← s.trans.last
  let (file, s) ← getFile cfg env s
  if file then
    let key := (sampleOffset last s.trans.lastPc &&& (0xffffffff : UInt64)) |||
      (sampleOffset sf s.trans.pc <<< (32 : UInt64))
    some { s with logged := s.logged ++ [LogEntry.arc sf last s.trans.event key] }
  else some (s.bump .lostSamplefile 1)

/-- The mode after a context marker in a call chain. -/
def contextMode (inKernel : Bool) (ip : UInt64) : Bool :=
  if ip = perfContextKernel then true else if ip = perfContextUser then false else inKernel

/-- One address of a call chain. -/
def callchainAddress (cfg : Config n) (env : Env) (data : SampleData) (r : Bool × OperfState)
    (ip : UInt64) : Option (Bool × OperfState) :=
  let (inKernel, s) := r
  if perfContextMax ≤ ip then some (contextMode inKernel ip, s)
  else if ip = 0 then some (inKernel, s)
  else do
    let (found, s) ← getOperfTrans cfg s { data with ip := ip } false inKernel
    if found then
      let s ← findCurrent cfg s
      if s.trans.current.isSome then
        let s ← operfSfileLogArc cfg env s
        some (inKernel, s.updateTransLast)
      else some (inKernel, s)
    else if s.firstTimeProcessing then some (inKernel, s)
    else some (inKernel, s.bump .btLostNoMapping 1)

/-- `__handle_callchain`. A marker at the front may be followed by the sampled address itself,
which is skipped. -/
def handleCallchain (cfg : Config n) (env : Env) (s : OperfState) (e : SampleEvent) :
    Option OperfState := do
  let ips := match e.callchain with
    | ctx :: ip :: ips =>
      if perfContextMax ≤ ctx ∧ ip = e.data.ip then ctx :: ips else ctx :: ip :: ips
    | ips => ips
  let (_, s) ← ips.foldlM (callchainAddress cfg env e.data) (false, s)
  some s

/-- `__map_hypervisor_sample`. -/
def mapHypervisorSample (cfg : Config n) (env : Env) (s : OperfState) (ip : UInt64) (pid : UInt32) :
    Option OperfState := do
  let appnameArg := knownAppname cfg pid none
  let t ← s.procs.ensureProcess env pid appnameArg.1 appnameArg.2
  let t ← t.processHypervisorMapping env pid ip
  some (s.setProcs t)

/-- The number of the event an identifier belongs to. -/
def eventnum (cfg : Config n) (id : UInt64) : Int :=
  getEventnumByPerfEventId cfg.evts.length cfg.opHeader id

/-- `__handle_throttle_event`. -/
def handleThrottleEvent (cfg : Config n) (s : OperfState) (id : UInt64) : Int × OperfState :=
  let s := { s with trans := { s.trans with event := eventnum cfg id } }
  if 0 ≤ s.trans.event then (0, { s with throttledEvents := s.throttledEvents ++ [s.trans.event] })
  else (-1, s)

/-- The common case: the sample is from the context that `trans` describes. -/
def fastPath (trans : OperfTransient) (data : SampleData) (inKernel : Bool) :
    Option OperfTransient :=
  if inKernel then
    if trans.imageName.isSome ∧ trans.tgid = data.pid then
      if trans.startAddr = 0 ∧ trans.endAddr = 0 then some { trans with pc := data.ip }
      else if trans.startAddr ≤ data.ip ∧ data.ip ≤ trans.endAddr then some { trans with pc := data.ip }
      else none
    else none
  else if trans.tgid = data.pid ∧ trans.startAddr ≤ data.ip ∧ data.ip ≤ trans.endAddr then
    some { trans with
      tid := data.tid, pc := if trans.isAnon then data.ip else data.ip - trans.startAddr }
  else none

/-- What is done with a sample that has a domain and an event. -/
inductive Verdict
  /-- `goto out` with this return code. -/
  | out (rc : Int)
  /-- Deferred to the second pass, then `goto out`. -/
  | defer
  /-- Through the cached transient. -/
  | fast (t : OperfTransient)
  /-- By way of `__get_operf_trans`. -/
  | find

/-- The part of `__handle_sample_event` that verifies the sample and looks at the cache. -/
def verifySample (cfg : Config n) (s : OperfState) (e : SampleEvent) (inKernel : Bool) :
    Option (Verdict × OperfState) := do
  if s.trans.imageName = none ∧ e.data.pid = 0 then some (.out 0, s)
  else
    let switched := e.data.id ≠ s.trans.sampleId
    let s := if switched then { s with trans := { s.trans with event := eventnum cfg e.data.id } } else s
    if switched ∧ s.trans.event < 0 then some (.out (-1), s)
    else if s.trans.event < 0 then none
    else
      let evt ← cfg.evts[s.trans.event.toNat]?
      if evt.noUser ∧ e.misc = perfRecordMiscUser then some (.out 0, s)
      else if e.misc = perfRecordMiscHypervisor ∧ s.firstTimeProcessing then some (.defer, s)
      else if switched then some (.find, s)
      else
        match fastPath s.trans e.data inKernel with
        | some t => some (.fast t, s)
        | none => some (.find, s)

/-- The end of `__handle_sample_event`: log what was found, or keep the sample for the second
pass. -/
def finishSample (cfg : Config n) (env : Env) (s : OperfState) (e : SampleEvent) (foundTrans : Bool) :
    Option (Int × OperfState) := do
  if foundTrans ∧ s.trans.current.isSome then
    let s ← operfSfileLogSample cfg env s
    let s := s.updateTransLast
    if cfg.sampleType.callchain then
      let s ← handleCallchain cfg env s e
      some (0, s)
    else some (0, s)
  else if s.firstTimeProcessing then
    some (0, { s with unresolvedEvents := s.unresolvedEvents ++ [e] }.clearTrans)
  else some (0, s.clearTrans)

/-- `find_trans:` for a sample that the cache does not serve. -/
def findTrans (cfg : Config n) (s : OperfState) (e : SampleEvent) (inKernel : Bool) :
    Option (Bool × OperfState) := do
  let (found, s) ← getOperfTrans cfg s e.data (e.misc == perfRecordMiscHypervisor) inKernel
  if found then
    let s ← findCurrent cfg s
    some (true, s)
  else some (false, s)

/-- `__handle_sample_event` for a sample whose domain is known. -/
def handleDomainSample (cfg : Config n) (env : Env) (s : OperfState) (e : SampleEvent)
    (inKernel : Bool) : Option (Int × OperfState) := do
  let (verdict, s) ← verifySample cfg s e inKernel
  match verdict with
  | .out rc => some (rc, s.clearTrans)
  | .defer => some (0, { s with unresolvedEvents := s.unresolvedEvents ++ [e] }.clearTrans)
  | .fast t => finishSample cfg env { s with trans := t } e true
  | .find => do
    let (found, s) ← findTrans cfg s e inKernel
    finishSample cfg env s e found

/-- `__handle_sample_event`. -/
def handleSampleEvent (cfg : Config n) (env : Env) (s : OperfState) (e : SampleEvent) :
    Option (Int × OperfState) :=
  if ¬ (cfg.sampleType.ip ∧ cfg.sampleType.tid ∧ cfg.sampleType.id) then some (-1, s)
  else if e.misc = perfRecordMiscKernel then handleDomainSample cfg env s e true
  else if e.misc = perfRecordMiscUser then handleDomainSample cfg env s e false
  else if cfg.ppc64Arch ∧ e.misc = perfRecordMiscHypervisor then
    if maxHypervisorAddress < e.data.ip then some (0, (s.bump .lostInvalidHypervAddr 1).clearTrans)
    else if s.firstTimeProcessing then do
      let s ← mapHypervisorSample cfg env s e.data.ip e.data.pid
      handleDomainSample cfg env s e false
    else handleDomainSample cfg env s e false
  else some (0, s.clearTrans)

/-- `op_write_event`. -/
def opWriteEvent (cfg : Config n) (env : Env) (s : OperfState) : Event → Option (Int × OperfState)
  | .sample e => handleSampleEvent cfg env s e
  | .mmap e => (handleMmapEvent cfg env s e).map (0, ·)
  | .comm e => (handleCommEvent cfg env { s with sfileInitDone := true } e).map (0, ·)
  | .fork e => (handleForkEvent cfg env s e).map (0, ·)
  | .throttle id => some (handleThrottleEvent cfg s id)
  | .lost count => some (0, s.bump .recordLostSample count)
  | .exit => some (0, s)
  | .other type => if cfg.perfRecordMax < type then some (-1, s) else some (0, s)

/-- Processes that no COMM record has made valid are taken as they are, or as their parents. -/
def settleValid (t : Processes) (p : ProcessInfo) : Option Processes :=
  if p.valid then some t
  else if p.forked then t.connectForkedProcessToParent p
  else some (t.set { p with valid := true })

/-- One process in the loop that opens `op_reprocess_unresolved_events`. -/
def settleProcess (t : Processes) (pid : UInt32) : Option Processes := do
  let p ← t.find pid
  let t ← settleValid t p
  let p ← t.find pid
  some (t.set { p with appnameValid := true })

def settleProcesses (s : OperfState) : Option OperfState := do
  let t ← (s.procs.processMap.map Prod.fst).foldlM settleProcess s.procs
  some (s.setProcs t)

/-- The main loop of `convertPerfData`: it ends at the first record that is refused. -/
def writeEvents (cfg : Config n) (env : Env) : List Event → OperfState → Option (Int × OperfState)
  | [], s => some (0, s)
  | e :: es, s => do
    let (rc, s) ← opWriteEvent cfg env s e
    if rc < 0 then some (rc, s) else writeEvents cfg env es s

/-- The second loop of `op_reprocess_unresolved_events`. -/
def resolveEvents (cfg : Config n) (env : Env) : List SampleEvent → OperfState →
    Option (Int × OperfState)
  | [], s => some (0, s)
  | e :: es, s => do
    let (rc, s) ← handleSampleEvent cfg env s e
    if rc < 0 then some (rc, s) else resolveEvents cfg env es s

/-- `convertPerfData`, with the records already read. -/
def convertPerfData (cfg : Config n) (env : Env) (es : List Event) (s : OperfState) :
    Option (Int × OperfState) := do
  let (rc, s) ← writeEvents cfg env es s
  let s := { s with firstTimeProcessing := false }
  if rc < 0 then some (rc, s)
  else
    let s ← settleProcesses s
    resolveEvents cfg env s.unresolvedEvents s

/-- Before the first record. -/
def initialState (kernelImages : KernelImages) : OperfState where
  trans := OperfTransient.zero
  procs := { processMap := [], mmaps := fun _ => none, nextMmap := 0, readlinkCalls := 0 }
  allImagesMap := []
  kernelModules := []
  kernelMmap := none
  kernelImages := kernelImages
  sfiles := { hashes := [], nextSfile := 0 }
  sfileInitDone := false
  unresolvedEvents := []
  firstTimeProcessing := true
  stats := fun _ => 0
  throttledEvents := []
  logCalls := 0
  logged := []

end Oprofile.Operf
