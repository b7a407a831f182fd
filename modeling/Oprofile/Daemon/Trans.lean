import Oprofile.Daemon.Anon

/-! The processing of the event buffer (`opd_trans.c`), with the samples of IBS (`opd_ibs.c`). Entries are taken as
`pop_buffer_value` returns them. There is no SPU. -/
namespace Oprofile.Daemon

/-- The options, the buffer's format and what `ibs_init` has set. -/
structure Setup extends Options where
  kernelPointerSize : Nat
  /-- `~0LU` -/
  ulongMax : UInt64
  ibsBtaEnabled : UInt64
  ibsFamily : UInt32
  ibsSelected : SelectedFlags

/-- What is left of the buffer. -/
abbrev Buffer := List UInt64

/-- What a handler leaves; nothing when it aborts. -/
abbrev Handled := Option (DaemonState × Buffer)

/-- `is_escape_code` -/
def isEscapeCode (o : Setup) (code : UInt64) : Bool :=
  if o.kernelPointerSize = 4 then code = o.ulongMax else code = 0xffffffffffffffff

/-- `struct ibs_sample` -/
structure IbsExt where
  fetch : Option IbsFetchSample
  op : Option IbsOpSample

/-- `CG_HASH_SIZE`. -/
def cgHashSize : UInt64 := 16

def SfileTable.at (tbl : SfileTable) (addr : Nat) : Option Sfile := tbl.hashes.find? (·.addr = addr)

/-- `sfile_dup`, for the fields. -/
def sfileDup (fields : SfileFields) : SfileFields := { fields with files := fields.files.map fun _ => none }

/-- The call-graph entry of an sfile for an arc to `last`, made when there is none. -/
def Sfile.addCg (o : Options) (sf : Sfile) (last : SfileFields) : Sfile :=
  if sf.cgHash.any fun cg =>
      cg.hashval &&& (cgHashSize - 1) = last.hashval &&& (cgHashSize - 1) && sfileEqual o last cg then sf
  else { sf with cgHash := sfileDup last :: sf.cgHash }

namespace DaemonState

variable (s : DaemonState)

/-- The sfiles freed to open a sample file; `sf` and `last` are not on the LRU list then. -/
def evict (sur : Surroundings) : DaemonState :=
  { s with table := s.table.clear fun sf =>
      sur.evicted s.logged.length sf && some sf.addr ≠ s.trans.current && some sf.addr ≠ s.trans.last }

/-- A program counter relative to its image and to its anonymous mapping. -/
def offsetIn (sf : SfileFields) (pc : UInt64) : UInt64 :=
  let pc := match sf.kernel with
    | some k => pc - (s.memory.images k).start
    | none => pc
  match sf.anon with
  | some a => pc - (s.memory.anons a).start
  | none => pc

/-- What is logged last. -/
def log (entry : LogEntry) : DaemonState := { s with logged := s.logged ++ [entry] }

/-- `get_file` aborts for a counter that there is not. -/
def counterOk (o : Options) (ext : Bool) : Bool := ext || s.trans.event.toNat < o.opNrCounters

/-- The call-graph entry in the sfile at an address. -/
def addCgAt (o : Options) (current : Nat) (last : SfileFields) : DaemonState :=
  { s with table := { s.table with
      hashes := s.table.hashes.map fun sf => if sf.addr = current then sf.addCg o last else sf } }

/-- The key of an arc. -/
def arcKey (source target : UInt64) : UInt64 := (target &&& (0xffffffff : UInt64)) ||| (source <<< (32 : UInt64))

/-- `sfile_log_arc`, for `trans->current` and `trans->last`; `ext` is whether `trans->ext` is set. -/
def sfileLogArc (o : Options) (sur : Surroundings) (ext : Bool) (current last : Nat) : DaemonState :=
  let sf := s.memory.sfiles current
  let lastSf := s.memory.sfiles last
  let key := arcKey (s.offsetIn sf s.trans.pc) (s.offsetIn lastSf s.trans.lastPc)
  ((s.evict sur).addCgAt o current lastSf).log ⟨ext, sf, some lastSf, s.trans.event, key, 1⟩

/-- `sfile_log_sample_count`, for `trans->current`; `ext` is whether `trans->ext` is set. -/
def sfileLogSampleCount (o : Options) (sur : Surroundings) (ext : Bool) (current count : Nat) :
    Option DaemonState :=
  if s.trans.tracing = TracingType.on then
    match s.trans.last with
    | none => some s
    | some last => if s.counterOk o ext then some (s.sfileLogArc o sur ext current last) else none
  else if s.counterOk o ext then
    let sf := s.memory.sfiles current
    some ((s.evict sur).log ⟨ext, sf, none, s.trans.event, s.offsetIn sf s.trans.pc, count⟩)
  else none

/-- The two steps after `out:` -/
def finishSample : DaemonState :=
  let t := if s.trans.tracing = TracingType.start then { s.trans with tracing := .on } else s.trans
  { s with trans := { t with last := t.current, lastAnon := t.anon, lastPc := t.pc } }

/-- What `sfile_find` returns becomes `trans->current`; a new sfile is in memory. -/
def setFound (found : Found × SfileTable) : DaemonState :=
  { s with
    table := found.2
    memory := { s.memory with
      sfiles := fun addr => ((found.2.at addr).map Sfile.toSfileFields).getD (s.memory.sfiles addr) }
    trans := { s.trans with current := found.1.sfile } }

/-- The sfile can change at each sample for the kernel. -/
def dropCached : DaemonState := if s.trans.inKernel ≠ 0 then s.clearTransCurrent else s

/-- What `find_anon_mapping` returns becomes `trans->anon`. -/
def setAnon (found : Option Nat × DaemonState) : DaemonState :=
  { found.2 with trans := { found.2.trans with anon := found.1 } }

/-- The anonymous mapping of a sample. -/
def findAnon (sur : Surroundings) : DaemonState :=
  if s.trans.inKernel = 0 ∧ s.trans.cookie = noCookie then setAnon (s.findAnonMapping sur) else s

/-- The sfile of a sample, if it is not cached. -/
def findCurrent (o : Options) (sur : Surroundings) : Option DaemonState :=
  if s.trans.current.isSome then some s
  else
    (sfileFind o s.anons.anons s.trans s.images (sur.cmdline s.trans.tgid) s.table).map s.setFound

/-- The anonymous mapping and the sfile of a sample. -/
def findContext (o : Options) (sur : Surroundings) : Option DaemonState :=
  (s.dropCached.findAnon sur).findCurrent o sur

/-- Whether `current` or else `last` is ignored. -/
def ignores (current : Nat) : Bool :=
  (s.memory.sfiles current).ignored || s.trans.last.any fun last => (s.memory.sfiles last).ignored

/-- The event and the address of a sample; within a trace the event is that of its first sample. -/
def beginSample (pc event : UInt64) : DaemonState :=
  { s with trans := { s.trans with
    event := if s.trans.tracing = TracingType.on then s.trans.event else event
    pc := pc } }

/-- Samples of arcs are not counted. -/
def countSample : DaemonState :=
  if s.trans.tracing = TracingType.on then s
  else (s.bump .samples).bump (if s.trans.inKernel = 1 then .kernel else .process)

/-- The logging of a sample, once its sfile is known. -/
def logSample (o : Setup) (sur : Surroundings) : Option DaemonState :=
  match s.trans.current with
  | none => some s
  | some current =>
    let s := s.countSample
    if s.ignores current then some s else s.sfileLogSampleCount o.toOptions sur false current 1

/-- `opd_put_sample` -/
def opdPutSample (o : Setup) (sur : Surroundings) (pc : UInt64) : Buffer → Handled
  | [] => some (s.bump .danglingCode, [])
  | event :: buffer => do
    let s ← (s.beginSample pc event).findContext o.toOptions sur
    let s ← s.logSample o sur
    some (s.finishSample, buffer)

/-- `opd_log_ibs_event` and `opd_log_ibs_count`. -/
def opdLogIbsEvent (o : Setup) (sur : Surroundings) (current : Nat) (x : DerivedEvent × UInt32) :
    Option DaemonState :=
  let s := s.bump .ibsDerivedEvent
  { s with trans := { s.trans with event := x.1.select.toUInt64 } }.sfileLogSampleCount o.toOptions sur true current
    x.2.toNat

/-- The events of a translation, one after the other. -/
def logDerived (o : Setup) (sur : Surroundings) (current : Nat) (events : Logged) : Option DaemonState :=
  events.foldlM (fun s x => s.opdLogIbsEvent o sur current x) s

/-- The translators are called. -/
def reach (sample : IbsSample) : DaemonState := { s with translated := s.translated ++ [sample] }

/-- `opd_log_ibs_fetch` -/
def logIbsFetch (o : Setup) (sur : Surroundings) (current : Nat) : Option IbsFetchSample → Option DaemonState
  | none => some s
  | some x => (s.reach (.fetch x)).logDerived o sur current (transIbsFetch o.ibsSelected x)

/-- `opd_log_ibs_op`, without the lines of the memory access and branch target logs. -/
def logIbsOp (o : Setup) (sur : Surroundings) (current : Nat) : Option IbsOpSample → Option DaemonState
  | none => some s
  | some x =>
    if (transIbsOpMaskReserved o.ibsFamily x).ripInvalid then some s
    else (s.reach (.op x)).logDerived o sur current (opdLogIbsOp o.ibsFamily o.ibsSelected x)

/-- The first part of `opd_put_ibs_sample`: a sample without cookie at an address of a kernel image is one of the
kernel. -/
def mapToKernel : DaemonState :=
  if s.trans.cookie = invalidCookie ∧
      ((findKernelImage s.images s.trans.pc).any fun image => image.2.start ≠ 0 ∧ image.2.stop ≠ 0) ∧
      s.trans.inKernel = 0 then
    { s with trans := { s.trans with inKernel := 1 } }
  else s

/-- `opd_put_ibs_sample` up to the search for the sfile. -/
def beginIbsSample : DaemonState :=
  let s := s.mapToKernel
  { s with trans := { s.trans with event := if s.trans.tracing = TracingType.on then s.trans.event else 0 } }

/-- The translation of a sample, once its sfile is known. The kind is told by the field `fetch`. -/
def logIbsSample (o : Setup) (sur : Surroundings) (ext : IbsExt) : Option DaemonState :=
  match s.trans.current with
  | none => some s
  | some current =>
    if ext.fetch.isSome then s.logIbsFetch o sur current ext.fetch else s.logIbsOp o sur current ext.op

/-- `opd_put_ibs_sample` -/
def opdPutIbsSample (o : Setup) (sur : Surroundings) (ext : IbsExt) (buffer : Buffer) : Handled :=
  if buffer = [] then some (s.bump .danglingCode, [])
  else do
    let s ← s.beginIbsSample.findContext o.toOptions sur
    let s ← s.logIbsSample o sur ext
    some (s.finishSample, buffer)

/-- A sample in a new `ibs_sample`; its own address replaces that of `trans`. -/
def allocIbsSample (rip : UInt64) : DaemonState :=
  { s with ibsSamples := s.ibsSamples + 1, trans := { s.trans with pc := rip } }

/-- The values that `code_ibs_fetch_sample` pops. -/
def fetchSampleOf (buffer : Buffer) : IbsFetchSample :=
  let entry (i : Nat) : UInt64 := buffer.getD i 0
  { rip := entry 0
    ibsFetchLinAddrLow := (entry 1).toUInt32
    ibsFetchLinAddrHigh := (entry 2).toUInt32
    ibsFetchCtlLow := (entry 3).toUInt32
    ibsFetchCtlHigh := (entry 4).toUInt32
    ibsFetchPhysAddrLow := (entry 5).toUInt32
    ibsFetchPhysAddrHigh := (entry 6).toUInt32 }

/-- `code_ibs_fetch_sample` -/
def codeIbsFetchSample (o : Setup) (sur : Surroundings) (buffer : Buffer) : Handled :=
  if buffer.length < 7 then some ((s.bump .danglingCode).bump .ibsFetchIncomplete, [])
  else
    let x := fetchSampleOf buffer
    ((s.bump .ibsFetchSample).allocIbsSample x.rip).opdPutIbsSample o sur ⟨some x, none⟩ (buffer.drop 7)

/-- The values that `code_ibs_op_sample` pops. -/
def opSampleOf (buffer : Buffer) (target : UInt64) : IbsOpSample :=
  let entry (i : Nat) : UInt64 := buffer.getD i 0
  { rip := entry 0
    ibsOpLinAddrLow := (entry 1).toUInt32
    ibsOpLinAddrHigh := (entry 2).toUInt32
    ibsOpData1Low := (entry 3).toUInt32
    ibsOpData1High := (entry 4).toUInt32
    ibsOpData2Low := (entry 5).toUInt32
    ibsOpData2High := (entry 6).toUInt32
    ibsOpData3Low := (entry 7).toUInt32
    ibsOpData3High := (entry 8).toUInt32
    ibsOpLdstLinaddrLow := (entry 9).toUInt32
    ibsOpLdstLinaddrHigh := (entry 10).toUInt32
    ibsOpPhysAddrLow := (entry 11).toUInt32
    ibsOpPhysAddrHigh := (entry 12).toUInt32
    ibsOpBrtgtAddr := target }

/-- `get_ibs_op_bta_sample`: the branch target address, and what is left of the buffer. It asks for two entries and
takes one of them at most. -/
def getIbsOpBtaSample (o : Setup) (data1High : UInt32) (buffer : Buffer) : UInt64 × DaemonState × Buffer :=
  if buffer.length < 2 then (0, (s.bump .danglingCode).bump .ibsOpIncomplete, [])
  else if o.ibsBtaEnabled = 1 then
    (if data1High &&& 0x00000020 = 0 then 0 else buffer.getD 0 0, s, buffer.drop 1)
  else (0, s, buffer)

/-- `code_ibs_op_sample`; it leaves the field `fetch` as the memory was. -/
def codeIbsOpSample (o : Setup) (sur : Surroundings) (buffer : Buffer) : Handled :=
  if buffer.length < 13 then some ((s.bump .danglingCode).bump .ibsOpIncomplete, [])
  else
    let (target, s, rest) :=
      (s.bump .ibsOpSample).getIbsOpBtaSample o (buffer.getD 4 0).toUInt32 (buffer.drop 13)
    let x := opSampleOf buffer target
    (s.allocIbsSample x.rip).opdPutIbsSample o sur ⟨sur.freshFetch s.ibsSamples, some x⟩ rest

/-- `code_ctx_switch` -/
def codeCtxSwitch : Buffer → Handled
  | tid :: app :: _ :: _ :: tgid :: buffer =>
    let s := s.clearTransCurrent
    some ({ s with trans := { s.trans with
      tid := tid.toUInt32.toInt32, appCookie := app, tgid := tgid.toUInt32.toInt32 } }, buffer)
  | _ => some (s.clearTransCurrent.bump .danglingCode, [])

/-- `code_cpu_switch` -/
def codeCpuSwitch : Buffer → Handled
  | cpu :: buffer =>
    let s := s.clearTransCurrent
    some ({ s with trans := { s.trans with cpu := cpu } }, buffer)
  | [] => some (s.clearTransCurrent.bump .danglingCode, [])

/-- `code_cookie_switch` -/
def codeCookieSwitch : Buffer → Handled
  | cookie :: buffer =>
    let s := s.clearTransCurrent
    some ({ s with trans := { s.trans with cookie := cookie } }, buffer)
  | [] => some (s.clearTransCurrent.bump .danglingCode, [])

/-- `code_kernel_enter` -/
def codeKernelEnter : DaemonState :=
  { s with trans := { s.trans with inKernel := 1 } }.clearTransCurrent

/-- `code_user_enter` -/
def codeUserEnter : DaemonState :=
  { s with trans := { s.trans with inKernel := 0 } }.clearTransCurrent.clearTransLast

/-- `opd_create_module` -/
def opdCreateModule (image : KernelImage) : DaemonState :=
  { s with
    memory := { s.memory with images := fun a => if a = s.nextImage then image else s.memory.images a }
    images := { s.images with modules := (s.nextImage, image) :: s.images.modules }
    nextImage := s.nextImage + 1 }

/-- `opd_clear_modules` -/
def opdClearModules : DaemonState :=
  { s with
    images := { s.images with modules := [] }
    table := s.table.forEach fun sf => sf.kernel.isSome }

/-- `opd_reread_module_info` -/
def opdRereadModuleInfo (sur : Surroundings) : DaemonState :=
  if s.images.noVmlinux then s
  else
    (sur.modules s.modulesRead).foldl opdCreateModule { s.opdClearModules with modulesRead := s.modulesRead + 1 }

/-- `code_module_loaded` -/
def codeModuleLoaded (sur : Surroundings) : DaemonState :=
  (s.opdRereadModuleInfo sur).clearTransCurrent.clearTransLast

/-- `code_trace_begin` -/
def codeTraceBegin : DaemonState := { s with trans := { s.trans with tracing := .start } }

/-- `code_xen_enter` -/
def codeXenEnter : DaemonState := { s with trans := { s.trans with inKernel := 1, current := none } }

end DaemonState

/-! ### The codes -/

def ctxSwitchCode : UInt64 := 1
def cpuSwitchCode : UInt64 := 2
def cookieSwitchCode : UInt64 := 3
def kernelEnterSwitchCode : UInt64 := 4
def userEnterSwitchCode : UInt64 := 5
def moduleLoadedCode : UInt64 := 6
def traceBeginCode : UInt64 := 8
def xenEnterSwitchCode : UInt64 := 10
def ibsFetchCode : UInt64 := 13
def ibsOpCode : UInt64 := 14

namespace DaemonState

variable (s : DaemonState)

/-- `handlers`; a code without one aborts. -/
def handle (o : Setup) (sur : Surroundings) (code : UInt64) (buffer : Buffer) : Handled :=
  if code = ctxSwitchCode then s.codeCtxSwitch buffer
  else if code = cpuSwitchCode then s.codeCpuSwitch buffer
  else if code = cookieSwitchCode then s.codeCookieSwitch buffer
  else if code = kernelEnterSwitchCode then some (s.codeKernelEnter, buffer)
  else if code = userEnterSwitchCode then some (s.codeUserEnter, buffer)
  else if code = moduleLoadedCode then some (s.codeModuleLoaded sur, buffer)
  else if code = traceBeginCode then some (s.codeTraceBegin, buffer)
  else if code = xenEnterSwitchCode then some (s.codeXenEnter, buffer)
  else if code = ibsFetchCode then s.codeIbsFetchSample o sur buffer
  else if code = ibsOpCode then s.codeIbsOpSample o sur buffer
  else none

/-- One round of the loop of `opd_process_samples`. -/
def processItem (o : Setup) (sur : Surroundings) : Buffer → Handled
  | [] => none
  | code :: buffer =>
    if isEscapeCode o code then
      match buffer with
      | [] => some (s.bump .danglingCode, [])
      | code :: buffer => s.handle o sur code buffer
    else s.opdPutSample o sur code buffer

/-- `opd_process_samples` from where the transient has been set; the rounds are at most as many as the entries. -/
def processLoop (o : Setup) (sur : Surroundings) : Nat → DaemonState → Buffer → Option DaemonState
  | _, s, [] => some s
  | 0, _, _ :: _ => none
  | rounds + 1, s, code :: buffer => do
    let (s, buffer) ← s.processItem o sur (code :: buffer)
    processLoop o sur rounds s buffer

/-- The transient at the start of a buffer. -/
def startBuffer : DaemonState :=
  { s with trans :=
      { tracing := .off
        current := none
        last := none
        anon := none
        lastAnon := none
        cookie := invalidCookie
        appCookie := invalidCookie
        pc := 0
        lastPc := 0
        event := 0
        inKernel := -1
        cpu := 0xffffffffffffffff
        tid := -1
        tgid := -1
        embeddedOffset := unusedEmbeddedOffset } }

/-- `opd_process_samples` -/
def opdProcessSamples (o : Setup) (sur : Surroundings) (buffer : Buffer) : Option DaemonState :=
  processLoop o sur buffer.length s.startBuffer buffer

end DaemonState

/-- The daemon before its first buffer. -/
def DaemonState.init (images : KernelImages) : DaemonState :=
  DaemonState.startBuffer
    { trans :=
        { tracing := .off, current := none, last := none, anon := none, lastAnon := none, cookie := 0, appCookie := 0,
          pc := 0, lastPc := 0, event := 0, inKernel := 0, cpu := 0, tid := 0, tgid := 0, embeddedOffset := 0 }
      memory :=
        { sfiles := fun _ => ⟨0, 0, 0, 0, 0, 0, none, none, 0, false, []⟩
          anons := fun _ => ⟨0, 0, 0, 0, []⟩
          images := fun a => if a = xenAddr then images.xen else images.vmlinux }
      images := images
      nextImage := 2
      anons := { anons := fun _ => none, nextAnon := 0, hashes := fun _ => [], lru := [], nrLru := 0 }
      table := { hashes := [], kernelCmdlines := [], nextSfile := 0 }
      mapsRead := 0
      modulesRead := 0
      ibsSamples := 0
      stats := fun _ => 0
      translated := []
      logged := [] }

end Oprofile.Daemon
