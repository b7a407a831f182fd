import Oprofile.Operf.Accounting
import Oprofile.Operf.MappingHeap

/-! The calls of `operf_sfile_find` and of `get_file` in a conversion. -/
namespace Oprofile.Operf

variable {n : Nat} {cfg : Config n} {env : Env} {images : KernelImages} {s s' s'' a b : OperfState}
  {e : SampleEvent} {data : SampleData} {inKernel found : Bool} {rc : Int} {es : List Event}

/-- A call of `operf_sfile_find` with the states around it, or of `get_file` with the state before. -/
inductive FileCall
  | find (s s' : OperfState)
  | getFile (s : OperfState)

/-- The calls for one address of a call chain. -/
def addressCalls (cfg : Config n) (data : SampleData) (r : Bool × OperfState) (ip : UInt64) :
    List FileCall :=
  if perfContextMax ≤ ip ∨ ip = 0 then []
  else
    match getOperfTrans cfg r.2 { data with ip := ip } false r.1 with
    | some (true, s) =>
      match findCurrent cfg s with
      | some s' => .find s s' :: if s'.trans.current.isSome then [.getFile s'] else []
      | none => []
    | _ => []

def chainCalls (cfg : Config n) (env : Env) (data : SampleData) :
    List UInt64 → Bool × OperfState → List FileCall
  | [], _ => []
  | ip :: ips, r =>
    addressCalls cfg data r ip ++
      match callchainAddress cfg env data r ip with
      | some r' => chainCalls cfg env data ips r'
      | none => []

/-- The calls made once `trans` is set, or is not. -/
def finishCalls (cfg : Config n) (env : Env) (s : OperfState) (e : SampleEvent) (foundTrans : Bool) :
    List FileCall :=
  if foundTrans ∧ s.trans.current.isSome then
    .getFile s ::
      match operfSfileLogSample cfg env s with
      | some s' =>
        if cfg.sampleType.callchain then
          chainCalls cfg env e.data (chainIps e) (false, s'.updateTransLast)
        else []
      | none => []
  else []

def findTransCalls (cfg : Config n) (s : OperfState) (e : SampleEvent) (inKernel : Bool) :
    List FileCall :=
  match getOperfTrans cfg s e.data (e.misc == perfRecordMiscHypervisor) inKernel with
  | some (true, s) =>
    match findCurrent cfg s with
    | some s' => [.find s s']
    | none => []
  | _ => []

def domainCalls (cfg : Config n) (env : Env) (s : OperfState) (e : SampleEvent) (inKernel : Bool) :
    List FileCall :=
  match verifySample cfg s e inKernel with
  | some (.fast t, s) => finishCalls cfg env { s with trans := t } e true
  | some (.find, s) =>
    findTransCalls cfg s e inKernel ++
      match findTrans cfg s e inKernel with
      | some (found, s') => finishCalls cfg env s' e found
      | none => []
  | _ => []

/-- The calls for one sample. -/
def sampleCalls (cfg : Config n) (env : Env) (s : OperfState) (e : SampleEvent) : List FileCall :=
  if ¬ (cfg.sampleType.ip ∧ cfg.sampleType.tid ∧ cfg.sampleType.id) then []
  else if e.misc = perfRecordMiscKernel then domainCalls cfg env s e true
  else if e.misc = perfRecordMiscUser then domainCalls cfg env s e false
  else if cfg.ppc64Arch ∧ e.misc = perfRecordMiscHypervisor then
    if maxHypervisorAddress < e.data.ip then []
    else if s.firstTimeProcessing then
      match mapHypervisorSample cfg env s e.data.ip e.data.pid with
      | some s => domainCalls cfg env s e false
      | none => []
    else domainCalls cfg env s e false
  else []

def eventCalls (cfg : Config n) (env : Env) (s : OperfState) : Event → List FileCall
  | .sample e => sampleCalls cfg env s e
  | _ => []

/-- The calls in the main loop of a conversion. -/
def writeCalls (cfg : Config n) (env : Env) : List Event → OperfState → List FileCall
  | [], _ => []
  | ev :: es, s =>
    match opWriteEvent cfg env s ev with
    | some (rc, s') => eventCalls cfg env s ev ++ if rc < 0 then [] else writeCalls cfg env es s'
    | none => []

def resolveCalls (cfg : Config n) (env : Env) : List SampleEvent → OperfState → List FileCall
  | [], _ => []
  | e :: es, s =>
    match handleSampleEvent cfg env s e with
    | some (rc, s') => sampleCalls cfg env s e ++ if rc < 0 then [] else resolveCalls cfg env es s'
    | none => []

/-- The calls of the second pass. -/
def secondPassCalls (cfg : Config n) (env : Env) (s : OperfState) : List FileCall :=
  match settleProcesses { s with firstTimeProcessing := false } with
  | some s => resolveCalls cfg env s.unresolvedEvents s
  | none => []

/-- The calls of a conversion, up to its end or to the record at which it stops. -/
def conversionCalls (cfg : Config n) (env : Env) (es : List Event) (s : OperfState) : List FileCall :=
  writeCalls cfg env es s ++
    match writeEvents cfg env es s with
    | some (rc, s) => if rc < 0 then [] else secondPassCalls cfg env s
    | none => []

/-- The mappings that the kernel's tables and the map of all images lead to are ordinary. -/
structure TablesOrdinary (s : OperfState) : Prop where
  heap : HeapOk s.procs
  images : ∀ x ∈ s.allImagesMap, ∃ m, Ordinary s.procs x.2 m
  kernel : ∀ id, s.kernelMmap = some id → ∃ m, Ordinary s.procs id m
  modules : ∀ x ∈ s.kernelModules, ∃ m, Ordinary s.procs x.2 m

/-- A mapping that is not changed any more: an ordinary one, or any in the second pass. -/
def Held (s : OperfState) (id : MmapId) (m : OperfMmap) : Prop :=
  s.procs.mmaps id = some m ∧ (m.isHypervisor = false ∨ s.firstTimeProcessing = false)

def KeepsHeld (s s' : OperfState) : Prop :=
  TablesOrdinary s → TablesOrdinary s' ∧ ∀ id m, Held s id m → Held s' id m

namespace KeepsHeld

theorem refl (s : OperfState) : KeepsHeld s s := fun ht => ⟨ht, fun _ _ h => h⟩

theorem comp (h : KeepsHeld s s') (h' : KeepsHeld s' s'') : KeepsHeld s s'' := by
  intro ht
  obtain ⟨ht', hkept⟩ := h ht
  obtain ⟨ht'', hkept'⟩ := h' ht'
  exact ⟨ht'', fun id m hm => hkept' id m (hkept id m hm)⟩

theorem of_tables (h : SameTables s s') : KeepsHeld s s' := by
  refine fun ht => ⟨⟨?_, ?_, ?_, ?_⟩, fun id m hm => ⟨?_, ?_⟩⟩
  · rw [h.procs]
    exact ht.heap
  · rw [h.procs, h.images]
    exact ht.images
  · rw [h.procs, h.kernelMmap]
    exact ht.kernel
  · rw [h.procs, h.kernelModules]
    exact ht.modules
  · rw [h.procs]
    exact hm.1
  · rw [h.firstTime]
    exact hm.2

/-- A change of the processes in the first pass. -/
theorem of_procs (hfirst : s.firstTimeProcessing = true) {t : Processes}
    (h : KeepsOrdinary s.procs t) : KeepsHeld s (s.setProcs t) := by
  intro ht
  obtain ⟨hheap, hkept⟩ := h ht.heap
  have hall : ∀ id, (∃ m, Ordinary s.procs id m) → ∃ m, Ordinary t id m := by
    rintro id ⟨m, hm⟩
    exact ⟨m, hkept id m hm⟩
  refine ⟨⟨hheap, fun x hx => hall _ (ht.images x hx), fun id hid => hall _ (ht.kernel id hid),
    fun x hx => hall _ (ht.modules x hx)⟩, fun id m hm => ?_⟩
  have hord := hm.2.resolve_right fun hsecond => absurd (hfirst.symm.trans hsecond) Bool.noConfusion
  exact ⟨(hkept id m ⟨hm.1, hord⟩).1, Or.inl hord⟩

end KeepsHeld

/-- Files may have been closed, none has been made. -/
structure FilesClosed (s s' : OperfState) : Prop where
  hashes : ∃ keep : OperfSfile → Bool, s'.sfiles.hashes = s.sfiles.hashes.filter keep
  next : s'.sfiles.nextSfile = s.sfiles.nextSfile

namespace FilesClosed

theorem of_eq (h : s'.sfiles = s.sfiles) : FilesClosed s s' := by
  refine ⟨⟨fun _ => true, ?_⟩, by rw [h]⟩
  rw [h, List.filter_eq_self.mpr fun _ _ => rfl]

theorem comp (h : FilesClosed s s') (h' : FilesClosed s' s'') : FilesClosed s s'' := by
  obtain ⟨keep, hkeep⟩ := h.hashes
  obtain ⟨keep', hkeep'⟩ := h'.hashes
  refine ⟨⟨fun sf => keep' sf && keep sf, ?_⟩, h'.next.trans h.next⟩
  rw [hkeep', hkeep, List.filter_filter]

theorem mem (h : FilesClosed s s') {sf : OperfSfile} (hsf : sf ∈ s'.sfiles.hashes) :
    sf ∈ s.sfiles.hashes := by
  obtain ⟨keep, hkeep⟩ := h.hashes
  rw [hkeep] at hsf
  exact (List.mem_filter.mp hsf).1

theorem ok {separateCpu : Bool} (h : FilesClosed s s') (hok : SfilesOk separateCpu s.sfiles) :
    SfilesOk separateCpu s'.sfiles := by
  obtain ⟨keep, hkeep⟩ := h.hashes
  refine ⟨fun sf hsf => hok.lens sf (h.mem hsf), fun sf hsf => ?_, ?_⟩
  · rw [h.next]
    exact hok.fresh sf (h.mem hsf)
  · rw [hkeep]
    exact (hok.filter keep).distinct

end FilesClosed

/-- No file is made; `trans.current` and the name of its application stay. -/
structure Quiet (s s' : OperfState) : Prop where
  files : FilesClosed s s'
  current : s'.trans.current = s.trans.current
  app : s'.trans.appFilename = s.trans.appFilename
  held : KeepsHeld s s'

namespace Quiet

theorem refl (s : OperfState) : Quiet s s := ⟨FilesClosed.of_eq rfl, rfl, rfl, KeepsHeld.refl s⟩

theorem comp (h : Quiet s s') (h' : Quiet s' s'') : Quiet s s'' :=
  ⟨h.files.comp h'.files, h'.current.trans h.current, h'.app.trans h.app, h.held.comp h'.held⟩

theorem of_untouched (h : Untouched s s') (hheld : KeepsHeld s s') : Quiet s s' :=
  ⟨FilesClosed.of_eq h.sfiles, by rw [h.transient], by rw [h.transient], hheld⟩

theorem of_tables (ht : SameTables s s') (hfiles : s'.sfiles = s.sfiles)
    (hcurrent : s'.trans.current = s.trans.current)
    (happ : s'.trans.appFilename = s.trans.appFilename) : Quiet s s' :=
  ⟨FilesClosed.of_eq hfiles, hcurrent, happ, KeepsHeld.of_tables ht⟩

theorem clearTrans (s : OperfState) : Quiet s s.clearTrans :=
  of_tables ⟨rfl, rfl, rfl, rfl, rfl, rfl⟩ rfl rfl rfl

theorem updateTransLast (s : OperfState) : Quiet s s.updateTransLast :=
  of_tables ⟨rfl, rfl, rfl, rfl, rfl, rfl⟩ rfl rfl rfl

theorem bump (s : OperfState) (stat : OperfStat) (k : Nat) : Quiet s (s.bump stat k) :=
  of_tables ⟨rfl, rfl, rfl, rfl, rfl, rfl⟩ rfl rfl rfl

theorem withEvent (cfg : Config n) (s : OperfState) (id : UInt64) : Quiet s (withEvent cfg s id) := by
  unfold Operf.withEvent
  split_ifs
  · exact of_tables ⟨rfl, rfl, rfl, rfl, rfl, rfl⟩ rfl rfl rfl
  · exact refl s

theorem of_log {entry : LogEntry} (h : LogStep s s' entry) (ht : SameTables s s') : Quiet s s' := by
  obtain ⟨keep, hkeep, -⟩ := h.sfiles
  refine ⟨⟨⟨keep, ?_⟩, ?_⟩, by rw [h.transient], by rw [h.transient], KeepsHeld.of_tables ht⟩
  · rw [hkeep]
  · rw [hkeep]

end Quiet

/-- `trans` has just been set from a process and a mapping. -/
structure Attributes (s a : OperfState) : Prop where
  files : FilesClosed s a
  held : KeepsHeld s a
  appLen : a.trans.appLen = a.trans.appFilename.length
  image : ∃ name, a.trans.imageName = some name ∧ a.trans.imageLen = name.length ∧
    (TablesOrdinary s → ∃ id m, Held a id m ∧ m.filename = name)

/-- The calls on the way from one state to another. -/
inductive Traced (cfg : Config n) : OperfState → List FileCall → OperfState → Prop
  | quiet {s s' : OperfState} (h : Quiet s s') : Traced cfg s [] s'
  | find {s a b s' : OperfState} {calls : List FileCall} (hset : Attributes s a)
      (hfind : findCurrent cfg a = some b) (hrest : Traced cfg b calls s') :
      Traced cfg s (.find a b :: calls) s'
  | getFile {s a s' : OperfState} {calls : List FileCall} (h : Quiet s a)
      (hrest : Traced cfg a calls s') : Traced cfg s (.getFile a :: calls) s'

namespace Traced

variable {xs ys : List FileCall}

theorem refl (s : OperfState) : Traced cfg s [] s := .quiet (Quiet.refl s)

theorem after (hq : Quiet s s') (h : Traced cfg s' xs s'') : Traced cfg s xs s'' := by
  cases h with
  | quiet hq' => exact .quiet (hq.comp hq')
  | find hset hfind hrest =>
    obtain ⟨name, hname, hlen, himage⟩ := hset.image
    exact .find ⟨hq.files.comp hset.files, hq.held.comp hset.held, hset.appLen, name, hname, hlen,
      fun ht => himage (hq.held ht).1⟩ hfind hrest
  | getFile hq' hrest => exact .getFile (hq.comp hq') hrest

theorem comp (h : Traced cfg s xs s') (h' : Traced cfg s' ys s'') : Traced cfg s (xs ++ ys) s'' := by
  induction h with
  | quiet hq => exact h'.after hq
  | find hset hfind hrest ih => exact .find hset hfind (ih h')
  | getFile hq hrest ih => exact .getFile hq (ih h')

theorem before (h : Traced cfg s xs s') (hq : Quiet s' s'') : Traced cfg s xs s'' := by
  have hcomp := h.comp (.quiet hq)
  rwa [List.append_nil] at hcomp

end Traced

/-- A mapping that is found is held: in the first pass no mapping of the hypervisor is looked for. -/
theorem Lookup.held {hv kernelMode : Bool} {p : ProcessInfo} {m : OperfMmap}
    (hl : Lookup s data hv kernelMode p m) (hhv : hv = false ∨ s.firstTimeProcessing = false)
    (ht : TablesOrdinary s) : ∃ id, Held s id m := by
  have hm := hl.mapping
  cases kernelMode with
  | true =>
    simp only [sampleMapping, if_true, Option.map_eq_some_iff, Prod.mk.injEq, and_true] at hm
    obtain ⟨_, hk, rfl⟩ := hm
    have hheld : ∀ id, (∃ m', Ordinary s.procs id m') → s.procs.mmaps id = some m → ∃ id, Held s id m := by
      rintro id ⟨m', hm'⟩ hid
      have hsame := Option.some_inj.mp (hm'.1.symm.trans hid)
      subst hsame
      exact ⟨id, hid, Or.inl hm'.2⟩
    simp only [kernelMapping, Option.bind_eq_bind, Option.bind_eq_some_iff] at hk
    obtain ⟨kernelMmap, ⟨id, hid, hmap⟩, hk⟩ := hk
    have hkernel : some (some kernelMmap) = some (some m) → ∃ id, Held s id m := by
      rintro heq
      cases heq
      exact hheld id (ht.kernel id hid) hmap
    split at hk
    · exact hkernel hk
    · simp only [Option.bind_eq_some_iff] at hk
      obtain ⟨modules, hmodules, hk⟩ := hk
      split at hk
      · rename_i m' hfind
        cases hk
        obtain ⟨kv, hkv, hmem⟩ := mapM_mem hmodules (List.mem_of_find?_eq_some hfind)
        exact hheld kv.2 (ht.modules kv hkv) hmem
      · split at hk
        · exact hkernel hk
        · cases hk
  | false =>
    simp only [sampleMapping, Bool.false_eq_true, if_false, Option.bind_eq_bind, Option.bind_some,
      Option.bind_eq_some_iff] at hm
    obtain ⟨r, hr, hm⟩ := hm
    split at hm
    · cases hm
    · cases hm
      have hsame := findMappingForSample_hypervisor hr
      simp only [Processes.findMappingForSample, Option.bind_eq_bind, Option.bind_eq_some_iff] at hr
      obtain ⟨ms, hms, hr⟩ := hr
      obtain ⟨kv, -, hkv⟩ := mapM_mem hms (List.mem_of_find?_eq_some (Option.some_inj.mp hr))
      exact ⟨kv.2, hkv, hhv.imp (fun hf => hsame.trans hf) id⟩

theorem Lookup.attributes {hv kernelMode : Bool} {p : ProcessInfo} {m : OperfMmap}
    (hl : Lookup s data hv kernelMode p m) (hhv : hv = false ∨ s.firstTimeProcessing = false) :
    Attributes s { s with trans := setTrans s.trans data p.appname m kernelMode } := by
  refine ⟨FilesClosed.of_eq rfl, KeepsHeld.of_tables ⟨rfl, rfl, rfl, rfl, rfl, rfl⟩, rfl, m.filename, rfl,
    rfl, fun ht => ?_⟩
  obtain ⟨id, hid⟩ := hl.held hhv ht
  exact ⟨id, m, hid, rfl⟩

section Samples

theorem addressCalls_traced {mode mode' : Bool} {ip : UInt64}
    (h : callchainAddress cfg env data (mode, s) ip = some (mode', s')) :
    Traced cfg s (addressCalls cfg data (mode, s) ip) s' := by
  simp only [callchainAddress] at h
  unfold addressCalls
  split at h
  · rename_i hmark
    cases h
    rw [if_pos (Or.inl hmark)]
    exact Traced.refl s
  · rename_i hmark
    split at h
    · rename_i hzero
      cases h
      rw [if_pos (Or.inr hzero)]
      exact Traced.refl s
    · rename_i hzero
      rw [if_neg (not_or.mpr ⟨hmark, hzero⟩)]
      simp only [Option.bind_eq_bind, Option.bind_eq_some_iff] at h
      obtain ⟨⟨found, s₁⟩, hget, h⟩ := h
      simp only [hget]
      obtain ⟨ht, -, -⟩ := getOperfTrans_adds hget
      rcases getOperfTrans_cases hget with ⟨rfl, hun, -⟩ | ⟨rfl, p, m, hl, rfl⟩
      · have hq := Quiet.of_untouched hun (KeepsHeld.of_tables ht)
        simp only [Bool.false_eq_true, if_false] at h
        split at h
        · cases h
          exact .quiet hq
        · cases h
          exact .quiet (hq.comp (Quiet.bump s₁ .btLostNoMapping 1))
      · simp only [if_true, Option.bind_eq_some_iff] at h
        obtain ⟨s₂, hfind, h⟩ := h
        simp only [hfind]
        refine .find (hl.attributes (Or.inl rfl)) hfind ?_
        split at h
        · rename_i hcur
          simp only [Option.bind_eq_some_iff] at h
          obtain ⟨s₃, harc, h⟩ := h
          cases h
          rw [if_pos hcur]
          obtain ⟨sf, last, key, -, hlog⟩ := operfSfileLogArc_logStep harc
          obtain ⟨-, ht₃, -, -⟩ := operfSfileLogArc_adds harc
          exact .getFile (Quiet.refl s₂) (.quiet ((Quiet.of_log hlog ht₃).comp (Quiet.updateTransLast s₃)))
        · rename_i hcur
          cases h
          rw [if_neg hcur]
          exact Traced.refl _

theorem chainCalls_traced {ips : List UInt64} {mode mode' : Bool}
    (h : ips.foldlM (callchainAddress cfg env data) (mode, s) = some (mode', s')) :
    Traced cfg s (chainCalls cfg env data ips (mode, s)) s' := by
  induction ips generalizing mode s with
  | nil =>
    cases h
    exact Traced.refl _
  | cons ip ips ih =>
    rw [List.foldlM_cons, Option.bind_eq_bind, Option.bind_eq_some_iff] at h
    obtain ⟨⟨mode₁, s₁⟩, hstep, h⟩ := h
    simp only [chainCalls, hstep]
    exact (addressCalls_traced hstep).comp (ih h)

theorem finishCalls_traced (h : finishSample cfg env s e found = some (rc, s')) :
    Traced cfg s (finishCalls cfg env s e found) s' := by
  simp only [finishSample, Option.bind_eq_bind] at h
  unfold finishCalls
  split at h
  · rename_i hfound
    rw [if_pos hfound]
    simp only [Option.bind_eq_some_iff] at h
    obtain ⟨s₁, hlog, h⟩ := h
    simp only [hlog]
    obtain ⟨sf, -, hstep, -⟩ := operfSfileLogSample_logStep hlog
    obtain ⟨-, ht, -, -⟩ := operfSfileLogSample_adds hlog
    have hq : Quiet s s₁.updateTransLast := (Quiet.of_log hstep ht).comp (Quiet.updateTransLast s₁)
    refine .getFile (Quiet.refl s) (Traced.after hq ?_)
    split at h
    · rename_i hchain
      simp only [Option.bind_eq_some_iff] at h
      obtain ⟨s₂, hs₂, h⟩ := h
      cases h
      obtain ⟨mode, hfold⟩ := handleCallchain_some.mp hs₂
      rw [if_pos hchain]
      exact chainCalls_traced hfold
    · rename_i hchain
      cases h
      rw [if_neg hchain]
      exact Traced.refl _
  · rename_i hfound
    rw [if_neg hfound]
    have hkept : Quiet s ({ s with unresolvedEvents := s.unresolvedEvents ++ [e] } : OperfState).clearTrans :=
      Quiet.of_tables ⟨rfl, rfl, rfl, rfl, rfl, rfl⟩ rfl rfl rfl
    split at h
    · cases h
      exact .quiet hkept
    · cases h
      exact .quiet (Quiet.clearTrans s)

theorem findTransCalls_traced (hhv : (e.misc == perfRecordMiscHypervisor) = false ∨
    s.firstTimeProcessing = false) (h : findTrans cfg s e inKernel = some (found, s')) :
    Traced cfg s (findTransCalls cfg s e inKernel) s' := by
  simp only [findTrans, Option.bind_eq_bind, Option.bind_eq_some_iff] at h
  unfold findTransCalls
  obtain ⟨⟨found', s₁⟩, hget, h⟩ := h
  simp only [hget]
  obtain ⟨ht, -, -⟩ := getOperfTrans_adds hget
  rcases getOperfTrans_cases hget with ⟨rfl, hun, -⟩ | ⟨rfl, p, m, hl, rfl⟩
  · cases h
    exact .quiet (Quiet.of_untouched hun (KeepsHeld.of_tables ht))
  · simp only [if_true, Option.bind_eq_some_iff] at h
    obtain ⟨s₂, hfind, h⟩ := h
    cases h
    simp only [hfind]
    exact .find (hl.attributes hhv) hfind (Traced.refl s')

theorem domainCalls_traced (h : handleDomainSample cfg env s e inKernel = some (rc, s')) :
    Traced cfg s (domainCalls cfg env s e inKernel) s' := by
  simp only [handleDomainSample, Option.bind_eq_bind, Option.bind_eq_some_iff] at h
  unfold domainCalls
  obtain ⟨⟨v, s₁⟩, hv, h⟩ := h
  simp only [hv]
  have hwith := Quiet.withEvent cfg s e.data.id
  rcases verifySample_cases hv with ⟨-, rfl, rfl⟩ | ⟨-, rfl, rfl⟩ | ⟨-, rfl, rfl⟩ | ⟨-, rfl, rfl⟩ |
    ⟨⟨hno, -⟩, rfl, rfl⟩ | ⟨t, -, hfast, rfl, rfl⟩
  · cases h
    exact .quiet (Quiet.clearTrans s₁)
  · cases h
    exact .quiet (hwith.comp (Quiet.clearTrans _))
  · cases h
    exact .quiet (hwith.comp (Quiet.clearTrans _))
  · cases h
    exact .quiet (hwith.comp (Quiet.of_tables ⟨rfl, rfl, rfl, rfl, rfl, rfl⟩ rfl rfl rfl))
  · simp only [Option.bind_eq_some_iff] at h
    obtain ⟨⟨found, s₂⟩, hfind, h⟩ := h
    simp only [hfind]
    have hhv : (e.misc == perfRecordMiscHypervisor) = false ∨
        (withEvent cfg s e.data.id).firstTimeProcessing = false := by
      by_cases hmisc : e.misc = perfRecordMiscHypervisor
      · refine Or.inr (Bool.eq_false_iff.mpr fun hfirst => hno (Or.inr ⟨hmisc, hfirst⟩))
      · exact Or.inl (beq_eq_false_iff_ne.mpr hmisc)
    exact Traced.after hwith ((findTransCalls_traced hhv hfind).comp (finishCalls_traced h))
  · refine Traced.after ?_ (finishCalls_traced h)
    obtain ⟨tid, pc, rfl⟩ := fastPath_some hfast
    exact Quiet.of_tables ⟨rfl, rfl, rfl, rfl, rfl, rfl⟩ rfl rfl rfl

theorem mapHypervisorSample_quiet {ip : UInt64} {pid : UInt32} (hfirst : s.firstTimeProcessing = true)
    (h : mapHypervisorSample cfg env s ip pid = some s') : Quiet s s' := by
  refine Quiet.of_untouched (mapHypervisorSample_untouched h) ?_
  simp only [mapHypervisorSample, Option.bind_eq_bind, Option.bind_eq_some_iff] at h
  obtain ⟨t, ht, t', ht', h⟩ := h
  cases h
  exact KeepsHeld.of_procs hfirst
    ((Processes.ensureProcess_sameHeap ht).keepsOrdinary.comp (processHypervisorMapping_keeps ht'))

theorem sampleCalls_traced (h : handleSampleEvent cfg env s e = some (rc, s')) :
    Traced cfg s (sampleCalls cfg env s e) s' := by
  unfold handleSampleEvent at h
  unfold sampleCalls
  split at h
  · rename_i htype
    cases h
    rw [if_pos htype]
    exact Traced.refl s
  · rename_i htype
    rw [if_neg htype]
    split at h
    · rename_i hk
      rw [if_pos hk]
      exact domainCalls_traced h
    · rename_i hk
      rw [if_neg hk]
      split at h
      · rename_i hu
        rw [if_pos hu]
        exact domainCalls_traced h
      · rename_i hu
        rw [if_neg hu]
        split at h
        · rename_i hhv
          rw [if_pos hhv]
          split at h
          · rename_i hip
            cases h
            rw [if_pos hip]
            exact .quiet ((Quiet.bump s .lostInvalidHypervAddr 1).comp (Quiet.clearTrans _))
          · rename_i hip
            rw [if_neg hip]
            split at h
            · rename_i hfirst
              rw [if_pos hfirst]
              simp only [Option.bind_eq_bind, Option.bind_eq_some_iff] at h
              obtain ⟨s₁, hmap, h⟩ := h
              simp only [hmap]
              exact Traced.after (mapHypervisorSample_quiet hfirst hmap) (domainCalls_traced h)
            · rename_i hfirst
              rw [if_neg hfirst]
              exact domainCalls_traced h
        · rename_i hhv
          cases h
          rw [if_neg hhv]
          exact .quiet (Quiet.clearTrans s)

end Samples

section Records

variable {t : Processes} {id : MmapId} {m : OperfMmap}

theorem knownMapping_mem {name : CString} {start : UInt64} (h : knownMapping s name start = some id) :
    ∃ x ∈ s.allImagesMap, x.2 = id := by
  simp only [knownMapping, Option.map_eq_some_iff] at h
  obtain ⟨x, hx, rfl⟩ := h
  exact ⟨x, (List.mem_filter.mp (List.mem_of_find?_eq_some hx)).1, rfl⟩

/-- A new mapping is ordinary. -/
theorem newMmap_ordinary (t : Processes) (e : MmapEvent) :
    Ordinary (t.newMmap (mmapOf e)) t.nextMmap (mmapOf e) := by
  refine ⟨?_, rfl⟩
  simp [Processes.newMmap]

theorem eventMapping_keepsHeld (hfirst : s.firstTimeProcessing = true) (e : MmapEvent)
    (ht : TablesOrdinary s) : (TablesOrdinary (eventMapping s e).1 ∧
      ∀ id m, Held s id m → Held (eventMapping s e).1 id m) ∧
    ∃ m, Ordinary (eventMapping s e).1.procs (eventMapping s e).2 m := by
  simp only [eventMapping]
  split
  · rename_i id hknown
    obtain ⟨x, hx, rfl⟩ := knownMapping_mem hknown
    exact ⟨⟨ht, fun _ _ h => h⟩, ht.images x hx⟩
  · obtain ⟨ht', hheld⟩ := KeepsHeld.of_procs hfirst (KeepsOrdinary.newMmap s.procs (mmapOf e)) ht
    have hnew := newMmap_ordinary s.procs e
    split_ifs
    · refine ⟨⟨⟨ht'.heap, fun x hx => ?_, ht'.kernel, ht'.modules⟩, hheld⟩, mmapOf e, hnew⟩
      rcases List.mem_append.mp hx with hx | hx
      · exact ht'.images x hx
      · obtain rfl := List.mem_singleton.mp hx
        exact ⟨mmapOf e, hnew⟩
    · exact ⟨⟨ht', hheld⟩, mmapOf e, hnew⟩

theorem handleKernelMmap_tables (ht : TablesOrdinary s) (hid : ∃ m, Ordinary s.procs id m) :
    TablesOrdinary (handleKernelMmap cfg s id m) := by
  unfold handleKernelMmap
  split_ifs
  · refine ⟨ht.heap, ht.images, fun id' hid' => ?_, ht.modules⟩
    cases hid'
    exact hid
  · exact ht
  · refine ⟨ht.heap, ht.images, ht.kernel, fun x hx => ?_⟩
    rcases KeyMap.mem_insert hx with rfl | hx
    · exact hid
    · exact ht.modules x hx

theorem handleMmapEvent_keepsHeld {e : MmapEvent} (hfirst : s.firstTimeProcessing = true)
    (h : handleMmapEvent cfg env s e = some s') : KeepsHeld s s' := by
  intro ht
  obtain ⟨⟨ht₁, hheld⟩, hid⟩ := eventMapping_keepsHeld hfirst e ht
  have hpass : (eventMapping s e).1.firstTimeProcessing = true :=
    (eventMapping_untouched s e).firstTime.trans hfirst
  simp only [handleMmapEvent, Option.bind_eq_bind, Option.bind_eq_some_iff] at h
  obtain ⟨m, -, h⟩ := h
  split at h
  · cases h
    refine ⟨handleKernelMmap_tables ht₁ hid, fun id' m' hm' => ?_⟩
    obtain ⟨hm, hor⟩ := hheld id' m' hm'
    unfold handleKernelMmap
    split_ifs
    · exact ⟨hm, hor⟩
    · exact ⟨hm, hor⟩
    · exact ⟨hm, hor⟩
  · simp only [Option.bind_eq_some_iff] at h
    obtain ⟨t, hens, t', hmap, h⟩ := h
    cases h
    have hsame := (Processes.ensureProcess_sameHeap hens).comp (Processes.processMapping_sameHeap hmap)
    obtain ⟨ht', hheld'⟩ := KeepsHeld.of_procs hpass hsame.keepsOrdinary ht₁
    exact ⟨ht', fun id' m' hm' => hheld' id' m' (hheld id' m' hm')⟩

theorem handleForkEvent_keepsHeld {f : ForkEvent} (hfirst : s.firstTimeProcessing = true)
    (h : handleForkEvent cfg env s f = some s') : KeepsHeld s s' := by
  have hprocs : ∃ t, SameHeap s.procs t ∧ s' = s.setProcs t := by
    simp only [handleForkEvent, Option.bind_eq_bind, Option.bind_eq_some_iff] at h
    obtain ⟨t, hens, h⟩ := h
    have hens := Processes.ensureProcess_sameHeap hens
    split at h
    · cases h
      exact ⟨t, hens, rfl⟩
    · split at h
      · simp only [Option.bind_eq_some_iff] at h
        obtain ⟨t₁, hnew, t₂, hfork, h⟩ := h
        cases h
        exact ⟨t₂, (hens.comp (Processes.setAppname_sameHeap hnew)).comp
          (Processes.setForkInfo_sameHeap hfork), rfl⟩
      · split at h
        · cases h
          exact ⟨t, hens, rfl⟩
        · simp only [Option.bind_eq_some_iff] at h
          obtain ⟨t₁, hfork, h⟩ := h
          cases h
          exact ⟨t₁, hens.comp (Processes.setForkInfo_sameHeap hfork), rfl⟩
  obtain ⟨t, hsame, rfl⟩ := hprocs
  exact KeepsHeld.of_procs hfirst hsame.keepsOrdinary

theorem commKnownProcess_sameHeap {t' : Processes} {p : ProcessInfo} {c : CommEvent}
    (h : commKnownProcess env t p c = some t') : SameHeap t t' := by
  unfold commKnownProcess at h
  split at h
  · split at h
    · split at h
      · exact Processes.tryDisassociateFromParent_sameHeap h
      · exact (Processes.set_sameHeap t _).comp (Processes.setAppname_sameHeap h)
    · cases h
      exact SameHeap.refl t
  · split at h
    · exact Processes.setAppname_sameHeap h
    · cases h
      exact SameHeap.refl t

theorem handleCommEvent_keepsHeld {c : CommEvent} (hfirst : s.firstTimeProcessing = true)
    (h : handleCommEvent cfg env s c = some s') : KeepsHeld s s' := by
  have hprocs : ∃ t, SameHeap s.procs t ∧ s' = s.setProcs t := by
    unfold handleCommEvent at h
    split at h
    · obtain ⟨t, hnew, rfl⟩ := Option.map_eq_some_iff.mp h
      exact ⟨t, Processes.setAppname_sameHeap hnew, rfl⟩
    · obtain ⟨t, hcomm, rfl⟩ := Option.map_eq_some_iff.mp h
      exact ⟨t, commKnownProcess_sameHeap hcomm, rfl⟩
  obtain ⟨t, hsame, rfl⟩ := hprocs
  exact KeepsHeld.of_procs hfirst hsame.keepsOrdinary

/-- The calls of one record of the first pass. -/
theorem eventCalls_traced {ev : Event} (hfirst : s.firstTimeProcessing = true)
    (h : opWriteEvent cfg env s ev = some (rc, s')) : Traced cfg s (eventCalls cfg env s ev) s' := by
  cases ev with
  | sample e => exact sampleCalls_traced h
  | mmap e =>
    simp only [opWriteEvent, Option.map_eq_some_iff, Prod.mk.injEq] at h
    obtain ⟨s₁, h, -, rfl⟩ := h
    exact .quiet (Quiet.of_untouched (handleMmapEvent_untouched h) (handleMmapEvent_keepsHeld hfirst h))
  | comm c =>
    simp only [opWriteEvent, Option.map_eq_some_iff, Prod.mk.injEq] at h
    obtain ⟨s₁, h, -, rfl⟩ := h
    have hinit : Quiet s { s with sfileInitDone := true } :=
      Quiet.of_tables ⟨rfl, rfl, rfl, rfl, rfl, rfl⟩ rfl rfl rfl
    exact .quiet (hinit.comp (Quiet.of_untouched (handleCommEvent_untouched h)
      (handleCommEvent_keepsHeld hfirst h)))
  | fork f =>
    simp only [opWriteEvent, Option.map_eq_some_iff, Prod.mk.injEq] at h
    obtain ⟨s₁, h, -, rfl⟩ := h
    exact .quiet (Quiet.of_untouched (handleForkEvent_untouched h) (handleForkEvent_keepsHeld hfirst h))
  | throttle id =>
    simp only [opWriteEvent, handleThrottleEvent, Option.some.injEq] at h
    split at h
    · cases h
      exact .quiet (Quiet.of_tables ⟨rfl, rfl, rfl, rfl, rfl, rfl⟩ rfl rfl rfl)
    · cases h
      exact .quiet (Quiet.of_tables ⟨rfl, rfl, rfl, rfl, rfl, rfl⟩ rfl rfl rfl)
  | lost count =>
    cases h
    exact .quiet (Quiet.bump s .recordLostSample count)
  | exit =>
    cases h
    exact Traced.refl _
  | other type =>
    simp only [opWriteEvent] at h
    split at h
    · cases h
      exact Traced.refl _
    · cases h
      exact Traced.refl _

theorem settleProcesses_quiet (h : settleProcesses { s with firstTimeProcessing := false } = some s') :
    Quiet s s' := by
  have hun := settleProcesses_untouched h
  simp only [settleProcesses, Option.bind_eq_bind, Option.bind_eq_some_iff] at h
  obtain ⟨t, hfold, h⟩ := h
  cases h
  have hsame : SameHeap s.procs t := by
    refine foldlM_rel SameHeap.refl (fun _ _ _ => SameHeap.comp) (fun t t' pid hstep => ?_) hfold
    simp only [settleProcess, Option.bind_eq_bind, Option.bind_eq_some_iff] at hstep
    obtain ⟨p, -, t₁, hvalid, q, -, hstep⟩ := hstep
    cases hstep
    refine SameHeap.comp ?_ (Processes.set_sameHeap t₁ _)
    unfold settleValid at hvalid
    split at hvalid
    · cases hvalid
      exact SameHeap.refl _
    · split at hvalid
      · simp only [Processes.connectForkedProcessToParent, Option.bind_eq_bind,
          Option.bind_eq_some_iff] at hvalid
        obtain ⟨parent, -, r, -, hvalid⟩ := hvalid
        cases hvalid
        exact Processes.set_sameHeap t _
      · cases hvalid
        exact Processes.set_sameHeap t _
  refine ⟨FilesClosed.of_eq rfl, rfl, rfl, fun ht => ⟨?_, fun id m hm => ?_⟩⟩
  · obtain ⟨hheap, hkept⟩ := hsame.keepsOrdinary ht.heap
    have hall : ∀ id, (∃ m, Ordinary s.procs id m) → ∃ m, Ordinary t id m := by
      rintro id ⟨m, hm⟩
      exact ⟨m, hkept id m hm⟩
    exact ⟨hheap, fun x hx => hall _ (ht.images x hx), fun id hid => hall _ (ht.kernel id hid),
      fun x hx => hall _ (ht.modules x hx)⟩
  · refine ⟨?_, Or.inr rfl⟩
    have hmmaps := hsame.mmaps
    exact (congrFun hmmaps id).trans hm.1

end Records

section Runs

/-- The calls of the first pass lead to its last state, or up to the record that is not handled. -/
theorem writeCalls_traced (hfirst : s.firstTimeProcessing = true) :
    (∃ s', Traced cfg s (writeCalls cfg env es s) s') ∧
      ∀ rc s', writeEvents cfg env es s = some (rc, s') → Traced cfg s (writeCalls cfg env es s) s' := by
  induction es generalizing s with
  | nil =>
    refine ⟨⟨s, Traced.refl s⟩, fun rc s' h => ?_⟩
    cases h
    exact Traced.refl _
  | cons ev es ih =>
    simp only [writeCalls, writeEvents, Option.bind_eq_bind]
    cases hstep : opWriteEvent cfg env s ev with
    | none => exact ⟨⟨s, Traced.refl s⟩, fun rc s' h => by cases h⟩
    | some r =>
      obtain ⟨rc₁, s₁⟩ := r
      have hev := eventCalls_traced hfirst hstep
      have hfirst₁ : s₁.firstTimeProcessing = true := (opWriteEvent_firstTime hstep).trans hfirst
      obtain ⟨⟨s₂, hsome⟩, hrun⟩ := ih hfirst₁
      simp only [Option.bind_some]
      by_cases hneg : rc₁ < 0
      · simp only [if_pos hneg, List.append_nil]
        refine ⟨⟨s₁, hev⟩, fun rc s' h => ?_⟩
        cases h
        exact hev
      · simp only [if_neg hneg]
        exact ⟨⟨s₂, hev.comp hsome⟩, fun rc s' h => hev.comp (hrun rc s' h)⟩

theorem resolveCalls_traced (us : List SampleEvent) (s : OperfState) :
    ∃ s', Traced cfg s (resolveCalls cfg env us s) s' := by
  induction us generalizing s with
  | nil => exact ⟨s, Traced.refl s⟩
  | cons e us ih =>
    simp only [resolveCalls]
    cases hstep : handleSampleEvent cfg env s e with
    | none => exact ⟨s, Traced.refl s⟩
    | some r =>
      obtain ⟨rc, s₁⟩ := r
      have hev := sampleCalls_traced hstep
      obtain ⟨s₂, hrest⟩ := ih s₁
      by_cases hneg : rc < 0
      · simp only [if_pos hneg, List.append_nil]
        exact ⟨s₁, hev⟩
      · simp only [if_neg hneg]
        exact ⟨s₂, hev.comp hrest⟩

theorem conversionCalls_traced (hfirst : s.firstTimeProcessing = true) :
    ∃ s', Traced cfg s (conversionCalls cfg env es s) s' := by
  have hwrites : (∃ s', Traced cfg s (writeCalls cfg env es s) s') ∧
      ∀ rc s', writeEvents cfg env es s = some (rc, s') →
        Traced cfg s (writeCalls cfg env es s) s' := writeCalls_traced hfirst
  obtain ⟨⟨s₁, hsome⟩, hrun⟩ := hwrites
  unfold conversionCalls
  cases hwrite : writeEvents cfg env es s with
  | none =>
    simp only [List.append_nil]
    exact ⟨s₁, hsome⟩
  | some r =>
    obtain ⟨rc, s₂⟩ := r
    have hpass := hrun rc s₂ hwrite
    by_cases hneg : rc < 0
    · simp only [if_pos hneg, List.append_nil]
      exact ⟨s₂, hpass⟩
    · simp only [if_neg hneg]
      unfold secondPassCalls
      cases hsettle : settleProcesses { s₂ with firstTimeProcessing := false } with
      | none =>
        simp only [List.append_nil]
        exact ⟨s₂, hpass⟩
      | some s₃ =>
        have hresolve : ∃ s', Traced cfg s₃ (resolveCalls cfg env s₃.unresolvedEvents s₃) s' :=
          resolveCalls_traced s₃.unresolvedEvents s₃
        obtain ⟨s₄, hrest⟩ := hresolve
        exact ⟨s₄, hpass.comp (Traced.after (settleProcesses_quiet hsettle) hrest)⟩

end Runs

end Oprofile.Operf
