import Oprofile.Operf.EventIds
import Oprofile.Operf.SfileTable

/-! When the cached transient serves a sample as a lookup would. -/
namespace Oprofile.Operf

variable {n : Nat} {cfg : Config n} {env : Env} {images : KernelImages} {s s' s'' : OperfState}
  {e : SampleEvent} {inKernel : Bool} {rc : Int}

/-- The process in `trans` is known under the name in `trans`. -/
structure OwnerKnown (s : OperfState) : Prop where
  owner : s.trans.tgid ≠ 0xffffffff → s.trans.imageName ≠ none →
    s.trans.curProcinfo = some s.trans.tgid
  known : ∀ pid, s.trans.curProcinfo = some pid → s.trans.tgid = pid ∧
    ∃ p, s.procs.find pid = some p ∧ p.isAppnameValid = true ∧ p.appname.length = s.trans.appLen

/-- `trans.current` is a file in the table, made for what `trans` says. -/
structure CurrentKnown (s : OperfState) : Prop where
  inTable : ∀ sf, s.trans.current = some sf → sf ∈ s.sfiles.hashes
  initDone : s.trans.current ≠ none → s.sfileInitDone = true
  attributed : s.trans.current ≠ none → s.trans.imageName ≠ none
  isAnon : ∀ sf, s.trans.current = some sf → sf.isAnon = s.trans.isAnon
  appLen : ∀ sf, s.trans.current = some sf → sf.appLen = s.trans.appLen
  tgid : ∀ sf, s.trans.current = some sf → s.trans.tgid ≠ 0xffffffff → sf.tgid = s.trans.tgid

/-- `trans`, the processes and the files agree. -/
structure Coherent (cfg : Config n) (s : OperfState) : Prop where
  keyed : Keyed s.procs
  table : SfilesOk cfg.separateCpu s.sfiles
  process : OwnerKnown s
  current : CurrentKnown s

theorem OwnerKnown.grows (h : OwnerKnown s) (ht : s'.trans = s.trans)
    (hk : NamesKept s.procs s'.procs) : OwnerKnown s' := by
  refine ⟨?_, fun pid hpid => ?_⟩
  · rw [ht]
    exact h.owner
  · rw [ht] at hpid ⊢
    obtain ⟨htgid, p, hp, hv, hlen⟩ := h.known pid hpid
    obtain ⟨p', hp', hv', hname⟩ := hk pid p hp hv
    exact ⟨htgid, p', hp', hv', by rw [hname, hlen]⟩

theorem CurrentKnown.of_eq (h : CurrentKnown s) (ht : s'.trans = s.trans)
    (hsf : ∀ sf, s.trans.current = some sf → sf ∈ s'.sfiles.hashes)
    (hinit : s.sfileInitDone = true → s'.sfileInitDone = true) : CurrentKnown s' := by
  refine ⟨?_, ?_, ?_, ?_, ?_, ?_⟩
  · rw [ht]
    exact hsf
  · rw [ht]
    exact fun hne => hinit (h.initDone hne)
  · rw [ht]
    exact h.attributed
  · rw [ht]
    exact h.isAnon
  · rw [ht]
    exact h.appLen
  · rw [ht]
    exact h.tgid

namespace Coherent

theorem untouched (h : Coherent cfg s) (hun : Untouched s s') : Coherent cfg s' := by
  obtain ⟨hk, hn⟩ := hun.procs h.keyed
  refine ⟨hk, hun.sfiles ▸ h.table, h.process.grows hun.transient hn, ?_⟩
  refine h.current.of_eq hun.transient (fun sf hsf => ?_) fun hi => hun.initDone.trans hi
  rw [hun.sfiles]
  exact h.current.inTable sf hsf

theorem clearTrans (h : Coherent cfg s) : Coherent cfg s.clearTrans where
  keyed := h.keyed
  table := h.table
  process := ⟨fun hne => absurd rfl hne, fun _ hpid => by cases hpid⟩
  current := ⟨h.current.inTable, h.current.initDone, h.current.attributed, h.current.isAnon,
    h.current.appLen, fun _ _ hne => absurd rfl hne⟩

theorem cleared (h : Coherent cfg s) (hc : Cleared s s') : Coherent cfg s' :=
  h.clearTrans.untouched ⟨hc.transient, hc.sfiles, hc.logged, hc.firstTime, hc.initDone, hc.procs⟩

theorem withEvent (h : Coherent cfg s) (id : UInt64) : Coherent cfg (withEvent cfg s id) := by
  unfold Operf.withEvent
  split_ifs
  · exact ⟨h.keyed, h.table, ⟨h.process.owner, h.process.known⟩, ⟨h.current.inTable,
      h.current.initDone, h.current.attributed, h.current.isAnon, h.current.appLen, h.current.tgid⟩⟩
  · exact h

theorem logStep {entry : LogEntry} (h : Coherent cfg s) (hl : LogStep s s' entry) :
    Coherent cfg s' := by
  obtain ⟨keep, hsf, hkeep⟩ := hl.sfiles
  refine ⟨hl.procs ▸ h.keyed, hsf ▸ h.table.filter keep, ?_, ?_⟩
  · refine h.process.grows hl.transient fun pid p hp hv => ⟨p, ?_, hv, rfl⟩
    rw [hl.procs, hp]
  · refine h.current.of_eq hl.transient (fun sf hcur => ?_) fun hi => hl.initDone.trans hi
    rw [hsf]
    exact List.mem_filter.mpr ⟨h.current.inTable sf hcur, hkeep sf hcur⟩

theorem updateTransLast (h : Coherent cfg s) : Coherent cfg s.updateTransLast :=
  ⟨h.keyed, h.table, ⟨h.process.owner, h.process.known⟩, ⟨h.current.inTable,
    h.current.initDone, h.current.attributed, h.current.isAnon, h.current.appLen, h.current.tgid⟩⟩

theorem fast {t : OperfTransient} {data : SampleData} (h : Coherent cfg s)
    (hfast : fastPath s.trans data inKernel = some t) : Coherent cfg { s with trans := t } := by
  obtain ⟨tid, pc, rfl⟩ := fastPath_some hfast
  exact ⟨h.keyed, h.table, ⟨h.process.owner, h.process.known⟩, ⟨h.current.inTable,
    h.current.initDone, h.current.attributed, h.current.isAnon, h.current.appLen, h.current.tgid⟩⟩

/-- The process a lookup finds is the one of the map. -/
theorem lookup_process {pid : UInt32} {p : ProcessInfo} (h : OwnerKnown s)
    (hp : sampleProcess s pid = some (some p)) :
    s.procs.find pid = some p ∧ p.isAppnameValid = true := by
  unfold sampleProcess at hp
  split at hp
  · rename_i htgid
    simp only [Option.some.injEq, Option.bind_eq_some_iff] at hp
    obtain ⟨cur, hcur, hfind⟩ := hp
    obtain ⟨htg, q, hq, hv, -⟩ := h.known cur hcur
    rw [hfind] at hq
    cases hq
    rw [← htgid, htg]
    exact ⟨hfind, hv⟩
  · split at hp
    · rename_i q hq
      split at hp
      · rename_i hv
        cases hp
        exact ⟨hq, hv⟩
      · cases hp
    · cases hp

/-- Setting `trans` and finding its file. -/
theorem lookup {data : SampleData} {hv k : Bool} {p : ProcessInfo} {m : OperfMmap}
    (h : Coherent cfg s) (hl : Lookup s data hv k p m)
    (hfind : findCurrent cfg { s with trans := setTrans s.trans data p.appname m k } = some s') :
    Coherent cfg s' := by
  obtain ⟨hp, hvalid⟩ := lookup_process h.process hl.process
  have hproc : OwnerKnown { s with trans := setTrans s.trans data p.appname m k } := by
    refine ⟨fun _ _ => rfl, fun pid hpid => ?_⟩
    cases hpid
    exact ⟨rfl, p, hp, hvalid, rfl⟩
  obtain ⟨name, hname, hinit, ⟨-, -, rfl⟩ | ⟨ki, -, -, rfl⟩⟩ := findCurrent_cases hfind
  · refine ⟨h.keyed, h.table, ⟨hproc.owner, hproc.known⟩, ⟨?_, ?_, ?_, ?_, ?_, ?_⟩⟩
    · exact fun _ hsf => by cases hsf
    · exact fun hne => absurd rfl hne
    · exact fun hne => absurd rfl hne
    · exact fun _ hsf => by cases hsf
    · exact fun _ hsf => by cases hsf
    · exact fun _ hsf => by cases hsf
  · have hlen : (setTrans s.trans data p.appname m k).imageLen = name.length := by
      cases hname
      rfl
    obtain ⟨htable, hmem, hkey⟩ := sfileFind_spec ki h.table hlen
    simp only [OperfSfile.key, transKey, fileKey, FileKey.mk.injEq] at hkey
    obtain ⟨-, -, htgid, hanon, happ, -, -, -⟩ := hkey
    refine ⟨h.keyed, htable, ⟨hproc.owner, hproc.known⟩, ⟨?_, ?_, ?_, ?_, ?_, ?_⟩⟩
    · rintro sf ⟨⟩
      exact hmem
    · exact fun _ => hinit
    · exact fun _ hnone => by cases hnone
    · rintro sf ⟨⟩
      exact hanon
    · rintro sf ⟨⟩
      exact happ
    · rintro sf ⟨⟩ -
      exact htgid

theorem callchainAddress {data : SampleData} {mode mode' : Bool} {ip : UInt64}
    (hc : Coherent cfg s) (h : callchainAddress cfg env data (mode, s) ip = some (mode', s')) :
    Coherent cfg s' := by
  simp only [Operf.callchainAddress] at h
  split at h
  · cases h
    exact hc
  · split at h
    · cases h
      exact hc
    · simp only [Option.bind_eq_bind, Option.bind_eq_some_iff] at h
      obtain ⟨⟨found, s₁⟩, htrans, h⟩ := h
      rcases getOperfTrans_cases htrans with ⟨rfl, hun, -⟩ | ⟨rfl, p, m, hlookup, rfl⟩
      · have hc₁ := hc.untouched hun
        simp only [Bool.false_eq_true, if_false] at h
        split at h
        · cases h
          exact hc₁
        · cases h
          exact hc₁.untouched (bump_untouched _ _ _)
      · simp only [if_true, Option.bind_eq_some_iff] at h
        obtain ⟨s₂, hfind, h⟩ := h
        have hc₂ := hc.lookup hlookup hfind
        split at h
        · simp only [Option.bind_eq_some_iff] at h
          obtain ⟨s₃, harc, h⟩ := h
          cases h
          obtain ⟨sf, last, key, -, hstep⟩ := operfSfileLogArc_logStep harc
          exact (hc₂.logStep hstep).updateTransLast
        · cases h
          exact hc₂

theorem handleCallchain (hc : Coherent cfg s) (h : handleCallchain cfg env s e = some s') :
    Coherent cfg s' := by
  simp only [Operf.handleCallchain, Option.bind_eq_bind, Option.bind_eq_some_iff] at h
  obtain ⟨⟨mode, s₁⟩, hfold, h⟩ := h
  cases h
  exact foldlM_rel (R := fun (r r' : Bool × OperfState) => Coherent cfg r.2 → Coherent cfg r'.2)
    (fun _ hc => hc) (fun _ _ _ h h' hc => h' (h hc))
    (fun _ _ _ hstep hc => hc.callchainAddress hstep) hfold hc

theorem finishSample (hc : Coherent cfg s) (h : finishSample cfg env s e true = some (rc, s')) :
    Coherent cfg s' := by
  obtain ⟨-, ⟨-, hcl⟩ | ⟨sf, s₁, -, hlog, -, rfl | hchain⟩⟩ := finishSample_found h
  · exact hc.cleared hcl
  · exact (hc.logStep hlog).updateTransLast
  · exact (hc.logStep hlog).updateTransLast.handleCallchain hchain

/-- Every outcome of a sample leaves `trans`, the processes and the files in agreement. -/
theorem domainStep (hc : Coherent cfg s) (h : DomainStep cfg env s e inKernel rc s') :
    Coherent cfg s' := by
  cases h with
  | skipped hnone hcl => exact hc.cleared hcl
  | refused hneg hcl => exact (hc.withEvent _).cleared hcl
  | withheld hw hcl => exact (hc.withEvent _).cleared hcl
  | unattributed hno hcl => exact (hc.withEvent _).cleared hcl
  | fast hid hfast hfin => exact (hc.fast hfast).finishSample hfin
  | lookup hlookup hfind hfin => exact ((hc.withEvent _).lookup hlookup hfind).finishSample hfin

theorem handleSampleEvent (hc : Coherent cfg s)
    (h : handleSampleEvent cfg env s e = some (rc, s')) : Coherent cfg s' := by
  rcases handleSampleEvent_cases h with ⟨-, rfl⟩ | ⟨-, hcl⟩ | ⟨s₁, -, hun, -, hstep⟩
  · exact hc
  · exact hc.cleared hcl
  · exact (hc.untouched hun).domainStep hstep

/-- Changes to what no cached data depends on. -/
theorem of_eq (hc : Coherent cfg s) (ht : s'.trans = s.trans) (hp : s'.procs = s.procs)
    (hsf : s'.sfiles = s.sfiles) (hinit : s.sfileInitDone = true → s'.sfileInitDone = true) :
    Coherent cfg s' := by
  refine ⟨hp ▸ hc.keyed, hsf ▸ hc.table, ?_, ?_⟩
  · exact hc.process.grows ht fun pid p hfind hv => ⟨p, hp ▸ hfind, hv, rfl⟩
  · refine hc.current.of_eq ht (fun sf hcur => ?_) hinit
    rw [hsf]
    exact hc.current.inTable sf hcur

theorem opWriteEvent {ev : Event} (hc : Coherent cfg s)
    (h : opWriteEvent cfg env s ev = some (rc, s')) : Coherent cfg s' := by
  cases ev with
  | sample e => exact hc.handleSampleEvent h
  | mmap m =>
    simp only [Operf.opWriteEvent, Option.map_eq_some_iff, Prod.mk.injEq] at h
    obtain ⟨s₁, h, -, rfl⟩ := h
    exact hc.untouched (handleMmapEvent_untouched h)
  | comm c =>
    simp only [Operf.opWriteEvent, Option.map_eq_some_iff, Prod.mk.injEq] at h
    obtain ⟨s₁, h, -, rfl⟩ := h
    have hinit : Coherent cfg { s with sfileInitDone := true } := hc.of_eq rfl rfl rfl fun _ => rfl
    exact hinit.untouched (handleCommEvent_untouched h)
  | fork f =>
    simp only [Operf.opWriteEvent, Option.map_eq_some_iff, Prod.mk.injEq] at h
    obtain ⟨s₁, h, -, rfl⟩ := h
    exact hc.untouched (handleForkEvent_untouched h)
  | throttle id =>
    have hevent : ∀ i, Coherent cfg { s with trans := { s.trans with event := i } } := fun i =>
      ⟨hc.keyed, hc.table, ⟨hc.process.owner, hc.process.known⟩, ⟨hc.current.inTable,
        hc.current.initDone, hc.current.attributed, hc.current.isAnon, hc.current.appLen,
        hc.current.tgid⟩⟩
    simp only [Operf.opWriteEvent, handleThrottleEvent, Option.some.injEq] at h
    split at h
    · cases h
      exact (hevent _).of_eq rfl rfl rfl fun hi => hi
    · cases h
      exact hevent _
  | lost count =>
    cases h
    exact hc.untouched (bump_untouched _ _ _)
  | exit =>
    cases h
    exact hc
  | other type =>
    simp only [Operf.opWriteEvent] at h
    split at h
    · cases h
      exact hc
    · cases h
      exact hc

end Coherent

theorem coherent_initialState (cfg : Config n) (images : KernelImages) :
    Coherent cfg (initialState images) := by
  refine ⟨fun _ _ hfind => ?_, sfilesOk_nil _, ⟨fun _ hne => absurd rfl hne, fun _ hcur => ?_⟩, ?_⟩
  · cases hfind
  · cases hcur
  · refine ⟨?_, fun hne => absurd rfl hne, fun hne => absurd rfl hne, ?_, ?_, ?_⟩
    · rintro sf ⟨⟩
    · rintro sf ⟨⟩
    · rintro sf ⟨⟩
    · rintro sf ⟨⟩

theorem reachable_coherent {P : OperfState → Event → Prop} (h : Reachable cfg env images P s) :
    Coherent cfg s := by
  induction h with
  | init => exact coherent_initialState cfg images
  | record hs hfirst hP hstep hrc ih => exact ih.opWriteEvent hstep
  | @settle s s' hs hstep ih =>
    have hsecond : Coherent cfg { s with firstTimeProcessing := false } :=
      ih.of_eq rfl rfl rfl fun hi => hi
    exact hsecond.untouched (settleProcesses_untouched hstep)
  | resolve hs hsecond hP hstep hrc ih => exact ih.handleSampleEvent hstep

/-- What is logged for a sample when `trans` is cleared first: `__get_operf_trans` and
`operf_sfile_find` are run. -/
def slowEntry (cfg : Config n) (s : OperfState) (e : SampleEvent) (inKernel : Bool) :
    Option (Option LogEntry) := do
  let (found, s) ← findTrans cfg s.clearTrans e inKernel
  if found then
    some (s.trans.current.map fun sf => .sample sf s.trans.event (sampleOffset sf s.trans.pc))
  else some none

/-- The kernel image of an address; a user address has none. -/
def imageAt (images : KernelImages) (inKernel : Bool) (ip : UInt64) :
    Option (Option (Nat × KernelImage)) :=
  if inKernel then (images.findKernelImage ip).map some else some none

/-- The sample comes from the context the file `sf` in `trans` was made for: process `p`, mapping
`m` and image `ki` are what a lookup finds. -/
structure SameContext (cfg : Config n) (s : OperfState) (e : SampleEvent) (inKernel : Bool)
    (sf : OperfSfile) (p : ProcessInfo) (m : OperfMmap) (ki : Option (Nat × KernelImage)) : Prop where
  found : Lookup s.clearTrans e.data (e.misc == perfRecordMiscHypervisor) inKernel p m
  image : imageAt s.kernelImages inKernel e.data.ip = some ki
  domain : ki.map Prod.fst = sf.kernel.map Prod.fst
  thread : e.data.tid = sf.tid
  cpu : cfg.separateCpu = true → e.data.cpu = sf.cpu
  anon : m.isAnonMapping = sf.isAnon
  imageLen : m.filename.length = sf.imageName.length
  imageName : ki = none → m.filename = sf.imageName
  start : inKernel = false → m.isAnonMapping = false → m.startAddr = s.trans.startAddr
  bucket : sfileHash cfg.separateCpu e.data.pid e.data.cpu m.isAnonMapping m.startAddr m.endAddr
    p.appname m.filename (ki.map Prod.snd) = sf.hashval

theorem getOperfTrans_of_lookup {data : SampleData} {hv k : Bool} {p : ProcessInfo} {m : OperfMmap}
    (h : Lookup s data hv k p m) : getOperfTrans cfg s data hv k =
      some (true, { s with trans := setTrans s.trans data p.appname m k }) := by
  simp only [getOperfTrans, h.process, h.mapping, Option.bind_eq_bind, Option.bind_some]

theorem fastPath_spec {trans t : OperfTransient} {data : SampleData}
    (h : fastPath trans data inKernel = some t) : trans.tgid = data.pid ∧
      t.pc = if inKernel || trans.isAnon then data.ip else data.ip - trans.startAddr := by
  unfold fastPath at h
  split at h
  · rename_i hk
    split at h
    · rename_i hpid
      split at h
      · cases h
        exact ⟨hpid.2, by simp [hk]⟩
      · split at h
        · cases h
          exact ⟨hpid.2, by simp [hk]⟩
        · cases h
    · cases h
  · rename_i hu
    split at h
    · rename_i hpid
      cases h
      exact ⟨hpid.1, by simp [hu]⟩
    · cases h

theorem sampleOffset_inj {sf : OperfSfile} {a b : UInt64} :
    sampleOffset sf a = sampleOffset sf b ↔ a = b := by
  constructor
  · intro h
    simp only [sampleOffset] at h
    split at h
    · split at h
      · exact (UInt64.sub_left_inj _).mp ((UInt64.sub_left_inj _).mp h)
      · exact (UInt64.sub_left_inj _).mp h
    · split at h
      · exact (UInt64.sub_left_inj _).mp h
      · exact h
  · rintro rfl
    rfl

/-- The transient a lookup sets. -/
def slowTrans (s : OperfState) (e : SampleEvent) (inKernel : Bool) (p : ProcessInfo) (m : OperfMmap) :
    OperfTransient :=
  setTrans s.clearTrans.trans e.data p.appname m inKernel

theorem slowTrans_pc (p : ProcessInfo) (m : OperfMmap) : (slowTrans s e inKernel p m).pc =
    if inKernel || m.isAnonMapping then e.data.ip else e.data.ip - m.startAddr := rfl

/-- The file a lookup finds. -/
def slowFile (cfg : Config n) (s : OperfState) (e : SampleEvent) (inKernel : Bool) (p : ProcessInfo)
    (m : OperfMmap) (ki : Option (Nat × KernelImage)) : OperfSfile :=
  (sfileFind cfg.separateCpu s.sfiles (slowTrans s e inKernel p m) m.filename ki).1

theorem slowEntry_of_lookup {p : ProcessInfo} {m : OperfMmap} (hinit : s.sfileInitDone = true)
    (h : Lookup s.clearTrans e.data (e.misc == perfRecordMiscHypervisor) inKernel p m) :
    slowEntry cfg s e inKernel = some ((imageAt s.kernelImages inKernel e.data.ip).map fun ki =>
      .sample (slowFile cfg s e inKernel p m ki) s.trans.event
        (sampleOffset (slowFile cfg s e inKernel p m ki) (slowTrans s e inKernel p m).pc)) := by
  simp only [slowEntry, findTrans, getOperfTrans_of_lookup h, Option.bind_eq_bind, Option.bind_some,
    if_true, findCurrent, setTrans]
  have hinit' : s.clearTrans.sfileInitDone = true := hinit
  simp only [hinit', Bool.not_true, Bool.false_eq_true, if_false]
  cases inKernel with
  | true =>
    simp only [if_true, imageAt, Bool.true_or]
    cases hki : s.clearTrans.kernelImages.findKernelImage e.data.ip with
    | none =>
      have hki' : s.kernelImages.findKernelImage e.data.ip = none := hki
      simp [hki']
    | some ki =>
      have hki' : s.kernelImages.findKernelImage e.data.ip = some ki := hki
      simp only [hki', Option.map_some, if_true, Option.bind_some]
      rfl
  | false =>
    simp only [Bool.false_eq_true, if_false, imageAt, Bool.false_or, Option.map_some, if_true,
      Option.bind_some]
    rfl

theorem lookup_of_slowEntry {entry : LogEntry} (h : slowEntry cfg s e inKernel = some (some entry)) :
    ∃ p m, Lookup s.clearTrans e.data (e.misc == perfRecordMiscHypervisor) inKernel p m := by
  simp only [slowEntry, findTrans, Option.bind_eq_bind, Option.bind_eq_some_iff] at h
  obtain ⟨⟨found, s₁⟩, ⟨⟨found', s₂⟩, htrans, hfind⟩, h⟩ := h
  rcases getOperfTrans_cases htrans with ⟨rfl, -, -⟩ | ⟨rfl, p, m, hlookup, -⟩
  · cases hfind
    cases h
  · exact ⟨p, m, hlookup⟩

/-- The name of the process found is as long as the one in `trans`. -/
theorem appname_length {p : ProcessInfo} {m : OperfMmap} {hv : Bool} (hc : Coherent cfg s)
    (hcur : s.trans.current ≠ none) (htgid : s.trans.tgid = e.data.pid)
    (h : Lookup s.clearTrans e.data hv inKernel p m) :
    e.data.pid ≠ 0xffffffff ∧ p.appname.length = s.trans.appLen := by
  have hpid : e.data.pid ≠ 0xffffffff := by
    intro heq
    have hp := h.process
    have hnone : sampleProcess s.clearTrans e.data.pid = some none := by
      rw [heq]
      rfl
    rw [hnone] at hp
    cases hp
  refine ⟨hpid, ?_⟩
  obtain ⟨hfind, -⟩ := Coherent.lookup_process hc.clearTrans.process h.process
  have howner := hc.process.owner (htgid ▸ hpid) (hc.current.attributed hcur)
  obtain ⟨-, q, hq, -, hlen⟩ := hc.process.known _ howner
  have heq : s.procs.find e.data.pid = some p := hfind
  rw [htgid, heq] at hq
  cases hq
  exact hlen

/-- The slow path finds the cached file, at the cached offset, exactly in the same context. -/
theorem sameContext_iff {t : OperfTransient} {sf : OperfSfile} {p : ProcessInfo} {m : OperfMmap}
    {ki : Option (Nat × KernelImage)} (hc : Coherent cfg s)
    (hfast : fastPath s.trans e.data inKernel = some t) (hcur : s.trans.current = some sf)
    (hfound : Lookup s.clearTrans e.data (e.misc == perfRecordMiscHypervisor) inKernel p m)
    (himage : imageAt s.kernelImages inKernel e.data.ip = some ki) :
    (slowFile cfg s e inKernel p m ki = sf ∧
      sampleOffset sf (slowTrans s e inKernel p m).pc = sampleOffset sf t.pc) ↔
    SameContext cfg s e inKernel sf p m ki := by
  obtain ⟨htgid, hpc⟩ := fastPath_spec hfast
  have hne : s.trans.current ≠ none := by simp [hcur]
  obtain ⟨hpid, happ⟩ := appname_length hc hne htgid hfound
  have hmem := hc.current.inTable sf hcur
  have hsftgid := hc.current.tgid sf hcur (htgid ▸ hpid)
  have hanon := hc.current.isAnon sf hcur
  have hsfapp := hc.current.appLen sf hcur
  rw [slowFile, sfileFind_eq_iff hc.table rfl hmem, sampleOffset_inj, slowTrans_pc, hpc]
  simp only [transKey, OperfSfile.key, fileKey, FileKey.mk.injEq]
  constructor
  · rintro ⟨⟨hhash, hdom, htid, -, han, -, hlen, hcpu, hname⟩, hoff⟩
    refine ⟨hfound, himage, hdom, htid, fun hsep => ?_, han, hlen, fun hki => ?_, fun hu ha => ?_, hhash⟩
    · rw [hsep, if_pos rfl, if_pos rfl] at hcpu
      exact Option.some_inj.mp hcpu
    · rw [← isSome_of_fst_eq hdom, hki] at hname
      exact Option.some_inj.mp hname
    · rw [hu, ← hanon, ← han.trans rfl] at hoff
      have hma : (slowTrans s e false p m).isAnon = false := ha
      rw [hu] at hoff
      simp only [hma, ha, Bool.or_self, Bool.false_eq_true, if_false] at hoff
      exact (UInt64.sub_right_inj _).mp hoff
  · intro h
    refine ⟨⟨h.bucket, h.domain, h.thread, ?_, h.anon, ?_, h.imageLen, ?_, ?_⟩, ?_⟩
    · exact htgid.symm.trans hsftgid.symm
    · exact happ.trans hsfapp.symm
    · cases hsep : cfg.separateCpu with
      | false => rfl
      | true => exact congrArg some (h.cpu hsep)
    · rw [← isSome_of_fst_eq h.domain]
      cases hki : ki with
      | none => exact congrArg some (h.imageName hki)
      | some k => rfl
    · rw [← hanon, ← h.anon]
      cases hk : inKernel with
      | true => rfl
      | false =>
        cases ha : m.isAnonMapping with
        | true => rfl
        | false =>
          simp only [Bool.or_self, Bool.false_eq_true, if_false]
          rw [h.start hk ha]

theorem slowEntry_eq_iff {t : OperfTransient} {sf : OperfSfile} (hc : Coherent cfg s)
    (hfast : fastPath s.trans e.data inKernel = some t) (hcur : s.trans.current = some sf) :
    slowEntry cfg s e inKernel = some (some (.sample sf s.trans.event (sampleOffset sf t.pc))) ↔
      ∃ p m ki, SameContext cfg s e inKernel sf p m ki := by
  have hinit := hc.current.initDone (by simp [hcur])
  constructor
  · intro h
    obtain ⟨p, m, hfound⟩ := lookup_of_slowEntry h
    rw [slowEntry_of_lookup hinit hfound, Option.some_inj, Option.map_eq_some_iff] at h
    obtain ⟨ki, himage, h⟩ := h
    rw [LogEntry.sample.injEq] at h
    obtain ⟨hfile, -, hoff⟩ := h
    rw [hfile] at hoff
    exact ⟨p, m, ki, (sameContext_iff hc hfast hcur hfound himage).mp ⟨hfile, hoff⟩⟩
  · rintro ⟨p, m, ki, h⟩
    obtain ⟨hfile, hoff⟩ := (sameContext_iff hc hfast hcur h.found h.image).mpr h
    rw [slowEntry_of_lookup hinit h.found, h.image, Option.map_some, hfile, hoff]

/-- What the fast path logs for a sample. -/
def fastEntry (s : OperfState) (t : OperfTransient) (sf : OperfSfile) : LogEntry :=
  .sample sf s.trans.event (sampleOffset sf t.pc)

theorem verifySample_fast {t : OperfTransient}
    (h : verifySample cfg s e inKernel = some (.fast t, s')) :
    fastPath s.trans e.data inKernel = some t ∧ s' = s := by
  rcases verifySample_cases h with ⟨-, hv, -⟩ | ⟨-, hv, -⟩ | ⟨-, hv, -⟩ | ⟨-, hv, -⟩ | ⟨-, hv, -⟩ |
    ⟨t', -, hfast, hv, hs⟩
  · cases hv
  · cases hv
  · cases hv
  · cases hv
  · cases hv
  · cases hv
    exact ⟨hfast, hs⟩

/-- The fast path logs to the cached file. -/
theorem handleDomainSample_fast {t : OperfTransient} {sf : OperfSfile}
    (hv : verifySample cfg s e inKernel = some (.fast t, s'')) (hcur : t.current = some sf)
    (h : handleDomainSample cfg env s e inKernel = some (rc, s'))
    (hopen : env.openSampleFile s.logCalls = true) :
    ∃ arcs, s'.logged = s.logged ++ fastEntry s t sf :: arcs := by
  obtain ⟨hfast, rfl⟩ := verifySample_fast hv
  obtain ⟨tid, pc, rfl⟩ := fastPath_some hfast
  simp only [handleDomainSample, hv, Option.bind_eq_bind, Option.bind_some] at h
  obtain ⟨-, ⟨hnone, -⟩ | ⟨sf', s₁, hsf', -, hlog, hs'⟩⟩ := finishSample_found h
  · cases hcur.symm.trans hnone
  · cases hcur.symm.trans hsf'
    have hlog := hlog hopen
    rcases hs' with rfl | hchain
    · exact ⟨[], hlog⟩
    · obtain ⟨arcs, harcs, -⟩ := (handleCallchain_sameEvent hchain).arcs
      refine ⟨arcs, ?_⟩
      have hlast : s₁.updateTransLast.logged = s₁.logged := rfl
      rw [harcs, hlast, hlog, List.append_assoc]
      rfl

/-- A sample that the fast path logs to `sf` would be logged so by way of a lookup exactly when it
comes from the context `sf` was made for. -/
theorem fast_path_same_file (cfg : Config n) (env : Env) (images : KernelImages) (s s₁ : OperfState)
    (e : SampleEvent) (inKernel : Bool) (t : OperfTransient) (sf : OperfSfile)
    (hs : Reachable cfg env images anyRecord s)
    (hverify : verifySample cfg s e inKernel = some (.fast t, s₁)) (hcur : t.current = some sf) :
    (∀ rc s', handleDomainSample cfg env s e inKernel = some (rc, s') →
      env.openSampleFile s.logCalls = true →
      ∃ arcs, s'.logged = s.logged ++ fastEntry s t sf :: arcs) ∧
    (slowEntry cfg s e inKernel = some (some (fastEntry s t sf)) ↔
      ∃ p m ki, SameContext cfg s e inKernel sf p m ki) := by
  refine ⟨fun rc s' h hopen => handleDomainSample_fast hverify hcur h hopen, ?_⟩
  obtain ⟨hfast, -⟩ := verifySample_fast hverify
  obtain ⟨tid, pc, rfl⟩ := fastPath_some hfast
  exact slowEntry_eq_iff (reachable_coherent hs) hfast hcur

/-- A user sample of a thread of process 10. -/
def threadSample (tid : UInt32) : SampleEvent := ⟨perfRecordMiscUser, ⟨0x1100, 10, tid, 11, 0⟩, []⟩

/-- For a sample that the fast path serves from a file: whether a lookup logs the same. -/
def fastAgrees (cfg : Config n) (s : OperfState) (e : SampleEvent) (inKernel : Bool) : Option Bool :=
  (verifySample cfg s e inKernel).bind fun v =>
    match v.1 with
    | .fast t => t.current.map fun sf =>
      decide (slowEntry cfg s e inKernel = some (some (fastEntry s t sf)))
    | _ => none

theorem fastAgrees_some {agrees : Bool} (h : fastAgrees cfg s e inKernel = some agrees) :
    ∃ t s₁ sf, verifySample cfg s e inKernel = some (.fast t, s₁) ∧ t.current = some sf ∧
      (slowEntry cfg s e inKernel = some (some (fastEntry s t sf)) ↔ agrees = true) := by
  simp only [fastAgrees, Option.bind_eq_some_iff] at h
  obtain ⟨⟨v, s₁⟩, hv, h⟩ := h
  cases v with
  | fast t =>
    simp only [Option.map_eq_some_iff] at h
    obtain ⟨sf, hsf, h⟩ := h
    exact ⟨t, s₁, sf, hv, hsf, by rw [← h, decide_eq_true_iff]⟩
  | out rc => cases h
  | defer => cases h
  | find => cases h

/-- A second sample of the thread comes from the context of the first. -/
theorem fast_path_same_thread : ∃ s sf p m ki, Reachable twoEvents quietEnv noVmlinux anyRecord s ∧
    SameContext twoEvents s (threadSample 10) false sf p m ki := by
  have hrun : ((writeEvents twoEvents quietEnv (processRecords ++ [.sample (threadSample 10)])
      (initialState noVmlinux)).bind fun r =>
        (fastAgrees twoEvents r.2 (threadSample 10) false).map fun b => (r.1, b)) =
      some (0, true) := by decide
  simp only [Option.bind_eq_some_iff, Option.map_eq_some_iff, Prod.mk.injEq] at hrun
  obtain ⟨⟨rc, s⟩, hwrite, agrees, hagrees, rfl, rfl⟩ := hrun
  have hs := writeEvents_reachable .init rfl hwrite le_rfl
  obtain ⟨t, s₁, sf, hverify, hcur, hiff⟩ := fastAgrees_some hagrees
  obtain ⟨p, m, ki, hsame⟩ := (fast_path_same_file twoEvents quietEnv noVmlinux s s₁ _ false t sf hs
    hverify hcur).2.mp (hiff.mpr rfl)
  exact ⟨s, sf, p, m, ki, hs, hsame⟩

/-- A sample of another thread is logged to the file of the first thread. -/
theorem fast_path_other_thread : ∃ s s' t sf arcs,
    Reachable twoEvents quietEnv noVmlinux anyRecord s ∧
    handleSampleEvent twoEvents quietEnv s (threadSample 11) = some (0, s') ∧
    verifySample twoEvents s (threadSample 11) false = some (.fast t, s) ∧
    s'.logged = s.logged ++ fastEntry s t sf :: arcs ∧
    slowEntry twoEvents s (threadSample 11) false ≠ some (some (fastEntry s t sf)) := by
  have hrun : ((writeEvents twoEvents quietEnv (processRecords ++ [.sample (threadSample 10)])
      (initialState noVmlinux)).bind fun r =>
        (fastAgrees twoEvents r.2 (threadSample 11) false).bind fun b =>
          (handleDomainSample twoEvents quietEnv r.2 (threadSample 11) false).map fun r' =>
            (r.1, r'.1, b)) = some (0, 0, false) := by decide
  simp only [Option.bind_eq_some_iff, Option.map_eq_some_iff, Prod.mk.injEq] at hrun
  obtain ⟨⟨rc, s⟩, hwrite, agrees, hagrees, ⟨rc', s'⟩, hstep, rfl, rfl, rfl⟩ := hrun
  obtain ⟨t, s₁, sf, hverify, hcur, hiff⟩ := fastAgrees_some hagrees
  obtain ⟨-, rfl⟩ := verifySample_fast hverify
  obtain ⟨arcs, hlog⟩ := handleDomainSample_fast hverify hcur hstep rfl
  refine ⟨s₁, s', t, sf, arcs, writeEvents_reachable .init rfl hwrite le_rfl, hstep, hverify, hlog,
    fun heq => ?_⟩
  cases hiff.mp heq

end Oprofile.Operf
