import Oprofile.Operf.FastPath

/-! What the handling of a sample logs and counts. -/
namespace Oprofile.Operf

variable {n : Nat} {cfg : Config n} {env : Env} {s s' s'' : OperfState} {e : SampleEvent}
  {data : SampleData} {inKernel kernelMode found : Bool} {rc : Int} {pid : UInt32} {ip : UInt64}

/-- The statistics that stand for lost samples; the lost addresses of call chains and the samples lost
in the kernel's buffer are counted apart. -/
def lostStats : List OperfStat :=
  [.invalidCtx, .lostKernel, .lostSamplefile, .lostNoMapping, .noAppKernelSample, .noAppUserSample,
    .lostInvalidHypervAddr]

def LogEntry.isSample : LogEntry → Bool
  | .sample _ _ _ => true
  | .arc _ _ _ _ => false

namespace OperfState

def lost (s : OperfState) : Nat := (lostStats.map s.stats).sum

def loggedSamples (s : OperfState) : Nat := s.logged.countP LogEntry.isSample

theorem bump_lost (s : OperfState) (stat : OperfStat) (k : Nat) :
    (s.bump stat k).lost = s.lost + if stat ∈ lostStats then k else 0 := by
  cases stat <;> simp [lost, lostStats, bump] <;> omega

end OperfState

/-- Samples logged, samples counted as lost and samples kept for the second pass. -/
structure Adds (logged lost : Nat) (kept : List SampleEvent) (s s' : OperfState) : Prop where
  logged : s'.loggedSamples = s.loggedSamples + logged
  lost : s'.lost = s.lost + lost
  kept : s'.unresolvedEvents = s.unresolvedEvents ++ kept

namespace Adds

variable {l l' x x' : Nat} {ks ks' : List SampleEvent}

theorem comp (h : Adds l x ks s s') (h' : Adds l' x' ks' s' s'') :
    Adds (l + l') (x + x') (ks ++ ks') s s'' := by
  refine ⟨?_, ?_, ?_⟩
  · rw [h'.logged, h.logged, Nat.add_assoc]
  · rw [h'.lost, h.lost, Nat.add_assoc]
  · rw [h'.kept, h.kept, List.append_assoc]

theorem of_eq (hlog : s'.logged = s.logged) (hstats : s'.stats = s.stats)
    (hkept : s'.unresolvedEvents = s.unresolvedEvents) : Adds 0 0 [] s s' := by
  refine ⟨?_, ?_, ?_⟩
  · rw [OperfState.loggedSamples, OperfState.loggedSamples, hlog, Nat.add_zero]
  · rw [OperfState.lost, OperfState.lost, hstats, Nat.add_zero]
  · rw [hkept, List.append_nil]

theorem refl (s : OperfState) : Adds 0 0 [] s s := of_eq rfl rfl rfl

theorem clearTrans (s : OperfState) : Adds 0 0 [] s s.clearTrans := of_eq rfl rfl rfl

theorem keep (s : OperfState) (e : SampleEvent) :
    Adds 0 0 [e] s { s with unresolvedEvents := s.unresolvedEvents ++ [e] } := ⟨rfl, rfl, rfl⟩

theorem bump (s : OperfState) (stat : OperfStat) (hstat : stat ∈ lostStats) (k : Nat) :
    Adds 0 k [] s (s.bump stat k) := by
  refine ⟨rfl, ?_, (List.append_nil _).symm⟩
  rw [OperfState.bump_lost, if_pos hstat]

theorem bump_other (s : OperfState) (stat : OperfStat) (hstat : stat ∉ lostStats) (k : Nat) :
    Adds 0 0 [] s (s.bump stat k) := by
  refine ⟨rfl, ?_, (List.append_nil _).symm⟩
  rw [OperfState.bump_lost, if_neg hstat]

end Adds

theorem withEvent_adds (cfg : Config n) (s : OperfState) (id : UInt64) :
    Adds 0 0 [] s (withEvent cfg s id) := by
  unfold withEvent
  split_ifs
  · exact Adds.of_eq rfl rfl rfl
  · exact Adds.refl s

/-- The state that no handling of a sample changes. -/
structure SameTables (s s' : OperfState) : Prop where
  procs : s'.procs = s.procs
  images : s'.allImagesMap = s.allImagesMap
  kernelMmap : s'.kernelMmap = s.kernelMmap
  kernelModules : s'.kernelModules = s.kernelModules
  kernelImages : s'.kernelImages = s.kernelImages
  firstTime : s'.firstTimeProcessing = s.firstTimeProcessing

theorem SameTables.refl (s : OperfState) : SameTables s s := ⟨rfl, rfl, rfl, rfl, rfl, rfl⟩

theorem SameTables.comp (h : SameTables s s') (h' : SameTables s' s'') : SameTables s s'' :=
  ⟨h'.procs.trans h.procs, h'.images.trans h.images, h'.kernelMmap.trans h.kernelMmap, h'.kernelModules.trans h.kernelModules,
    h'.kernelImages.trans h.kernelImages, h'.firstTime.trans h.firstTime⟩

/-- A sample is logged, or counted as one whose file cannot be opened. -/
theorem operfSfileLogSample_adds (h : operfSfileLogSample cfg env s = some s') :
    (Adds 1 0 [] s s' ∨ Adds 0 1 [] s s') ∧ SameTables s s' ∧ s'.logCalls = s.logCalls + 1 ∧
      s'.trans = s.trans := by
  simp only [operfSfileLogSample, getFile, Option.bind_eq_bind, Option.bind_eq_some_iff] at h
  obtain ⟨sf, -, ⟨file, s₁⟩, ⟨sf', -, hfile⟩, h⟩ := h
  split at hfile
  · cases hfile
  · cases hfile
    simp only at h
    split at h
    · cases h
      refine ⟨Or.inl ?_, ⟨rfl, rfl, rfl, rfl, rfl, rfl⟩, rfl, rfl⟩
      refine ⟨?_, ?_, (List.append_nil _).symm⟩
      · simp [OperfState.loggedSamples, OperfState.bump, LogEntry.isSample]
      · rw [OperfState.bump_lost, OperfState.bump_lost]
        split_ifs <;> simp_all [lostStats] <;> rfl
    · cases h
      exact ⟨Or.inr ⟨rfl, by rw [OperfState.bump_lost]; rfl, (List.append_nil _).symm⟩,
        ⟨rfl, rfl, rfl, rfl, rfl, rfl⟩, rfl, rfl⟩

/-- An arc is no sample; only where its file cannot be opened it counts as one lost. -/
theorem operfSfileLogArc_adds (h : operfSfileLogArc cfg env s = some s') :
    (∃ x, Adds 0 x [] s s' ∧ (env.openSampleFile s.logCalls = true → x = 0)) ∧ SameTables s s' ∧
      s'.logCalls = s.logCalls + 1 ∧ s'.trans = s.trans := by
  simp only [operfSfileLogArc, getFile, Option.bind_eq_bind, Option.bind_eq_some_iff] at h
  obtain ⟨sf, -, last, -, ⟨file, s₁⟩, ⟨sf', -, hfile⟩, h⟩ := h
  split at hfile
  · cases hfile
  · cases hfile
    simp only at h
    split at h
    · cases h
      refine ⟨⟨0, ⟨?_, rfl, (List.append_nil _).symm⟩, fun _ => rfl⟩, ⟨rfl, rfl, rfl, rfl, rfl, rfl⟩, rfl, rfl⟩
      simp [OperfState.loggedSamples, LogEntry.isSample]
    · rename_i hclosed
      cases h
      refine ⟨⟨1, ⟨rfl, by rw [OperfState.bump_lost]; rfl, (List.append_nil _).symm⟩, fun hopen => ?_⟩,
        ⟨rfl, rfl, rfl, rfl, rfl, rfl⟩, rfl, rfl⟩
      exact (hclosed hopen).elim

/-- `operf_sfile_find` counts a sample without a kernel image. -/
theorem findCurrent_adds (h : findCurrent cfg s = some s') :
    SameTables s s' ∧ s'.logCalls = s.logCalls ∧ s'.trans.tgid = s.trans.tgid ∧
      s'.trans.curProcinfo = s.trans.curProcinfo ∧
      ((s.trans.inKernel = true ∧ s.kernelImages.findKernelImage s.trans.pc = none ∧
          s'.trans.current = none ∧ Adds 0 1 [] s s') ∨
        ((s.trans.inKernel = true → (s.kernelImages.findKernelImage s.trans.pc).isSome = true) ∧
          s'.trans.current.isSome = true ∧ Adds 0 0 [] s s')) := by
  obtain ⟨name, -, -, ⟨hk, hnone, rfl⟩ | ⟨ki, hk, -, rfl⟩⟩ := findCurrent_cases h
  · refine ⟨⟨rfl, rfl, rfl, rfl, rfl, rfl⟩, rfl, rfl, rfl, Or.inl ⟨hk, hnone, rfl, ?_⟩⟩
    have hbump := Adds.bump s .lostKernel (by decide) 1
    exact ⟨hbump.logged, hbump.lost, hbump.kept⟩
  · refine ⟨⟨rfl, rfl, rfl, rfl, rfl, rfl⟩, rfl, rfl, rfl, Or.inr ⟨fun hker => ?_, rfl, Adds.of_eq rfl rfl rfl⟩⟩
    rw [(hk hker).1]
    exact (hk hker).2

theorem findMappingForSample_hypervisor {t : Processes} {p : ProcessInfo} {m : OperfMmap} {hv : Bool}
    (h : t.findMappingForSample p ip hv = some (some m)) : m.isHypervisor = hv := by
  simp only [Processes.findMappingForSample, Option.bind_eq_bind, Option.bind_eq_some_iff] at h
  obtain ⟨ms, -, h⟩ := h
  have hfound := List.find?_some (Option.some_inj.mp h)
  simp only [Bool.and_eq_true, beq_iff_eq] at hfound
  exact hfound.2

/-- A mapping of the hypervisor is never found for another domain. -/
theorem sampleMapping_same {proc : Option ProcessInfo} {r : Option OperfMmap} {hv : Bool}
    (h : sampleMapping s proc ip hv kernelMode = some (r, s')) : s' = s := by
  unfold sampleMapping at h
  split at h
  · simp only [Option.map_eq_some_iff, Prod.mk.injEq] at h
    obtain ⟨_, -, -, h⟩ := h
    exact h.symm
  · simp only [Option.bind_eq_bind, Option.bind_eq_some_iff] at h
    obtain ⟨p, -, m, hm, h⟩ := h
    split at h
    · rename_i hyp
      rw [Bool.and_eq_true, Bool.not_eq_true'] at hyp
      cases m with
      | none => cases hyp.1
      | some m =>
        have hsame := findMappingForSample_hypervisor hm
        rw [Option.any_some] at hyp
        rw [hyp.1, hyp.2] at hsame
        cases hsame
    · cases h
      rfl

/-- What `__get_operf_trans` counts: in the second pass a sample without a mapping, and, where this is
told, one without a process. -/
theorem getOperfTrans_adds {hv : Bool} (h : getOperfTrans cfg s data hv kernelMode = some (found, s')) :
    SameTables s s' ∧ s'.logCalls = s.logCalls ∧
    ((found = true ∧ ∃ p m, Lookup s data hv kernelMode p m ∧
        s' = { s with trans := setTrans s.trans data p.appname m kernelMode }) ∨
      (found = false ∧ s'.trans = s.trans ∧ (∀ p m, ¬ Lookup s data hv kernelMode p m) ∧
        ∃ x, Adds 0 x [] s s' ∧ (s.firstTimeProcessing = true → x = 0) ∧
          (s.firstTimeProcessing = false → sampleProcess s data.pid ≠ none → x = 1))) := by
  unfold getOperfTrans at h
  split at h
  · rename_i hproc
    have hno : ∀ p m, ¬ Lookup s data hv kernelMode p m := fun p m hl => by
      have hp := hl.process
      rw [hproc] at hp
      cases hp
    split at h
    · rename_i htold
      cases h
      rw [Bool.and_eq_true, Bool.not_eq_true'] at htold
      refine ⟨⟨rfl, rfl, rfl, rfl, rfl, rfl⟩, rfl, Or.inr ⟨rfl, rfl, hno, 1, ?_, fun hfirst => ?_, fun _ hne => ?_⟩⟩
      · exact Adds.bump s _ (by split_ifs <;> decide) 1
      · exact absurd (hfirst.symm.trans htold.2) Bool.noConfusion
      · exact (hne hproc).elim
    · cases h
      exact ⟨SameTables.refl s, rfl, Or.inr ⟨rfl, rfl, hno, 0, Adds.refl s, fun _ => rfl,
        fun _ hne => (hne hproc).elim⟩⟩
  · rename_i proc hproc
    simp only [Option.bind_eq_bind, Option.bind_eq_some_iff] at h
    obtain ⟨⟨r, s₁⟩, hr, h⟩ := h
    have hs₁ := sampleMapping_same hr
    rw [hs₁] at hr h
    cases r with
    | none =>
      have hno : ∀ p m, ¬ Lookup s data hv kernelMode p m := fun p m hl => by
        have hp := hl.process
        rw [hproc, Option.some_inj] at hp
        have hm := hl.mapping
        rw [← hp, hr] at hm
        cases hm
      simp only at h
      split at h
      · rename_i hfirst
        cases h
        refine ⟨SameTables.refl s, rfl, Or.inr ⟨rfl, rfl, hno, 0, Adds.refl s, fun _ => rfl, fun hsecond => ?_⟩⟩
        exact absurd (hfirst.symm.trans hsecond) Bool.noConfusion
      · rename_i hsecond
        cases h
        refine ⟨⟨rfl, rfl, rfl, rfl, rfl, rfl⟩, rfl, Or.inr ⟨rfl, rfl, hno, 1, Adds.bump s .lostNoMapping (by decide) 1,
          fun hfirst => (hsecond hfirst).elim, fun _ _ => rfl⟩⟩
    | some m =>
      simp only [Option.bind_eq_some_iff] at h
      obtain ⟨p, hp, h⟩ := h
      cases h
      rw [hp] at hproc hr
      exact ⟨⟨rfl, rfl, rfl, rfl, rfl, rfl⟩, rfl, Or.inl ⟨rfl, p, m, ⟨hproc, hr⟩, rfl⟩⟩

/-- The addresses of a call chain that `__handle_callchain` goes through. -/
def chainIps (e : SampleEvent) : List UInt64 :=
  match e.callchain with
  | ctx :: ip :: ips => if perfContextMax ≤ ctx ∧ ip = e.data.ip then ctx :: ips else ctx :: ip :: ips
  | ips => ips

theorem handleCallchain_some : handleCallchain cfg env s e = some s' ↔
    ∃ mode, (chainIps e).foldlM (callchainAddress cfg env e.data) (false, s) = some (mode, s') := by
  simp only [handleCallchain, Option.bind_eq_bind, Option.bind_eq_some_iff]
  constructor
  · rintro ⟨⟨mode, s₁⟩, hfold, heq⟩
    cases heq
    exact ⟨mode, hfold⟩
  · rintro ⟨mode, hfold⟩
    exact ⟨(mode, s'), hfold, rfl⟩

/-- Those of them that are looked up, with the mode they are looked up in. -/
def chainAddresses : Bool → List UInt64 → List (Bool × UInt64)
  | _, [] => []
  | inKernel, ip :: ips =>
    if perfContextMax ≤ ip then chainAddresses (contextMode inKernel ip) ips
    else if ip = 0 then chainAddresses inKernel ips
    else (inKernel, ip) :: chainAddresses inKernel ips

/-- The mapping of an address of a call chain. -/
def addressMapping (s : OperfState) (pid : UInt32) (x : Bool × UInt64) : Option OperfMmap :=
  if x.1 then (kernelMapping s x.2).join
  else ((s.procs.find pid).bind fun p => s.procs.findMappingForSample p x.2 false).join

theorem SameTables.kernelMapping (h : SameTables s s') (ip : UInt64) :
    kernelMapping s' ip = kernelMapping s ip := by
  rw [Operf.kernelMapping, Operf.kernelMapping, h.procs, h.kernelMmap, h.kernelModules]

theorem SameTables.addressMapping (h : SameTables s s') (pid : UInt32) (x : Bool × UInt64) :
    addressMapping s' pid x = addressMapping s pid x := by
  rw [Operf.addressMapping, Operf.addressMapping, h.kernelMapping, h.procs]

/-- `trans` is about this process. -/
structure About (s : OperfState) (pid : UInt32) : Prop where
  tgid : s.trans.tgid = pid
  process : ∀ q, s.trans.curProcinfo = some q → q = pid

theorem About.sampleProcess (h : About s pid) :
    ∃ proc, sampleProcess s pid = some proc ∧ ∀ p, proc = some p → s.procs.find pid = some p := by
  refine ⟨s.trans.curProcinfo.bind s.procs.find, by rw [Operf.sampleProcess, if_pos h.tgid], fun p hp => ?_⟩
  obtain ⟨q, hq, hfind⟩ := Option.bind_eq_some_iff.mp hp
  rwa [← h.process q hq]

theorem addressMapping_of_lookup {p : ProcessInfo} {m : OperfMmap} (h : About s data.pid)
    (hl : Lookup s { data with ip := ip } false kernelMode p m) :
    addressMapping s data.pid (kernelMode, ip) = some m := by
  obtain ⟨proc, hproc, hfind⟩ := h.sampleProcess
  have hp := hl.process
  have hm := hl.mapping
  rw [hproc, Option.some_inj] at hp
  cases kernelMode with
  | true =>
    simp only [sampleMapping, if_true, Option.map_eq_some_iff, Prod.mk.injEq, and_true] at hm
    obtain ⟨_, hk, rfl⟩ := hm
    rw [addressMapping, if_pos rfl, hk, Option.join_some]
  | false =>
    simp only [sampleMapping, Bool.false_eq_true, if_false, Option.bind_eq_bind, Option.bind_some,
      Option.bind_eq_some_iff] at hm
    obtain ⟨r, hr, hm⟩ := hm
    split at hm
    · cases hm
    · cases hm
      rw [addressMapping, if_neg Bool.false_ne_true, hfind p hp, Option.bind_some, hr, Option.join_some]

theorem addressMapping_of_not_found (h : About s data.pid)
    (hget : getOperfTrans cfg s { data with ip := ip } false kernelMode = some (false, s')) :
    addressMapping s data.pid (kernelMode, ip) = none := by
  obtain ⟨proc, hproc, hfind⟩ := h.sampleProcess
  unfold getOperfTrans at hget
  rw [hproc] at hget
  simp only [Option.bind_eq_bind, Option.bind_eq_some_iff] at hget
  obtain ⟨⟨r, s₁⟩, hr, hget⟩ := hget
  cases r with
  | some m =>
    simp only [Option.bind_eq_some_iff] at hget
    obtain ⟨p, -, hget⟩ := hget
    cases hget
  | none =>
    cases kernelMode with
    | true =>
      simp only [sampleMapping, if_true, Option.map_eq_some_iff, Prod.mk.injEq] at hr
      obtain ⟨_, hk, rfl, -⟩ := hr
      rw [addressMapping, if_pos rfl, hk, Option.join_some]
    | false =>
      simp only [sampleMapping, Bool.false_eq_true, if_false, Option.bind_eq_bind,
        Option.bind_eq_some_iff] at hr
      obtain ⟨p, hp, m, hm, hr⟩ := hr
      rw [addressMapping, if_neg Bool.false_ne_true, hfind p hp, Option.bind_some, hm, Option.join_some]
      split at hr
      · rename_i hyp
        rw [Bool.and_eq_true] at hyp
        cases m with
        | none => rfl
        | some m =>
          have hsame := findMappingForSample_hypervisor hm
          rw [Option.any_some, hsame] at hyp
          cases hyp.1
      · cases hr
        rfl

/-- The addresses of a call chain are found, and the files of its arcs can be opened. -/
structure ChainOk (env : Env) (s : OperfState) (pid : UInt32) (calls : Nat)
    (addresses : List (Bool × UInt64)) : Prop where
  mapped : s.firstTimeProcessing = false → ∀ x ∈ addresses, (addressMapping s pid x).isSome = true
  image : ∀ x ∈ addresses, x.1 = true → (addressMapping s pid x).isSome = true →
    (s.kernelImages.findKernelImage x.2).isSome = true
  opens : ∀ i, i < (addresses.filter fun x => (addressMapping s pid x).isSome).length →
    env.openSampleFile (calls + i) = true

namespace ChainOk

variable {calls : Nat} {x : Bool × UInt64} {xs : List (Bool × UInt64)}

theorem tables (h : ChainOk env s pid calls xs) (ht : SameTables s s') : ChainOk env s' pid calls xs := by
  refine ⟨fun hsecond x hx => ?_, fun x hx hk hsome => ?_, fun i hi => ?_⟩
  · rw [ht.addressMapping]
    exact h.mapped (ht.firstTime.symm.trans hsecond) x hx
  · rw [ht.addressMapping] at hsome
    rw [ht.kernelImages]
    exact h.image x hx hk hsome
  · simp only [ht.addressMapping] at hi
    exact h.opens i hi

theorem tail_none (h : ChainOk env s pid calls (x :: xs)) (hnone : addressMapping s pid x = none) :
    ChainOk env s pid calls xs := by
  refine ⟨fun hsecond y hy => h.mapped hsecond y (List.mem_cons_of_mem _ hy),
    fun y hy => h.image y (List.mem_cons_of_mem _ hy), fun i hi => h.opens i ?_⟩
  rw [List.filter_cons_of_neg (by simp [hnone])]
  exact hi

theorem head_opens (h : ChainOk env s pid calls (x :: xs)) {m : OperfMmap}
    (hsome : addressMapping s pid x = some m) : env.openSampleFile calls = true := by
  refine h.opens 0 ?_
  rw [List.filter_cons_of_pos (by simp [hsome]), List.length_cons]
  exact Nat.succ_pos _

theorem tail_some (h : ChainOk env s pid calls (x :: xs)) {m : OperfMmap}
    (hsome : addressMapping s pid x = some m) : ChainOk env s pid (calls + 1) xs := by
  refine ⟨fun hsecond y hy => h.mapped hsecond y (List.mem_cons_of_mem _ hy),
    fun y hy => h.image y (List.mem_cons_of_mem _ hy), fun i hi => ?_⟩
  have hnext := h.opens (i + 1)
  rw [List.filter_cons_of_pos (by simp [hsome]), List.length_cons] at hnext
  rw [Nat.add_assoc, Nat.add_comm 1 i]
  exact hnext (Nat.succ_lt_succ hi)

end ChainOk

theorem About.getOperfTrans {d : SampleData} {hv : Bool} (habout : About s d.pid)
    (h : getOperfTrans cfg s d hv kernelMode = some (found, s')) : About s' d.pid := by
  obtain ⟨-, -, ⟨-, p, m, -, rfl⟩ | ⟨-, htrans, -⟩⟩ := getOperfTrans_adds h
  · exact ⟨rfl, fun q hq => (Option.some_inj.mp hq).symm⟩
  · exact ⟨by rw [htrans, habout.tgid], by rw [htrans]; exact habout.process⟩

theorem About.of_trans (habout : About s pid) (htgid : s'.trans.tgid = s.trans.tgid)
    (hcur : s'.trans.curProcinfo = s.trans.curProcinfo) : About s' pid := by
  refine ⟨htgid.trans habout.tgid, fun q hq => habout.process q ?_⟩
  rwa [hcur] at hq

theorem callchainAddress_about {mode mode' : Bool} (habout : About s data.pid)
    (h : callchainAddress cfg env data (mode, s) ip = some (mode', s')) : About s' data.pid := by
  simp only [callchainAddress] at h
  split at h
  · cases h
    exact habout
  · split at h
    · cases h
      exact habout
    · simp only [Option.bind_eq_bind, Option.bind_eq_some_iff] at h
      obtain ⟨⟨found, s₂⟩, hget, h⟩ := h
      have habout₂ : About s₂ data.pid := habout.getOperfTrans (d := { data with ip := ip }) hget
      simp only at h
      split at h
      · simp only [Option.bind_eq_some_iff] at h
        obtain ⟨s₃, hfind, h⟩ := h
        obtain ⟨-, -, htgid, hcur, -⟩ := findCurrent_adds hfind
        have habout₃ := habout₂.of_trans htgid hcur
        split at h
        · simp only [Option.bind_eq_some_iff] at h
          obtain ⟨s₄, harc, h⟩ := h
          cases h
          obtain ⟨-, -, -, htrans⟩ := operfSfileLogArc_adds harc
          refine habout₃.of_trans ?_ ?_
          · rw [OperfState.updateTransLast, htrans]
          · rw [OperfState.updateTransLast, htrans]
        · cases h
          exact habout₃
      · split at h
        · cases h
          exact habout₂
        · cases h
          exact habout₂.of_trans rfl rfl

/-- Looking up a call chain whose addresses are found neither logs nor loses a sample. -/
theorem callchain_adds {ips : List UInt64} {mode mode' : Bool} (habout : About s data.pid)
    (hok : ChainOk env s data.pid s.logCalls (chainAddresses mode ips))
    (h : ips.foldlM (callchainAddress cfg env data) (mode, s) = some (mode', s')) : Adds 0 0 [] s s' := by
  induction ips generalizing mode s with
  | nil =>
    cases h
    exact Adds.refl _
  | cons ip ips ih =>
    rw [List.foldlM_cons, Option.bind_eq_bind, Option.bind_eq_some_iff] at h
    obtain ⟨⟨mode₁, s₁⟩, hstep, h⟩ := h
    have habout₁ := callchainAddress_about habout hstep
    simp only [callchainAddress] at hstep
    rw [chainAddresses] at hok
    split at hstep
    · rename_i hmark
      cases hstep
      rw [if_pos hmark] at hok
      exact ih habout hok h
    · rename_i hmark
      rw [if_neg hmark] at hok
      split at hstep
      · rename_i hzero
        cases hstep
        rw [if_pos hzero] at hok
        exact ih habout hok h
      · rename_i hzero
        rw [if_neg hzero] at hok
        simp only [Option.bind_eq_bind, Option.bind_eq_some_iff] at hstep
        obtain ⟨⟨found, s₂⟩, hget, hstep⟩ := hstep
        obtain ⟨ht₂, hcalls₂, ⟨rfl, p, m, hl, rfl⟩ | ⟨rfl, -, -, x, hadds, hfirst, hsecond⟩⟩ :=
          getOperfTrans_adds hget
        · have hsome := addressMapping_of_lookup habout hl
          simp only [if_true, Option.bind_eq_some_iff] at hstep
          obtain ⟨s₃, hfind, hstep⟩ := hstep
          obtain ⟨ht₃, hcalls₃, -, -, ⟨hk, hnone, -, -⟩ | ⟨-, hcurrent, hadds₃⟩⟩ :=
            findCurrent_adds hfind
          · have hk : mode = true := hk
            have himage := hok.image (mode, ip) List.mem_cons_self hk (by rw [hsome]; rfl)
            simp only [setTrans, hk, Bool.true_or, if_true] at hnone
            rw [hnone] at himage
            cases himage
          · rw [if_pos hcurrent] at hstep
            simp only [Option.bind_eq_some_iff] at hstep
            obtain ⟨s₄, harc, hstep⟩ := hstep
            cases hstep
            obtain ⟨⟨x, hadds₄, hopen⟩, ht₄, hcalls₄, -⟩ := operfSfileLogArc_adds harc
            rw [hcalls₃] at hopen hcalls₄
            have hx := hopen (hok.head_opens hsome)
            subst hx
            have hlast : SameTables s₄ s₄.updateTransLast := ⟨rfl, rfl, rfl, rfl, rfl, rfl⟩
            have hset : Adds 0 0 [] s
                { s with trans := setTrans s.trans { data with ip := ip } p.appname m mode } :=
              Adds.of_eq rfl rfl rfl
            have hupdate : Adds 0 0 [] s₄ s₄.updateTransLast := Adds.of_eq rfl rfl rfl
            have hall := ((hset.comp hadds₃).comp hadds₄).comp hupdate
            refine hall.comp (ih habout₁ ?_ h)
            have hcalls : s₄.updateTransLast.logCalls = s.logCalls + 1 := hcalls₄
            rw [hcalls]
            exact (hok.tail_some hsome).tables (((ht₂.comp ht₃).comp ht₄).comp hlast)
        · have hnone := addressMapping_of_not_found habout hget
          have hx : x = 0 := by
            cases hpass : s.firstTimeProcessing with
            | true => exact hfirst hpass
            | false =>
              have hmapped := hok.mapped hpass (mode, ip) List.mem_cons_self
              rw [hnone] at hmapped
              cases hmapped
          subst hx
          have hok' := (hok.tail_none hnone).tables ht₂
          rw [← hcalls₂] at hok'
          simp only [Bool.false_eq_true, if_false] at hstep
          split at hstep
          · cases hstep
            exact hadds.comp (ih habout₁ hok' h)
          · cases hstep
            have hbump := Adds.bump_other s₂ .btLostNoMapping (by decide) 1
            refine (hadds.comp hbump).comp (ih habout₁ ?_ h)
            exact hok'.tables ⟨rfl, rfl, rfl, rfl, rfl, rfl⟩

/-- A sample that the cached transient serves. -/
def Cached (cfg : Config n) (s : OperfState) (e : SampleEvent) (inKernel : Bool) : Prop :=
  (e.data.id = s.trans.sampleId ∧ ¬ Withheld cfg (withEvent cfg s e.data.id) e) ∧
    (fastPath s.trans e.data inKernel).isSome = true

/-- A sample that has to be looked up. -/
def Uncached (cfg : Config n) (s : OperfState) (e : SampleEvent) (inKernel : Bool) : Prop :=
  ¬ Withheld cfg (withEvent cfg s e.data.id) e ∧
    (e.data.id = s.trans.sampleId → fastPath s.trans e.data inKernel = none)

/-- Process and mapping are found for it. -/
def LookedUp (cfg : Config n) (s : OperfState) (e : SampleEvent) (inKernel : Bool) : Prop :=
  Uncached cfg s e inKernel ∧ ∃ p m, Lookup (withEvent cfg s e.data.id) e.data
    (e.misc == perfRecordMiscHypervisor) inKernel p m

/-- A sample whose file is known. -/
def Placed (cfg : Config n) (s : OperfState) (e : SampleEvent) (inKernel : Bool) : Prop :=
  (Cached cfg s e inKernel ∧ s.trans.current.isSome = true) ∨
    (LookedUp cfg s e inKernel ∧
      (inKernel = true → (s.kernelImages.findKernelImage e.data.ip).isSome = true))

/-- After the sample itself has been logged: its call chain, where there is one. -/
structure Logged (cfg : Config n) (env : Env) (s : OperfState) (e : SampleEvent) (s₁ s' : OperfState) :
    Prop where
  counted : Adds 1 0 [] s s₁ ∨ Adds 0 1 [] s s₁
  about : About s₁ e.data.pid
  tables : SameTables s s₁
  calls : s₁.logCalls = s.logCalls + 1
  chain : (cfg.sampleType.callchain = false ∧ s' = s₁) ∨
    (cfg.sampleType.callchain = true ∧ handleCallchain cfg env s₁ e = some s')

/-- What becomes of a sample whose domain is known. -/
inductive Outcome (cfg : Config n) (env : Env) (s : OperfState) (e : SampleEvent) (inKernel : Bool) :
    OperfState → Prop
  | skipped {u : OperfState} (hnone : s.trans.imageName = none) (hpid : e.data.pid = 0)
      (hadds : Adds 0 0 [] s u) : Outcome cfg env s e inKernel u
  | dropped {u : OperfState} (hdrop : ∃ evt,
      cfg.evts[(withEvent cfg s e.data.id).trans.event.toNat]? = some evt ∧ evt.noUser = true ∧
        e.misc = perfRecordMiscUser) (hadds : Adds 0 0 [] s u) : Outcome cfg env s e inKernel u
  | deferred {u : OperfState} (hhv : e.misc = perfRecordMiscHypervisor)
      (hfirst : s.firstTimeProcessing = true) (hadds : Adds 0 0 [e] s u) : Outcome cfg env s e inKernel u
  | unattributed {u : OperfState} {x : Nat} (hunc : Uncached cfg s e inKernel)
      (hno : ¬ LookedUp cfg s e inKernel) (hfirst : s.firstTimeProcessing = true → Adds 0 0 [e] s u)
      (hsecond : s.firstTimeProcessing = false →
        Adds 0 x [] s u ∧ (sampleProcess s e.data.pid ≠ none → x = 1)) : Outcome cfg env s e inKernel u
  | noImage {u : OperfState} (hl : LookedUp cfg s e inKernel) (hk : inKernel = true)
      (hnone : s.kernelImages.findKernelImage e.data.ip = none)
      (hfirst : s.firstTimeProcessing = true → Adds 0 1 [e] s u)
      (hsecond : s.firstTimeProcessing = false → Adds 0 1 [] s u) : Outcome cfg env s e inKernel u
  | noFile {u : OperfState} (hc : Cached cfg s e inKernel) (hnone : s.trans.current = none)
      (hfirst : s.firstTimeProcessing = true → Adds 0 0 [e] s u)
      (hsecond : s.firstTimeProcessing = false → Adds 0 0 [] s u) : Outcome cfg env s e inKernel u
  | logged {s₁ u : OperfState} (hp : Placed cfg s e inKernel) (hlog : Logged cfg env s e s₁ u) :
      Outcome cfg env s e inKernel u

@[simp] theorem withEvent_pid (cfg : Config n) (s : OperfState) (id : UInt64) :
    (withEvent cfg s id).trans.tgid = s.trans.tgid ∧
      (withEvent cfg s id).trans.curProcinfo = s.trans.curProcinfo ∧
      SameTables s (withEvent cfg s id) ∧ (withEvent cfg s id).logCalls = s.logCalls := by
  unfold withEvent
  split_ifs
  · exact ⟨rfl, rfl, ⟨rfl, rfl, rfl, rfl, rfl, rfl⟩, rfl⟩
  · exact ⟨rfl, rfl, SameTables.refl s, rfl⟩

theorem sampleProcess_withEvent (cfg : Config n) (s : OperfState) (id : UInt64) (pid : UInt32) :
    sampleProcess (withEvent cfg s id) pid = sampleProcess s pid := by
  obtain ⟨htgid, hcur, ht, -⟩ := withEvent_pid cfg s id
  rw [sampleProcess, sampleProcess, htgid, hcur, ht.procs]

/-- A sample that is not logged is kept for the second pass. -/
theorem finishSample_lost {found : Bool} (h : finishSample cfg env s e found = some (rc, s'))
    (hnone : found = false ∨ s.trans.current = none) : rc = 0 ∧
      (s.firstTimeProcessing = true → Adds 0 0 [e] s s') ∧
      (s.firstTimeProcessing = false → Adds 0 0 [] s s') := by
  have hno : ¬ (found = true ∧ s.trans.current.isSome = true) := by
    rintro ⟨hfound, hcur⟩
    rcases hnone with hf | hc
    · exact absurd (hf.symm.trans hfound) Bool.noConfusion
    · rw [hc] at hcur
      cases hcur
  simp only [finishSample, if_neg hno] at h
  split at h
  · rename_i hfirst
    cases h
    refine ⟨rfl, fun _ => ⟨rfl, rfl, rfl⟩, fun hsecond => ?_⟩
    exact absurd (hfirst.symm.trans hsecond) Bool.noConfusion
  · rename_i hsecond
    cases h
    exact ⟨rfl, fun hfirst => (hsecond hfirst).elim, fun _ => Adds.clearTrans s⟩

/-- A sample that is logged. -/
theorem finishSample_logged (h : finishSample cfg env s e true = some (rc, s'))
    (hcur : s.trans.current.isSome = true) (habout : About s e.data.pid) :
    rc = 0 ∧ ∃ s₁, Logged cfg env s e s₁ s' := by
  simp only [finishSample, hcur, and_self, if_true, Option.bind_eq_bind, Option.bind_eq_some_iff] at h
  obtain ⟨s₁, hlog, h⟩ := h
  obtain ⟨hadds, ht, hcalls, htrans⟩ := operfSfileLogSample_adds hlog
  have hupdate : Adds 0 0 [] s₁ s₁.updateTransLast := Adds.of_eq rfl rfl rfl
  have hcounted : Adds 1 0 [] s s₁.updateTransLast ∨ Adds 0 1 [] s s₁.updateTransLast :=
    hadds.imp (fun ha => ha.comp hupdate) fun ha => ha.comp hupdate
  have habout' : About s₁.updateTransLast e.data.pid := by
    refine ⟨?_, fun q hq => ?_⟩
    · rw [OperfState.updateTransLast, htrans]
      exact habout.tgid
    · rw [OperfState.updateTransLast, htrans] at hq
      exact habout.process q hq
  have htables : SameTables s s₁.updateTransLast := ht.comp ⟨rfl, rfl, rfl, rfl, rfl, rfl⟩
  split at h
  · rename_i hchain
    simp only [Option.bind_eq_some_iff] at h
    obtain ⟨s₂, hs₂, h⟩ := h
    cases h
    exact ⟨rfl, _, hcounted, habout', htables, hcalls, Or.inr ⟨hchain, hs₂⟩⟩
  · rename_i hchain
    cases h
    exact ⟨rfl, _, hcounted, habout', htables, hcalls, Or.inl ⟨by simpa using hchain, rfl⟩⟩

/-- Whatever is cached of a process is about the process in `trans`. -/
theorem OwnerKnown.about (h : OwnerKnown s) (htgid : s.trans.tgid = pid) : About s pid :=
  ⟨htgid, fun q hq => htgid ▸ (h.known q hq).1.symm⟩

theorem Logged.of_adds {s₁ s₂ : OperfState} (h : Logged cfg env s₂ e s₁ s') (hadds : Adds 0 0 [] s s₂)
    (ht : SameTables s s₂) (hcalls : s₂.logCalls = s.logCalls) : Logged cfg env s e s₁ s' where
  counted := by
    rcases h.counted with ha | ha
    · exact Or.inl (by simpa using hadds.comp ha)
    · exact Or.inr (by simpa using hadds.comp ha)
  about := h.about
  tables := ht.comp h.tables
  calls := by rw [h.calls, hcalls]
  chain := h.chain

/-- What becomes of a sample that is looked up. -/
theorem findTrans_outcome {s₂ : OperfState} (hunc : Uncached cfg s e inKernel)
    (hfind : findTrans cfg (withEvent cfg s e.data.id) e inKernel = some (found, s₂))
    (h : finishSample cfg env s₂ e found = some (0, s')) : Outcome cfg env s e inKernel s' := by
  have hwith := withEvent_adds cfg s e.data.id
  obtain ⟨-, -, htables, hcalls⟩ := withEvent_pid cfg s e.data.id
  simp only [findTrans, Option.bind_eq_bind, Option.bind_eq_some_iff] at hfind
  obtain ⟨⟨found', s₃⟩, hget, hfind⟩ := hfind
  obtain ⟨ht₃, hcalls₃, ⟨rfl, p, m, hl, rfl⟩ | ⟨rfl, -, hno, x, hadds₃, hfirst, hsecond⟩⟩ :=
    getOperfTrans_adds hget
  · have hset : Adds 0 0 [] (withEvent cfg s e.data.id)
        { withEvent cfg s e.data.id with
          trans := setTrans (withEvent cfg s e.data.id).trans e.data p.appname m inKernel } :=
      Adds.of_eq rfl rfl rfl
    simp only [if_true, Option.bind_eq_some_iff] at hfind
    obtain ⟨s₄, hcurrent, hfind⟩ := hfind
    cases hfind
    obtain ⟨ht₄, hcalls₄, htgid, hcur, ⟨hk, hnone, hnofile, hadds₄⟩ | ⟨himage, hfile, hadds₄⟩⟩ :=
      findCurrent_adds hcurrent
    · have hk : inKernel = true := hk
      have hlost := (hwith.comp hset).comp hadds₄
      obtain ⟨-, hfirst, hsecond⟩ := finishSample_lost h (Or.inr hnofile)
      have hpass : s₂.firstTimeProcessing = s.firstTimeProcessing :=
        ((htables.comp ht₃).comp ht₄).firstTime
      rw [hpass] at hfirst hsecond
      simp only [setTrans, hk, Bool.true_or, if_true, htables.kernelImages] at hnone
      exact .noImage ⟨hunc, p, m, hl⟩ hk hnone (fun hp => hlost.comp (hfirst hp))
        fun hp => hlost.comp (hsecond hp)
    · have habout : About s₂ e.data.pid := by
        refine ⟨by rw [htgid]; rfl, fun q hq => ?_⟩
        rw [hcur] at hq
        exact (Option.some_inj.mp hq).symm
      obtain ⟨-, s₁, hlog⟩ := finishSample_logged h hfile habout
      refine .logged (Or.inr ⟨⟨hunc, p, m, hl⟩, fun hk => ?_⟩)
        (hlog.of_adds ((hwith.comp hset).comp hadds₄) ((htables.comp ht₃).comp ht₄) ?_)
      · have hsome := himage hk
        simp only [setTrans, hk, Bool.true_or, if_true, htables.kernelImages] at hsome
        exact hsome
      · rw [hcalls₄]
        exact hcalls
  · cases hfind
    obtain ⟨-, hkeep, hclear⟩ := finishSample_lost h (Or.inl rfl)
    have hpass : s₃.firstTimeProcessing = s.firstTimeProcessing := (htables.comp ht₃).firstTime
    rw [hpass] at hkeep hclear
    rw [htables.firstTime] at hfirst hsecond
    rw [sampleProcess_withEvent] at hsecond
    have hlost := hwith.comp hadds₃
    rw [Nat.zero_add] at hlost
    refine .unattributed (x := x) hunc (fun hl => ?_) (fun hp => ?_) fun hp => ?_
    · obtain ⟨-, p, m, hl⟩ := hl
      exact hno p m hl
    · have hx := hfirst hp
      subst hx
      exact hlost.comp (hkeep hp)
    · exact ⟨by simpa using hlost.comp (hclear hp), hsecond hp⟩

theorem handleDomainSample_outcome (hown : OwnerKnown s)
    (h : handleDomainSample cfg env s e inKernel = some (0, s')) :
    Outcome cfg env s e inKernel s' := by
  simp only [handleDomainSample, Option.bind_eq_bind, Option.bind_eq_some_iff] at h
  obtain ⟨⟨v, s₁⟩, hv, h⟩ := h
  have hwith := withEvent_adds cfg s e.data.id
  obtain ⟨-, -, htables, -⟩ := withEvent_pid cfg s e.data.id
  rcases verifySample_cases hv with ⟨hzero, rfl, rfl⟩ | ⟨-, rfl, rfl⟩ | ⟨hdrop, rfl, rfl⟩ |
    ⟨hdefer, rfl, rfl⟩ | ⟨hunc, rfl, rfl⟩ | ⟨t, hid, hfast, rfl, rfl⟩
  · cases h
    exact .skipped hzero.1 hzero.2 (Adds.clearTrans _)
  · cases h
  · cases h
    exact .dropped hdrop (hwith.comp (Adds.clearTrans _))
  · cases h
    rw [htables.firstTime] at hdefer
    exact .deferred hdefer.1 hdefer.2 (hwith.comp ((Adds.keep _ e).comp (Adds.clearTrans _)))
  · simp only [Option.bind_eq_some_iff] at h
    obtain ⟨⟨found, s₂⟩, hfind, h⟩ := h
    exact findTrans_outcome hunc hfind h
  · have hc : Cached cfg s₁ e inKernel := ⟨hid, by rw [hfast]; rfl⟩
    have htgid := (fastPath_spec hfast).1
    have habout : About { s₁ with trans := t } e.data.pid := by
      obtain ⟨tid, pc, rfl⟩ := fastPath_some hfast
      exact ⟨htgid, (hown.about htgid).process⟩
    have hset : Adds 0 0 [] s₁ { s₁ with trans := t } := Adds.of_eq rfl rfl rfl
    have hcurrent : t.current = s₁.trans.current := by
      obtain ⟨tid, pc, rfl⟩ := fastPath_some hfast
      rfl
    cases hcur : s₁.trans.current with
    | none =>
      obtain ⟨-, hfirst, hsecond⟩ := finishSample_lost h (Or.inr (hcurrent.trans hcur))
      exact .noFile hc hcur (fun hp => hset.comp (hfirst hp)) fun hp => hset.comp (hsecond hp)
    | some sf =>
      obtain ⟨-, s₂, hlog⟩ := finishSample_logged h
        (show t.current.isSome = true by rw [hcurrent, hcur]; rfl) habout
      exact .logged (Or.inl ⟨hc, by rw [hcur]; rfl⟩) (hlog.of_adds hset ⟨rfl, rfl, rfl, rfl, rfl, rfl⟩ rfl)

/-- The bits of `misc` that tell the domain of a sample. -/
def perfRecordMiscCpumodeMask : UInt16 := 7

def UserOrKernel (e : SampleEvent) : Prop :=
  e.misc &&& perfRecordMiscCpumodeMask = perfRecordMiscKernel ∨
    e.misc &&& perfRecordMiscCpumodeMask = perfRecordMiscUser

/-- A user sample of an event that asks for none. -/
def Filtered (cfg : Config n) (e : SampleEvent) : Prop :=
  e.misc &&& perfRecordMiscCpumodeMask = perfRecordMiscUser ∧ 0 ≤ eventnum cfg e.data.id ∧
    ∃ evt, cfg.evts[(eventnum cfg e.data.id).toNat]? = some evt ∧ evt.noUser = true

/-- Logged once, or counted once as lost, or dropped because its event asks for no user samples. -/
def Settled (cfg : Config n) (e : SampleEvent) (logged lost : Nat) : Prop :=
  (logged = 1 ∧ lost = 0) ∨ (logged = 0 ∧ lost = 1) ∨ (Filtered cfg e ∧ logged = 0 ∧ lost = 0)

/-- A sample that is accounted for when it is handled: its domain is told by `misc` alone, it is not
for process zero before any sample has a mapping, no other event keeps it out; in the first pass its
kernel address has an image where it has a mapping; in the second its process is known, and the file
is where it is served from the cache; and its call chain loses nothing. -/
structure Accountable (cfg : Config n) (env : Env) (s : OperfState) (e : SampleEvent) : Prop where
  domain : UserOrKernel e → ¬ Filtered cfg e → e.misc = perfRecordMiscKernel ∨ e.misc = perfRecordMiscUser
  pid : UserOrKernel e → ¬ Filtered cfg e → s.trans.imageName = none → e.data.pid ≠ 0
  event : e.misc = perfRecordMiscUser → ∀ evt,
    cfg.evts[(withEvent cfg s e.data.id).trans.event.toNat]? = some evt → evt.noUser = true → Filtered cfg e
  image : s.firstTimeProcessing = true → e.misc = perfRecordMiscKernel → LookedUp cfg s e true →
    (s.kernelImages.findKernelImage e.data.ip).isSome = true
  process : s.firstTimeProcessing = false → sampleProcess s e.data.pid ≠ none
  current : s.firstTimeProcessing = false → Cached cfg s e (e.misc == perfRecordMiscKernel) →
    s.trans.current.isSome = true
  chain : cfg.sampleType.callchain = true → Placed cfg s e (e.misc == perfRecordMiscKernel) →
    ChainOk env s e.data.pid (s.logCalls + 1) (chainAddresses false (chainIps e))

/-- A sample is kept for the second pass, or settled. -/
def KeptOrSettled (cfg : Config n) (s : OperfState) (e : SampleEvent) (s' : OperfState) : Prop :=
  (s.firstTimeProcessing = true ∧ Adds 0 0 [e] s s') ∨
    ∃ l x, Adds l x [] s s' ∧ Settled cfg e l x

theorem Outcome.keptOrSettled (h : Outcome cfg env s e inKernel s') (hacc : Accountable cfg env s e)
    (hue : UserOrKernel e) (hk : inKernel = (e.misc == perfRecordMiscKernel))
    (hhv : e.misc ≠ perfRecordMiscHypervisor) : KeptOrSettled cfg s e s' := by
  have hpass : s.firstTimeProcessing = true ∨ s.firstTimeProcessing = false := by
    cases s.firstTimeProcessing
    · exact Or.inr rfl
    · exact Or.inl rfl
  cases h with
  | skipped hnone hpid hadds =>
    refine Or.inr ⟨0, 0, hadds, Or.inr (Or.inr ⟨?_, rfl, rfl⟩)⟩
    by_contra hnot
    exact hacc.pid hue hnot hnone hpid
  | dropped hdrop hadds =>
    obtain ⟨evt, hevt, hno, hmisc⟩ := hdrop
    exact Or.inr ⟨0, 0, hadds, Or.inr (Or.inr ⟨hacc.event hmisc evt hevt hno, rfl, rfl⟩)⟩
  | deferred hmisc hfirst hadds => exact (hhv hmisc).elim
  | unattributed hunc hno hfirst hsecond =>
    rcases hpass with hp | hp
    · exact Or.inl ⟨hp, hfirst hp⟩
    · obtain ⟨hadds, hx⟩ := hsecond hp
      have hx := hx (hacc.process hp)
      subst hx
      exact Or.inr ⟨0, 1, hadds, Or.inr (Or.inl ⟨rfl, rfl⟩)⟩
  | noImage hl hker hnone hfirst hsecond =>
    rcases hpass with hp | hp
    · subst hker
      have hmisc : e.misc = perfRecordMiscKernel := beq_iff_eq.mp hk.symm
      have himage := hacc.image hp hmisc hl
      rw [hnone] at himage
      cases himage
    · exact Or.inr ⟨0, 1, hsecond hp, Or.inr (Or.inl ⟨rfl, rfl⟩)⟩
  | noFile hc hnone hfirst hsecond =>
    rcases hpass with hp | hp
    · exact Or.inl ⟨hp, hfirst hp⟩
    · rw [hk] at hc
      have hcur := hacc.current hp hc
      rw [hnone] at hcur
      cases hcur
  | @logged s₁ _ hp hlog =>
    rw [hk] at hp
    have hchain : Adds 0 0 [] s₁ s' := by
      rcases hlog.chain with ⟨-, rfl⟩ | ⟨hcall, hchain⟩
      · exact Adds.refl _
      · obtain ⟨mode, hfold⟩ := handleCallchain_some.mp hchain
        have hok := (hacc.chain hcall hp).tables hlog.tables
        rw [← hlog.calls] at hok
        exact callchain_adds hlog.about hok hfold
    rcases hlog.counted with ha | ha
    · exact Or.inr ⟨1, 0, ha.comp hchain, Or.inl ⟨rfl, rfl⟩⟩
    · exact Or.inr ⟨0, 1, ha.comp hchain, Or.inr (Or.inl ⟨rfl, rfl⟩)⟩

/-- One user or kernel sample. -/
theorem handleSampleEvent_keptOrSettled (hown : OwnerKnown s) (hacc : Accountable cfg env s e)
    (hue : UserOrKernel e) (h : handleSampleEvent cfg env s e = some (0, s')) :
    KeptOrSettled cfg s e s' := by
  have hnhv : e.misc ≠ perfRecordMiscHypervisor := by
    intro heq
    rcases hue with hue | hue
    · rw [heq] at hue
      exact absurd hue (by decide)
    · rw [heq] at hue
      exact absurd hue (by decide)
  unfold handleSampleEvent at h
  split at h
  · cases h
  · split at h
    · rename_i hk
      exact (handleDomainSample_outcome hown h).keptOrSettled hacc hue (by rw [hk]; rfl) hnhv
    · rename_i hk
      split at h
      · refine (handleDomainSample_outcome hown h).keptOrSettled hacc hue ?_ hnhv
        exact (beq_eq_false_iff_ne.mpr hk).symm
      · rename_i hu
        rw [if_neg (fun hhv => hnhv hhv.2)] at h
        cases h
        refine Or.inr ⟨0, 0, Adds.clearTrans s, Or.inr (Or.inr ⟨?_, rfl, rfl⟩)⟩
        by_contra hnot
        exact (hacc.domain hue hnot).elim hk hu

end Oprofile.Operf
