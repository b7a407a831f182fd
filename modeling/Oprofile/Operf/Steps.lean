import Oprofile.Operf.Events
import Oprofile.Operf.ProcessNames

/-! What each of operf's handlers can change. -/
namespace Oprofile.Operf

variable {n : Nat} {cfg : Config n} {env : Env} {s s' s'' : OperfState} {data : SampleData}
  {hv kernelMode found : Bool} {e : SampleEvent}

/-- A handler that works on the processes and the mappings, and logs nothing. -/
structure Untouched (s s' : OperfState) : Prop where
  transient : s'.trans = s.trans
  sfiles : s'.sfiles = s.sfiles
  logged : s'.logged = s.logged
  firstTime : s'.firstTimeProcessing = s.firstTimeProcessing
  initDone : s'.sfileInitDone = s.sfileInitDone
  procs : Grows s.procs s'.procs

namespace Untouched

theorem refl (s : OperfState) : Untouched s s := ⟨rfl, rfl, rfl, rfl, rfl, Grows.refl _⟩

theorem setProcs {t : Processes} (h : Grows s.procs t) : Untouched s (s.setProcs t) :=
  ⟨rfl, rfl, rfl, rfl, rfl, h⟩

theorem comp (h : Untouched s s') (h' : Untouched s' s'') : Untouched s s'' where
  transient := h'.transient.trans h.transient
  sfiles := h'.sfiles.trans h.sfiles
  logged := h'.logged.trans h.logged
  firstTime := h'.firstTime.trans h.firstTime
  initDone := h'.initDone.trans h.initDone
  procs := h.procs.trans h'.procs

end Untouched

theorem handleForkEvent_untouched {f : ForkEvent} (h : handleForkEvent cfg env s f = some s') :
    Untouched s s' := by
  simp only [handleForkEvent, Option.bind_eq_bind, Option.bind_eq_some_iff] at h
  obtain ⟨t, ht, h⟩ := h
  have hens := Processes.ensureProcess_grows ht
  split at h
  · cases h
    exact Untouched.setProcs hens
  · split at h
    · rename_i hnew
      simp only [Option.bind_eq_some_iff] at h
      obtain ⟨t₁, h₁, t₂, h₂, h⟩ := h
      cases h
      have hmade := Processes.newProcessInfo_grows hnew h₁
      exact Untouched.setProcs ((hens.trans hmade).trans (Processes.setForkInfo_grows h₂))
    · split at h
      · cases h
        exact Untouched.setProcs hens
      · simp only [Option.bind_eq_some_iff] at h
        obtain ⟨t₁, h₁, h⟩ := h
        cases h
        exact Untouched.setProcs (hens.trans (Processes.setForkInfo_grows h₁))

theorem commKnownProcess_grows {t t' : Processes} {p : ProcessInfo} {c : CommEvent}
    (hp : t.find c.pid = some p) (h : commKnownProcess env t p c = some t') : Grows t t' := by
  unfold commKnownProcess at h
  split at h
  · split at h
    · split at h
      · exact Processes.tryDisassociateFromParent_grows h
      · exact Processes.setValid_setAppname_grows hp h
    · cases h
      exact Grows.refl t
  · split at h
    · intro hk
      refine Processes.setAppname_grows (fun q hq hv => ?_) h hk
      rw [hk c.pid p hp, hp] at hq
      cases hq
      exact ⟨hv, rfl⟩
    · cases h
      exact Grows.refl t

theorem handleCommEvent_untouched {c : CommEvent} (h : handleCommEvent cfg env s c = some s') :
    Untouched s s' := by
  unfold handleCommEvent at h
  split at h
  · rename_i hnew
    simp only [Option.map_eq_some_iff] at h
    obtain ⟨t, ht, rfl⟩ := h
    exact Untouched.setProcs (Processes.newProcessInfo_grows hnew ht)
  · rename_i p hp
    simp only [Option.map_eq_some_iff] at h
    obtain ⟨t, ht, rfl⟩ := h
    exact Untouched.setProcs (commKnownProcess_grows hp ht)

theorem eventMapping_untouched (s : OperfState) (m : MmapEvent) :
    Untouched s (eventMapping s m).1 := by
  have hnew : Grows s.procs (s.procs.newMmap (mmapOf m)) := grows_of_find fun _ => rfl
  simp only [eventMapping]
  split
  · exact Untouched.refl s
  · split_ifs
    · exact ⟨rfl, rfl, rfl, rfl, rfl, hnew⟩
    · exact ⟨rfl, rfl, rfl, rfl, rfl, hnew⟩

theorem handleKernelMmap_untouched (s : OperfState) (id : MmapId) (m : OperfMmap) :
    Untouched s (handleKernelMmap cfg s id m) := by
  unfold handleKernelMmap
  split_ifs <;> exact ⟨rfl, rfl, rfl, rfl, rfl, Grows.refl _⟩

theorem handleMmapEvent_untouched {m : MmapEvent} (h : handleMmapEvent cfg env s m = some s') :
    Untouched s s' := by
  simp only [handleMmapEvent, Option.bind_eq_bind, Option.bind_eq_some_iff] at h
  obtain ⟨m', -, h⟩ := h
  have hmap := eventMapping_untouched s m
  split at h
  · cases h
    exact hmap.comp (handleKernelMmap_untouched _ _ _)
  · simp only [Option.bind_eq_some_iff] at h
    obtain ⟨t, ht, t', ht', h⟩ := h
    cases h
    have hens := Processes.ensureProcess_grows ht
    exact hmap.comp (Untouched.setProcs (hens.trans (Processes.processMapping_grows ht')))

theorem mapHypervisorSample_untouched {ip : UInt64} {pid : UInt32}
    (h : mapHypervisorSample cfg env s ip pid = some s') : Untouched s s' := by
  simp only [mapHypervisorSample, Option.bind_eq_bind, Option.bind_eq_some_iff] at h
  obtain ⟨t, ht, t', ht', h⟩ := h
  cases h
  have hens := Processes.ensureProcess_grows ht
  exact Untouched.setProcs (hens.trans (Processes.processHypervisorMapping_grows ht'))

theorem settleValid_grows {t t' : Processes} {p : ProcessInfo} {pid : UInt32}
    (hp : t.find pid = some p) (h : settleValid t p = some t') : Grows t t' := by
  unfold settleValid at h
  split at h
  · cases h
    exact Grows.refl t
  · rename_i hv
    have hv : p.valid = false := by simpa using hv
    split at h
    · exact Processes.connectForkedProcessToParent_grows hp hv h
    · cases h
      exact set_update_grows hp rfl fun hav => by simp [ProcessInfo.isAppnameValid, hv] at hav

theorem settleProcess_grows {t t' : Processes} {pid : UInt32}
    (h : settleProcess t pid = some t') : Grows t t' := by
  simp only [settleProcess, Option.bind_eq_bind, Option.bind_eq_some_iff] at h
  obtain ⟨p, hp, t₁, h₁, q, hq, h⟩ := h
  cases h
  refine (settleValid_grows hp h₁).trans (set_update_grows hq rfl fun hav => ⟨?_, rfl⟩)
  simp only [ProcessInfo.isAppnameValid, Bool.and_eq_true] at hav ⊢
  exact ⟨hav.1, trivial⟩

theorem settleProcesses_untouched (h : settleProcesses s = some s') : Untouched s s' := by
  simp only [settleProcesses, Option.bind_eq_bind, Option.bind_eq_some_iff] at h
  obtain ⟨t, ht, h⟩ := h
  cases h
  exact Untouched.setProcs (foldlM_grows (fun _ _ _ hstep => settleProcess_grows hstep) ht)

theorem bump_untouched (s : OperfState) (stat : OperfStat) (k : Nat) : Untouched s (s.bump stat k) :=
  ⟨rfl, rfl, rfl, rfl, rfl, Grows.refl _⟩

/-- A mapping is found for the sample, and with it the process. -/
structure Lookup (s : OperfState) (data : SampleData) (hv kernelMode : Bool) (p : ProcessInfo)
    (m : OperfMmap) : Prop where
  process : sampleProcess s data.pid = some (some p)
  mapping : sampleMapping s (some p) data.ip hv kernelMode = some (some m, s)

theorem sampleMapping_some {proc : Option ProcessInfo} {ip : UInt64} {m : OperfMmap}
    (h : sampleMapping s proc ip hv kernelMode = some (some m, s')) : s' = s := by
  unfold sampleMapping at h
  split at h
  · simp only [Option.map_eq_some_iff, Prod.mk.injEq] at h
    obtain ⟨_, -, -, h⟩ := h
    exact h.symm
  · simp only [Option.bind_eq_bind, Option.bind_eq_some_iff] at h
    obtain ⟨p, -, m', -, h⟩ := h
    split at h
    · cases h
    · cases h
      rfl

theorem sampleMapping_untouched {proc : Option ProcessInfo} {ip : UInt64} {r : Option OperfMmap}
    (h : sampleMapping s proc ip hv kernelMode = some (r, s')) : Untouched s s' := by
  unfold sampleMapping at h
  split at h
  · simp only [Option.map_eq_some_iff, Prod.mk.injEq] at h
    obtain ⟨_, -, -, rfl⟩ := h
    exact Untouched.refl s
  · simp only [Option.bind_eq_bind, Option.bind_eq_some_iff] at h
    obtain ⟨p, -, m', -, h⟩ := h
    split at h
    · cases h
      exact bump_untouched s _ _
    · cases h
      exact Untouched.refl s

/-- `__get_operf_trans` sets `trans` from what it finds or leaves it. -/
theorem getOperfTrans_cases (h : getOperfTrans cfg s data hv kernelMode = some (found, s')) :
    (found = false ∧ Untouched s s' ∧ ∀ p m, ¬ Lookup s data hv kernelMode p m) ∨
    (found = true ∧ ∃ p m, Lookup s data hv kernelMode p m ∧
      s' = { s with trans := setTrans s.trans data p.appname m kernelMode }) := by
  unfold getOperfTrans at h
  split at h
  · rename_i hproc
    have hno : ∀ p m, ¬ Lookup s data hv kernelMode p m := fun p m hl => by
      have := hl.process
      rw [hproc] at this
      cases this
    split at h
    · cases h
      exact Or.inl ⟨rfl, bump_untouched s _ _, hno⟩
    · cases h
      exact Or.inl ⟨rfl, Untouched.refl s, hno⟩
  · rename_i proc hproc
    simp only [Option.bind_eq_bind, Option.bind_eq_some_iff] at h
    obtain ⟨⟨r, s₁⟩, hr, h⟩ := h
    cases r with
    | none =>
      have hno : ∀ p m, ¬ Lookup s data hv kernelMode p m := fun p m hl => by
        have hp := hl.process
        rw [hproc, Option.some_inj] at hp
        have hm := hl.mapping
        rw [← hp, hr] at hm
        cases hm
      have hs₁ := sampleMapping_untouched hr
      simp only at h
      split at h
      · cases h
        exact Or.inl ⟨rfl, hs₁, hno⟩
      · cases h
        exact Or.inl ⟨rfl, hs₁.comp (bump_untouched _ _ _), hno⟩
    | some m =>
      have hs₁ := sampleMapping_some hr
      rw [hs₁] at hr h
      simp only [Option.bind_eq_some_iff] at h
      obtain ⟨p, hp, h⟩ := h
      cases h
      rw [hp] at hproc hr
      exact Or.inr ⟨rfl, p, m, ⟨hproc, hr⟩, rfl⟩

/-- `operf_sfile_find` finds or makes a file, but in the kernel needs an image. -/
theorem findCurrent_cases (h : findCurrent cfg s = some s') :
    ∃ name, s.trans.imageName = some name ∧ s.sfileInitDone = true ∧
      ((s.trans.inKernel = true ∧ s.kernelImages.findKernelImage s.trans.pc = none ∧
          s' = { s.bump .lostKernel 1 with trans := { s.trans with current := none } }) ∨
        ∃ ki, (s.trans.inKernel = true → s.kernelImages.findKernelImage s.trans.pc = ki ∧ ki.isSome) ∧
          (s.trans.inKernel = false → ki = none) ∧
          s' = { s with
            trans := { s.trans with
              current := some (sfileFind cfg.separateCpu s.sfiles s.trans name ki).1 }
            sfiles := (sfileFind cfg.separateCpu s.sfiles s.trans name ki).2 }) := by
  simp only [findCurrent, Option.bind_eq_bind, Option.bind_eq_some_iff] at h
  obtain ⟨name, hname, h⟩ := h
  split at h
  · cases h
  · rename_i hinit
    refine ⟨name, hname, by simpa using hinit, ?_⟩
    split at h
    · rename_i hk
      split at h
      · rename_i hki
        cases h
        exact Or.inl ⟨hk, hki, rfl⟩
      · rename_i ki hki
        cases h
        exact Or.inr ⟨some ki, fun _ => ⟨hki, rfl⟩, fun hu => by simp [hk] at hu, rfl⟩
    · rename_i hu
      cases h
      exact Or.inr ⟨none, fun hk => (hu hk).elim, fun _ => rfl, rfl⟩

/-- What happens when a sample or an arc is logged, the file open or not. -/
structure LogStep (s s' : OperfState) (entry : LogEntry) : Prop where
  transient : s'.trans = s.trans
  procs : s'.procs = s.procs
  firstTime : s'.firstTimeProcessing = s.firstTimeProcessing
  initDone : s'.sfileInitDone = s.sfileInitDone
  logged : s'.logged = s.logged ∨ s'.logged = s.logged ++ [entry]
  sfiles : ∃ keep : OperfSfile → Bool, s'.sfiles = { s.sfiles with hashes := s.sfiles.hashes.filter keep } ∧
    ∀ sf, s.trans.current = some sf → keep sf = true

theorem getFile_logStep {file : Bool} (entry : LogEntry) (h : getFile cfg env s = some (file, s')) :
    LogStep s s' entry ∧ s'.logged = s.logged ∧
      (∃ sf, s.trans.current = some sf) ∧ file = env.openSampleFile s.logCalls := by
  simp only [getFile, Option.bind_eq_bind, Option.bind_eq_some_iff] at h
  obtain ⟨sf, hsf, h⟩ := h
  split at h
  · cases h
  · cases h
    refine ⟨⟨rfl, rfl, rfl, rfl, Or.inl rfl, _, rfl, fun sf' hsf' => ?_⟩, rfl, ⟨sf, hsf⟩, rfl⟩
    rw [hsf] at hsf'
    cases hsf'
    simp

/-- The sample is logged for `trans.current` under `trans.event`, if the file could be opened. -/
theorem operfSfileLogSample_logStep (h : operfSfileLogSample cfg env s = some s') :
    ∃ sf, s.trans.current = some sf ∧
      LogStep s s' (.sample sf s.trans.event (sampleOffset sf s.trans.pc)) ∧
      (env.openSampleFile s.logCalls = true → s'.logged =
        s.logged ++ [.sample sf s.trans.event (sampleOffset sf s.trans.pc)]) := by
  simp only [operfSfileLogSample, Option.bind_eq_bind, Option.bind_eq_some_iff] at h
  obtain ⟨sf, hsf, ⟨file, s₁⟩, hfile, h⟩ := h
  obtain ⟨hstep, hlog, -, hopen⟩ := getFile_logStep (.sample sf s.trans.event
    (sampleOffset sf s.trans.pc)) hfile
  refine ⟨sf, hsf, ?_⟩
  simp only at h
  split at h
  · cases h
    have hlogged : s₁.logged ++ [LogEntry.sample sf s₁.trans.event (sampleOffset sf s₁.trans.pc)] =
        s.logged ++ [LogEntry.sample sf s.trans.event (sampleOffset sf s.trans.pc)] := by
      rw [hlog, hstep.transient]
    exact ⟨⟨hstep.transient, hstep.procs, hstep.firstTime, hstep.initDone, Or.inr hlogged, hstep.sfiles⟩, fun _ => hlogged⟩
  · rename_i hclosed
    cases h
    refine ⟨⟨hstep.transient, hstep.procs, hstep.firstTime, hstep.initDone, Or.inl hlog, hstep.sfiles⟩, fun ho => ?_⟩
    rw [hopen, ho] at hclosed
    exact (hclosed rfl).elim

theorem operfSfileLogArc_logStep (h : operfSfileLogArc cfg env s = some s') :
    ∃ sf last key, s.trans.current = some sf ∧ LogStep s s' (.arc sf last s.trans.event key) := by
  simp only [operfSfileLogArc, Option.bind_eq_bind, Option.bind_eq_some_iff] at h
  obtain ⟨sf, hsf, last, -, ⟨file, s₁⟩, hfile, h⟩ := h
  refine ⟨sf, last, (sampleOffset last s.trans.lastPc &&& (0xffffffff : UInt64)) |||
      (sampleOffset sf s.trans.pc <<< (32 : UInt64)), hsf, ?_⟩
  obtain ⟨hstep, hlog, -, -⟩ := getFile_logStep (.arc sf last s.trans.event
    ((sampleOffset last s.trans.lastPc &&& (0xffffffff : UInt64)) |||
      (sampleOffset sf s.trans.pc <<< (32 : UInt64)))) hfile
  simp only at h
  split at h
  · cases h
    refine ⟨hstep.transient, hstep.procs, hstep.firstTime, hstep.initDone, Or.inr ?_, hstep.sfiles⟩
    simp only [hlog, hstep.transient]
  · cases h
    exact ⟨hstep.transient, hstep.procs, hstep.firstTime, hstep.initDone, Or.inl hlog, hstep.sfiles⟩

/-- The fast path changes the thread and the address only. -/
theorem fastPath_some {trans t : OperfTransient} {inKernel : Bool}
    (h : fastPath trans data inKernel = some t) :
    ∃ tid pc, t = { trans with tid := tid, pc := pc } := by
  unfold fastPath at h
  split at h
  · split at h
    · split at h
      · cases h
        exact ⟨trans.tid, data.ip, rfl⟩
      · split at h
        · cases h
          exact ⟨trans.tid, data.ip, rfl⟩
        · cases h
    · cases h
  · split at h
    · cases h
      exact ⟨data.tid, _, rfl⟩
    · cases h

end Oprofile.Operf
