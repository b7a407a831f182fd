import Oprofile.Operf.HypervisorMappings

/-! The mappings of the hypervisor, over the records of a run. -/
namespace Oprofile.Operf.Hypervisor

variable {n : Nat} {cfg : Config n} {env : Env} {images : KernelImages} {s s' : OperfState} {e : SampleEvent}
  {rc : Int} {passed : Passed} {inKernel : Bool}

/-- Samples of the hypervisor, forks and mappings. -/
def HypervisorRecord : Event → Prop
  | .sample e => e.misc = perfRecordMiscHypervisor
  | .fork _ | .mmap _ => True
  | _ => False

/-- The sample reaches `process_hypervisor_mapping`. -/
def Passes (cfg : Config n) (e : SampleEvent) : Prop :=
  (cfg.sampleType.ip = true ∧ cfg.sampleType.tid = true ∧ cfg.sampleType.id = true) ∧ cfg.ppc64Arch = true ∧
    e.data.ip ≤ maxHypervisorAddress

instance : Decidable (Passes cfg e) := inferInstanceAs (Decidable (_ ∧ _))

def passedAfter (cfg : Config n) (_ : OperfState) (passed : Passed) : Event → Passed
  | .sample e =>
    if Passes cfg e then Function.update passed e.data.pid (e.data.ip :: passed e.data.pid) else passed
  | _ => passed

def passedRun (cfg : Config n) (env : Env) (images : KernelImages) (es : List Event) : Option (OperfState × Passed) :=
  tracedRun cfg env images (passedAfter cfg) (fun _ => []) es

/-- The mapping of the hypervisor of a process is not handed to another, nor replaced by a mapping of another kind
with the same start. -/
def StaysAlone (cfg : Config n) (s : OperfState) : Event → Prop
  | .sample e => Passes cfg e → s.procs.view.children e.data.pid = []
  | .fork f => s.procs.view.Attaches f.pid f.ppid → ForkClear s.procs.view s.procs.mmaps f.pid f.ppid
  | .mmap e => e.misc &&& perfRecordMiscKernel = 0 → Clear s.procs.view s.procs.mmaps e.pid (· = e.start)
  | _ => True

/-- What the records of a run keep. -/
structure RunOk (s : OperfState) (passed : Passed) : Prop where
  tree : TreeOk s
  tables : TablesOrdinary s
  first : s.firstTimeProcessing = true
  tracked : Tracked s.procs.view s.procs.mmaps passed

/-- Nothing of the processes and the mappings is changed. -/
structure SameMaps (s s' : OperfState) : Prop where
  procs : s'.procs = s.procs
  images : s'.allImagesMap = s.allImagesMap
  kernel : s'.kernelMmap = s.kernelMmap
  modules : s'.kernelModules = s.kernelModules
  first : s'.firstTimeProcessing = s.firstTimeProcessing

theorem SameMaps.comp {s'' : OperfState} (h : SameMaps s s') (h' : SameMaps s' s'') : SameMaps s s'' :=
  ⟨h'.procs.trans h.procs, h'.images.trans h.images, h'.kernel.trans h.kernel, h'.modules.trans h.modules,
    h'.first.trans h.first⟩

theorem RunOk.congr (h : RunOk s passed) (hsame : SameMaps s s') : RunOk s' passed := by
  obtain ⟨hprocs, himages, hkernel, hmodules, hfirst⟩ := hsame
  refine ⟨⟨?_, ?_, ?_, ?_⟩, ⟨?_, ?_, ?_, ?_⟩, hfirst.trans h.first, ?_⟩
  · rw [hprocs]
    exact h.tree.filed
  · rw [hprocs]
    exact h.tree.view
  · rw [hprocs]
    exact h.tree.noSelf
  · rw [hprocs]
    exact h.tree.fresh
  · rw [hprocs]
    exact h.tables.heap
  · rw [hprocs, himages]
    exact h.tables.images
  · rw [hprocs, hkernel]
    exact h.tables.kernel
  · rw [hprocs, hmodules]
    exact h.tables.modules
  · rw [hprocs]
    exact h.tracked

/-! ### One record -/

theorem withEvent_sameMaps (cfg : Config n) (s : OperfState) (id : UInt64) : SameMaps s (withEvent cfg s id) := by
  unfold withEvent
  split_ifs
  · exact ⟨rfl, rfl, rfl, rfl, rfl⟩
  · exact ⟨rfl, rfl, rfl, rfl, rfl⟩

/-- A sample of the hypervisor is refused or kept for the second pass. -/
theorem handleDomainSample_sameMaps (hhv : e.misc = perfRecordMiscHypervisor) (hfirst : s.firstTimeProcessing = true)
    (h : handleDomainSample cfg env s e inKernel = some (rc, s')) : SameMaps s s' := by
  simp only [handleDomainSample, Option.bind_eq_bind, Option.bind_eq_some_iff] at h
  obtain ⟨⟨verdict, s₁⟩, hverify, h⟩ := h
  have hwith := withEvent_sameMaps cfg s e.data.id
  have hheld : Withheld cfg (withEvent cfg s e.data.id) e := Or.inr ⟨hhv, hwith.first.trans hfirst⟩
  rcases verifySample_cases hverify with ⟨-, rfl, rfl⟩ | ⟨-, rfl, rfl⟩ | ⟨-, rfl, rfl⟩ | ⟨-, rfl, rfl⟩ |
    ⟨⟨hno, -⟩, -⟩ | ⟨t, ⟨-, hno⟩, -⟩
  · cases h
    exact ⟨rfl, rfl, rfl, rfl, rfl⟩
  · cases h
    exact hwith.comp ⟨rfl, rfl, rfl, rfl, rfl⟩
  · cases h
    exact hwith.comp ⟨rfl, rfl, rfl, rfl, rfl⟩
  · cases h
    exact hwith.comp ⟨rfl, rfl, rfl, rfl, rfl⟩
  · exact (hno hheld).elim
  · exact (hno hheld).elim

theorem mapHypervisorSample_runOk (h : RunOk s passed) (hc : s.procs.view.children e.data.pid = [])
    (hip : e.data.ip ≤ maxHypervisorAddress) (hmap : mapHypervisorSample cfg env s e.data.ip e.data.pid = some s') :
    RunOk s' (Function.update passed e.data.pid (e.data.ip :: passed e.data.pid)) := by
  have hquiet := mapHypervisorSample_quiet h.first hmap
  have hfirst := (mapHypervisorSample_untouched hmap).firstTime
  simp only [mapHypervisorSample, Option.bind_eq_bind, Option.bind_eq_some_iff] at hmap
  obtain ⟨t, ht, t', ht', hmap⟩ := hmap
  cases hmap
  have hens := Processes.ensureProcess_becomes h.tree.filed ht
  have hin : InOrder t := by
    refine ⟨hens.filed, ?_, ?_⟩
    · rw [hens.view, hens.mmaps]
      exact h.tree.view.ensure
    · rw [hens.mmaps, hens.nextMmap]
      exact h.tree.fresh
  have htracked : Tracked t.view t.mmaps passed := by
    rw [hens.view, hens.mmaps]
    exact h.tracked.ensure _
  have hcall := processHypervisorMapping_tracks hin htracked (by rw [hens.view, View.ensure_sameLinks.children, hc])
    hip ht'
  refine ⟨⟨hcall.inOrder.filed, hcall.inOrder.view, fun pid => ?_, hcall.inOrder.fresh⟩, ?_, hfirst.trans h.first,
    hcall.tracked⟩
  · have hparent : t'.view.parent = s.procs.view.parent := by
      rw [hcall.links.parent, hens.view, View.ensure_sameLinks.parent]
    change t'.view.parent pid ≠ some pid
    rw [hparent]
    exact h.tree.noSelf pid
  · exact (hquiet.held h.tables).1

theorem handleSampleEvent_runOk (h : RunOk s passed) (hhv : e.misc = perfRecordMiscHypervisor)
    (halone : StaysAlone cfg s (.sample e)) (hstep : handleSampleEvent cfg env s e = some (rc, s')) :
    RunOk s' (passedAfter cfg s passed (.sample e)) := by
  have hkernel : e.misc ≠ perfRecordMiscKernel := by
    rw [hhv]
    decide
  have huser : e.misc ≠ perfRecordMiscUser := by
    rw [hhv]
    decide
  unfold handleSampleEvent at hstep
  rw [if_neg hkernel, if_neg huser] at hstep
  rw [passedAfter]
  split at hstep
  · rename_i htype
    rw [if_neg fun hpass => htype hpass.1]
    cases hstep
    exact h
  · rename_i htype
    split at hstep
    · rename_i hppc
      split at hstep
      · rename_i hip
        rw [if_neg fun hpass => absurd hip (UInt64.not_lt.mpr hpass.2.2)]
        cases hstep
        exact h.congr ⟨rfl, rfl, rfl, rfl, rfl⟩
      · rename_i hip
        have hpass : Passes cfg e := ⟨not_not.mp htype, hppc.1, UInt64.not_lt.mp hip⟩
        rw [if_pos h.first] at hstep
        rw [if_pos hpass]
        simp only [Option.bind_eq_bind, Option.bind_eq_some_iff] at hstep
        obtain ⟨s₁, hmap, hstep⟩ := hstep
        have hok := mapHypervisorSample_runOk h (halone hpass) hpass.2.2 hmap
        exact hok.congr (handleDomainSample_sameMaps hhv hok.first hstep)
    · rename_i hppc
      rw [if_neg fun hpass => hppc ⟨hpass.2.1, hhv⟩]
      cases hstep
      exact h.congr ⟨rfl, rfl, rfl, rfl, rfl⟩

theorem handleForkEvent_runOk {f : ForkEvent} (h : RunOk s passed) (halone : StaysAlone cfg s (.fork f))
    (hstep : handleForkEvent cfg env s f = some s') : RunOk s' passed := by
  have hrec := handleForkEvent_step h.tree hstep
  refine ⟨hrec.ok, (handleForkEvent_keepsHeld h.first hstep h.tables).1,
    (handleForkEvent_untouched hstep).firstTime.trans h.first, ?_⟩
  rw [hrec.view, hrec.mmaps]
  exact h.tracked.fork h.tree.view halone

theorem handleMmapEvent_runOk {m : MmapEvent} (h : RunOk s passed) (halone : StaysAlone cfg s (.mmap m))
    (hstep : handleMmapEvent cfg env s m = some s') : RunOk s' passed := by
  have hrec := handleMmapEvent_step h.tree hstep
  refine ⟨hrec.ok, (handleMmapEvent_keepsHeld h.first hstep h.tables).1,
    (handleMmapEvent_untouched hstep).firstTime.trans h.first, ?_⟩
  have hmade := eventMapping_made h.tree.fresh m
  have hkept := hasHv_of_kept h.tree.view hmade.kept
  have htracked : Tracked s.procs.view (eventMapping s m).1.procs.mmaps passed :=
    h.tracked.congr hkept h.tracked.childless
  rw [hrec.view, hrec.mmaps, recordView, recordMmaps]
  split_ifs with huser
  · obtain ⟨-, m', hm', hord⟩ := eventMapping_keepsHeld h.first m h.tables
    apply (htracked.ensure m.pid).handDown hm' hord
    intro j hbelow a id m₁ hhas
    rw [View.ensure_sameLinks.below] at hbelow
    exact halone huser j hbelow a id m₁ ((hkept ..).mp ((hasHv_of_filed (View.filed_ensure _ _) ..).mp hhas))
  · exact htracked

theorem opWriteEvent_runOk {ev : Event} (hev : HypervisorRecord ev) (h : RunOk s passed)
    (halone : StaysAlone cfg s ev) (hstep : opWriteEvent cfg env s ev = some (rc, s')) :
    RunOk s' (passedAfter cfg s passed ev) := by
  cases ev with
  | sample e => exact handleSampleEvent_runOk h hev halone hstep
  | fork f =>
    simp only [opWriteEvent, Option.map_eq_some_iff, Prod.mk.injEq] at hstep
    obtain ⟨s₁, hstep, rfl, rfl⟩ := hstep
    exact handleForkEvent_runOk h halone hstep
  | mmap m =>
    simp only [opWriteEvent, Option.map_eq_some_iff, Prod.mk.injEq] at hstep
    obtain ⟨s₁, hstep, rfl, rfl⟩ := hstep
    exact handleMmapEvent_runOk h halone hstep
  | comm _ => exact hev.elim
  | throttle _ => exact hev.elim
  | lost _ => exact hev.elim
  | exit => exact hev.elim
  | other _ => exact hev.elim

theorem runOk_init (images : KernelImages) : RunOk (initialState images) fun _ => [] where
  tree := treeOk_init images
  tables := ⟨fun _ _ h => (by cases h), fun _ h => (by cases h), fun _ h => (by cases h), fun _ h => (by cases h)⟩
  first := rfl
  tracked := by
    constructor
    · rintro pid a a' id id' m m' ⟨-, hm, -⟩
      cases hm
    · rintro pid j a a' id m m' ⟨-, hm, -⟩
      cases hm
    · rintro pid a id m ⟨-, hm, -⟩
      cases hm
    · rintro pid a id m ⟨-, hm, -⟩
      cases hm
    · intro pid hne
      exact (hne rfl).elim
    · intro pid ip hip
      cases hip

/-! ### A run -/

/-- A process that `process_hypervisor_mapping` was called for has one mapping of the hypervisor, from the least to
the greatest of the samples, and no process has a mapping that is not on the heap. -/
structure TracksSamples (s : OperfState) (passed : Passed) : Prop where
  one : ∀ pid p kv kv' m m', s.procs.find pid = some p → kv ∈ p.mmappings → kv' ∈ p.mmappings →
    s.procs.mmaps kv.2 = some m → s.procs.mmaps kv'.2 = some m' → m.isHypervisor = true → m'.isHypervisor = true →
    kv = kv'
  spans : ∀ pid p kv m, s.procs.find pid = some p → kv ∈ p.mmappings → s.procs.mmaps kv.2 = some m →
    m.isHypervisor = true → Spans m (passed pid)
  made : ∀ pid, passed pid ≠ [] → ∃ p kv m, s.procs.find pid = some p ∧ kv ∈ p.mmappings ∧
    s.procs.mmaps kv.2 = some m ∧ m.isHypervisor = true
  kept : ∀ pid p kv, s.procs.find pid = some p → kv ∈ p.mmappings → ∃ m, s.procs.mmaps kv.2 = some m

theorem RunOk.tracksSamples (h : RunOk s passed) : TracksSamples s passed := by
  have hfiled : ∀ pid p kv, s.procs.find pid = some p → kv ∈ p.mmappings →
      s.procs.view.filed pid kv.1 = some kv.2 := by
    intro pid p kv hp hkv
    have hview := Processes.view_of_find hp
    rw [View.filed_of_some hview]
    exact (KeyMap.find_eq_some_iff addrLt_strictOrder (h.tree.view.sorted pid _ hview)).mpr hkv
  constructor
  · intro pid p kv kv' m m' hp hkv hkv' hm hm' hhv hhv'
    have hkey := h.tracked.one pid kv.1 kv'.1 kv.2 kv'.2 m m' ⟨hfiled pid p kv hp hkv, hm, hhv⟩
      ⟨hfiled pid p kv' hp hkv', hm', hhv'⟩
    have hval := (hfiled pid p kv hp hkv).symm.trans (hkey ▸ hfiled pid p kv' hp hkv')
    exact Prod.ext hkey (Option.some_inj.mp hval)
  · intro pid p kv m hp hkv hm hhv
    exact h.tracked.spans pid kv.1 kv.2 m ⟨hfiled pid p kv hp hkv, hm, hhv⟩
  · intro pid hne
    obtain ⟨a, id, m, hf, hm, hhv⟩ := h.tracked.made pid hne
    obtain ⟨x, hx, hfind⟩ := Option.bind_eq_some_iff.mp hf
    obtain ⟨p, hp, rfl⟩ := Option.map_eq_some_iff.mp hx
    exact ⟨p, (a, id), m, hp, KeyMap.mem_of_find hfind, hm, hhv⟩
  · intro pid p kv hp hkv
    obtain ⟨m, hm, -⟩ := h.tree.view.stored pid p.ties kv (Processes.view_of_find hp) hkv
    exact ⟨m, hm⟩

/-- In a run whose records leave the mappings of the hypervisor to the processes they are of, the mappings track the
samples. -/
theorem hypervisor_mapping_tracks (cfg : Config n) (env : Env) (images : KernelImages) (es : List Event)
    (hes : ∀ e ∈ es, HypervisorRecord e) (s : OperfState) (passed : Passed)
    (hrun : passedRun cfg env images es = some (s, passed))
    (halone : ∀ pre e, pre ++ [e] <+: es → ∀ s passed, passedRun cfg env images pre = some (s, passed) →
      StaysAlone cfg s e) : TracksSamples s passed := by
  have hok : RunOk s passed := by
    refine tracedRun_induction (I := RunOk) (C := fun s _ e => StaysAlone cfg s e) (runOk_init images) ?_ hes hrun halone
    intro s passed e rc s' he hI hone hstep
    exact opWriteEvent_runOk he hI hone hstep
  exact hok.tracksSamples

def ppc64 : Config 8 := { twoEvents with ppc64Arch := true }

def hypervisorSample (pid : UInt32) (ip : UInt64) : Event := .sample ⟨perfRecordMiscHypervisor, ⟨ip, pid, pid, 11, 0⟩, []⟩

/-- A forked process with two samples, the second below the first. -/
def forkThenWiden : List Event := [.fork ⟨20, 10⟩, hypervisorSample 20 0x2000, hypervisorSample 20 0x1000]

theorem hypervisor_mapping_tracks_widened : ∃ s passed,
    passedRun ppc64 quietEnv noVmlinux forkThenWiden = some (s, passed) ∧ TracksSamples s passed := by
  have hes : ∀ e ∈ forkThenWiden, HypervisorRecord e := by
    simp only [forkThenWiden, List.mem_cons, List.not_mem_nil, or_false]
    rintro e (rfl | rfl | rfl)
    · trivial
    · rfl
    · rfl
  have hrun : (passedRun ppc64 quietEnv noVmlinux forkThenWiden).isSome = true := by decide
  obtain ⟨⟨s, passed⟩, hrun⟩ := Option.isSome_iff_exists.mp hrun
  have hsecond : (passedRun ppc64 quietEnv noVmlinux (forkThenWiden.take 1)).map (fun r =>
      ((r.1.procs.find 20).map (·.forkedProcesses)).getD []) = some [] := by decide
  have hthird : (passedRun ppc64 quietEnv noVmlinux (forkThenWiden.take 2)).map (fun r =>
      ((r.1.procs.find 20).map (·.forkedProcesses)).getD []) = some [] := by decide
  refine ⟨s, passed, hrun, hypervisor_mapping_tracks ppc64 quietEnv noVmlinux forkThenWiden hes s passed hrun ?_⟩
  intro pre e hpre s passed hso
  obtain ⟨rest, hrest⟩ := hpre
  match pre, hrest with
  | [], hrest =>
    cases hso
    cases hrest
    intro _
    constructor
    · rintro a id m ⟨-, hm, -⟩
      cases hm
    · rintro j - a id m ⟨-, hm, -⟩
      cases hm
  | [_], hrest =>
    simp only [forkThenWiden, List.cons_append, List.nil_append, List.cons.injEq] at hrest
    obtain ⟨rfl, rfl, -⟩ := hrest
    rw [show forkThenWiden.take 1 = [_] from rfl, hso, Option.map_some, Option.some_inj] at hsecond
    intro _
    exact View.children_of_find hsecond
  | [_, _], hrest =>
    simp only [forkThenWiden, List.cons_append, List.nil_append, List.cons.injEq] at hrest
    obtain ⟨rfl, rfl, rfl, -⟩ := hrest
    rw [show forkThenWiden.take 2 = [_, _] from rfl, hso, Option.map_some, Option.some_inj] at hthird
    intro _
    exact View.children_of_find hthird
  | _ :: _ :: _ :: pre, hrest =>
    simp [forkThenWiden] at hrest

/-- A process forks between two samples, and its child is left with the mapping deleted for the second. -/
theorem forked_keeps_deleted :
    (∀ e ∈ [hypervisorSample 10 0x2000, .fork ⟨20, 10⟩, hypervisorSample 10 0x1000], HypervisorRecord e) ∧
      ∃ s passed, passedRun ppc64 quietEnv noVmlinux
        [hypervisorSample 10 0x2000, .fork ⟨20, 10⟩, hypervisorSample 10 0x1000] = some (s, passed) ∧
        ¬TracksSamples s passed := by
  have hes : ∀ e ∈ [hypervisorSample 10 0x2000, .fork ⟨20, 10⟩, hypervisorSample 10 0x1000], HypervisorRecord e := by
    simp only [List.mem_cons, List.not_mem_nil, or_false]
    rintro e (rfl | rfl | rfl)
    · rfl
    · trivial
    · rfl
  have hrun : ((passedRun ppc64 quietEnv noVmlinux
      [hypervisorSample 10 0x2000, .fork ⟨20, 10⟩, hypervisorSample 10 0x1000]).bind fun r =>
      (r.1.procs.find 20).bind fun p => (p.mmappings.find? fun kv => (r.1.procs.mmaps kv.2).isNone).map Prod.fst) =
      some 0x2000 := by decide
  obtain ⟨⟨s, passed⟩, hso, hrest⟩ := Option.bind_eq_some_iff.mp hrun
  obtain ⟨p, hp, hrest⟩ := Option.bind_eq_some_iff.mp hrest
  obtain ⟨kv, hkv, -⟩ := Option.map_eq_some_iff.mp hrest
  refine ⟨hes, s, passed, hso, fun htracks => ?_⟩
  obtain ⟨m, hm⟩ := htracks.kept 20 p kv hp (List.mem_of_find?_eq_some hkv)
  have hnone := List.find?_some hkv
  rw [hm] at hnone
  cases hnone

end Oprofile.Operf.Hypervisor
