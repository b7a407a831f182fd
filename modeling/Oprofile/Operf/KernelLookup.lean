import Oprofile.Operf.EventIds

/-! The two lookups of a kernel address: by mapping and by image. -/
namespace Oprofile.Operf

variable {n : Nat} {cfg : Config n} {env : Env} {s s' : OperfState} {v : KernelImage} {ip : UInt64}
  {e : MmapEvent} {recs : List MmapEvent}

/-- The record that `op_record_kernel_info` writes for the kernel itself. -/
def vmlinuxRecord (v : KernelImage) : MmapEvent where
  misc := perfRecordMiscKernel
  pid := 0
  start := v.start
  len := v.stop - v.start
  pgoff := 0
  filename := v.name

namespace MmapEvent

def lastByte (e : MmapEvent) : UInt64 := e.start + e.len - 1

def Contains (e : MmapEvent) (ip : UInt64) : Prop := e.start ≤ ip ∧ ip ≤ e.lastByte

def ContainsBeforeLast (e : MmapEvent) (ip : UInt64) : Prop := e.start ≤ ip ∧ ip < e.lastByte

end MmapEvent

/-- A record that is taken for a module's. -/
structure TakenForModule (v : KernelImage) (e : MmapEvent) : Prop where
  kernel : e.misc &&& perfRecordMiscKernel ≠ 0
  notUser : e.misc &&& perfRecordMiscUser = 0
  name : (mmapOf e).filename.isPrefixOf v.name = false

/-- The record of a module whose range is not empty. -/
structure ModuleRecord (v : KernelImage) (e : MmapEvent) : Prop extends TakenForModule v e where
  len : e.len ≠ 0
  range : e.start ≤ e.lastByte

/-- Modules are recorded only when both ends of the kernel are known. -/
structure KernelRangeGiven (v : KernelImage) : Prop where
  start : v.start ≠ 0
  stop : v.stop ≠ 0

/-- Whether the record of the kernel is taken for one: not when its file name is rewritten. -/
def TakenForKernel (v : KernelImage) : Prop := slashAnon.isPrefixOf v.name = false

/-- Modules are profiled unless the kernel hides their addresses. -/
def ModulesPermitted (cfg : Config n) : Prop := ¬ (cfg.kptrRestrict = 1 ∧ cfg.myUid ≠ 0)

/-- The mapping found contains the address, and the image found has its name and start; or
neither is found. -/
def LookupsAgree (s : OperfState) (ip : UInt64) : Prop :=
  ∃ r, kernelMapping s ip = some r ∧ (∀ m, r = some m → inRange ip m = true) ∧
    r.map (fun m => (m.filename, m.startAddr)) =
      (s.kernelImages.findKernelImage ip).map fun i => (i.2.name, i.2.start)

/-- The last record with its start. -/
def InForce (recs : List MmapEvent) (e : MmapEvent) : Prop :=
  ∃ before after, recs = before ++ e :: after ∧ ∀ e' ∈ after, e'.start ≠ e.start

/-- The record in force with the least start that contains the address. -/
structure LowestRecord (recs : List MmapEvent) (ip : UInt64) (e : MmapEvent) : Prop where
  inForce : InForce recs e
  contains : e.Contains ip
  least : ∀ e', InForce recs e' → e'.Contains ip → e.start ≤ e'.start

/-- The newest record that contains the address before its last byte. -/
def NewestRecord (recs : List MmapEvent) (ip : UInt64) (e : MmapEvent) : Prop :=
  e.ContainsBeforeLast ip ∧
    ∃ before after, recs = before ++ e :: after ∧ ∀ e' ∈ after, ¬ e'.ContainsBeforeLast ip

/-- The lowest record and the newest are of one module, or there is neither. -/
def SameModule (recs : List MmapEvent) (ip : UInt64) : Prop :=
  ((∀ e, InForce recs e → ¬ e.Contains ip) ∧ ∀ e ∈ recs, ¬ e.ContainsBeforeLast ip) ∨
    ∃ a b, LowestRecord recs ip a ∧ NewestRecord recs ip b ∧ a.start = b.start ∧
      (mmapOf a).filename = (mmapOf b).filename

/-- The modules' mappings, by their starts. -/
def byStart (recs : List MmapEvent) : List (UInt64 × OperfMmap) :=
  recs.foldl (fun t e => KeyMap.insert addrLt e.start (mmapOf e) t) []

def moduleImage (e : MmapEvent) : KernelImage :=
  ⟨(mmapOf e).filename, (mmapOf e).startAddr, (mmapOf e).endAddr⟩

/-- Both tables hold the modules recorded so far. -/
structure KernelTables (v : KernelImage) (recs : List MmapEvent) (s : OperfState) : Prop where
  hasVmlinux : s.kernelImages.noVmlinux = false
  vmlinux : s.kernelImages.vmlinux = v
  images : s.kernelImages.modules.map Prod.snd = (recs.map moduleImage).reverse
  mappings : s.kernelModules.map (fun kv => (kv.1, s.procs.mmaps kv.2)) =
    (byStart recs).map fun kv => (kv.1, some kv.2)
  known : s.allImagesMap = []
  fresh : ∀ kv ∈ s.kernelModules, kv.2 < s.procs.nextMmap

theorem byStart_sorted (recs : List MmapEvent) : KeyMap.Sorted addrLt (byStart recs) := by
  have hfold : ∀ (recs : List MmapEvent) (t : List (UInt64 × OperfMmap)), KeyMap.Sorted addrLt t →
      KeyMap.Sorted addrLt (recs.foldl (fun t e => KeyMap.insert addrLt e.start (mmapOf e) t) t) := by
    intro recs
    induction recs with
    | nil => exact fun _ ht => ht
    | cons e recs ih => exact fun t ht => ih _ (KeyMap.sorted_insert addrLt_strictOrder ht)
  exact hfold recs [] KeyMap.sorted_nil

theorem byStart_append (recs : List MmapEvent) (e : MmapEvent) :
    byStart (recs ++ [e]) = KeyMap.insert addrLt e.start (mmapOf e) (byStart recs) := by
  simp [byStart]

/-- The table holds the records in force. -/
theorem mem_byStart_iff {m : OperfMmap} :
    (ip, m) ∈ byStart recs ↔ ∃ e, InForce recs e ∧ ip = e.start ∧ m = mmapOf e := by
  rw [← KeyMap.find_eq_some_iff addrLt_strictOrder (byStart_sorted recs), byStart,
    KeyMap.find_foldl_insert (fun e : MmapEvent => e.start) mmapOf, KeyMap.find, Option.or_none,
    Option.map_eq_some_iff]
  constructor
  · rintro ⟨e, hfind, rfl⟩
    obtain ⟨hstart, before, after, heq, hno⟩ := KeyMap.find?_reverse_eq_some_iff.mp hfind
    have hstart : e.start = ip := by simpa using hstart
    subst hstart
    exact ⟨e, ⟨before, after, heq, fun e' he' => by simpa using hno e' he'⟩, rfl, rfl⟩
  · rintro ⟨e, ⟨before, after, heq, hno⟩, rfl, rfl⟩
    refine ⟨e, KeyMap.find?_reverse_eq_some_iff.mpr ⟨by simp, before, after, heq, ?_⟩, rfl⟩
    exact fun e' he' => by simpa using hno e' he'

/-- What a record of the kernel does when no user mapping is known. -/
theorem handleMmapEvent_kernel (cfg : Config n) (env : Env) (hk : e.misc &&& perfRecordMiscKernel ≠ 0)
    (hu : e.misc &&& perfRecordMiscUser = 0) (hknown : s.allImagesMap = []) :
    handleMmapEvent cfg env s e = some (handleKernelMmap cfg
      (s.setProcs (s.procs.newMmap (mmapOf e))) s.procs.nextMmap (mmapOf e)) := by
  have hnone : knownMapping s (opBasename e.filename) e.start = none := by
    simp [knownMapping, hknown]
  have hmap : eventMapping s e = (s.setProcs (s.procs.newMmap (mmapOf e)), s.procs.nextMmap) := by
    simp [eventMapping, hnone, hu]
  have hget : (s.procs.newMmap (mmapOf e)).mmaps s.procs.nextMmap = some (mmapOf e) := by
    simp [Processes.newMmap]
  simp [handleMmapEvent, hmap, OperfState.setProcs, hget, hk]

theorem vmlinuxRecord_misc (v : KernelImage) :
    (vmlinuxRecord v).misc &&& perfRecordMiscKernel ≠ 0 ∧
      (vmlinuxRecord v).misc &&& perfRecordMiscUser = 0 :=
  (by decide : perfRecordMiscKernel &&& perfRecordMiscKernel ≠ 0 ∧
    perfRecordMiscKernel &&& perfRecordMiscUser = 0)

theorem vmlinuxRecord_filename (h : TakenForKernel v) : (mmapOf (vmlinuxRecord v)).filename = v.name := by
  rw [TakenForKernel] at h
  simp [mmapOf, vmlinuxRecord, h]

theorem vmlinuxRecord_renamed (h : ¬ TakenForKernel v) :
    (mmapOf (vmlinuxRecord v)).filename.isPrefixOf v.name = false := by
  rw [TakenForKernel, Bool.not_eq_false] at h
  obtain ⟨rest, hrest⟩ := List.isPrefixOf_iff_prefix.mp h
  have hhead : v.name.head? = some '/' := by
    rw [← hrest]
    rfl
  have hfilename : (mmapOf (vmlinuxRecord v)).filename = anonName := by
    simp [mmapOf, vmlinuxRecord, h, hhead]
  rw [hfilename, ← hrest]
  rfl

theorem kernelTables_init (v : KernelImage) : KernelTables v [] (initialState ⟨false, v, []⟩) :=
  ⟨rfl, rfl, rfl, rfl, rfl, by simp [initialState]⟩

/-- A new mapping leaves those of the modules as they are. -/
theorem KernelTables.newMmap (h : KernelTables v recs s) (m : OperfMmap) :
    KernelTables v recs (s.setProcs (s.procs.newMmap m)) := by
  refine ⟨h.hasVmlinux, h.vmlinux, h.images, ?_, h.known, fun kv hkv => ?_⟩
  · refine Eq.trans (List.map_congr_left fun kv hkv => ?_) h.mappings
    have hne : kv.2 ≠ s.procs.nextMmap := Nat.ne_of_lt (h.fresh kv hkv)
    simp [OperfState.setProcs, Processes.newMmap, hne]
  · exact Nat.lt_succ_of_lt (h.fresh kv hkv)

/-- The tables after the record of one more module. -/
theorem KernelTables.module (env : Env) (hperm : ModulesPermitted cfg) (h : KernelTables v recs s)
    (he : TakenForModule v e) : ∃ s', handleMmapEvent cfg env s e = some s' ∧
      KernelTables v (recs ++ [e]) s' ∧ s'.kernelMmap = s.kernelMmap ∧
      s'.procs = s.procs.newMmap (mmapOf e) := by
  refine ⟨_, handleMmapEvent_kernel cfg env he.kernel he.notUser h.known, ?_⟩
  have hnew := h.newMmap (mmapOf e)
  have hname : (mmapOf e).filename.isPrefixOf
      (s.setProcs (s.procs.newMmap (mmapOf e))).kernelImages.vmlinux.name = false := by
    rw [hnew.vmlinux]
    exact he.name
  have hshown : ¬ (cfg.kptrRestrict = 1 ∧
      ¬ (s.setProcs (s.procs.newMmap (mmapOf e))).kernelImages.noVmlinux = true ∧ cfg.myUid ≠ 0) :=
    fun hhidden => hperm ⟨hhidden.1, hhidden.2.2⟩
  rw [handleKernelMmap, if_neg (by rw [hname]; exact Bool.false_ne_true), if_neg hshown]
  refine ⟨⟨hnew.hasVmlinux, hnew.vmlinux, ?_, ?_, hnew.known, ?_⟩, rfl, rfl⟩
  · rw [KernelImages.createModule, List.map_cons, hnew.images, List.map_append, List.reverse_append]
    rfl
  · rw [byStart_append, KeyMap.map_insert, KeyMap.map_insert, hnew.mappings]
    simp [OperfState.setProcs, Processes.newMmap, mmapOf]
  · intro kv hkv
    rcases KeyMap.mem_insert hkv with rfl | hkv
    · exact Nat.lt_succ_self _
    · exact hnew.fresh kv hkv

/-- The mapping of the kernel itself, if its record was taken for one. -/
def KernelMmapIs (s : OperfState) (m : Option OperfMmap) : Prop :=
  (s.kernelMmap.bind s.procs.mmaps = m) ∧ ∀ k, s.kernelMmap = some k → k < s.procs.nextMmap

theorem KernelMmapIs.newMmap {m : Option OperfMmap} {m' : OperfMmap} (h : KernelMmapIs s m)
    (hk : s'.kernelMmap = s.kernelMmap) (hp : s'.procs = s.procs.newMmap m') : KernelMmapIs s' m := by
  obtain ⟨hm, hfresh⟩ := h
  rw [KernelMmapIs, hk, hp]
  refine ⟨?_, fun k hk => Nat.lt_succ_of_lt (hfresh k hk)⟩
  cases hkm : s.kernelMmap with
  | none =>
    rw [hkm] at hm
    exact hm
  | some k =>
    have hne : k ≠ s.procs.nextMmap := Nat.ne_of_lt (hfresh k hkm)
    rw [hkm] at hm
    simpa [Processes.newMmap, hne] using hm

/-- The tables after the records of all modules. -/
theorem modules_recorded (env : Env) (hperm : ModulesPermitted cfg) {m : Option OperfMmap}
    {done : List MmapEvent} (hs : KernelTables v done s) (hm : KernelMmapIs s m)
    (hrecs : ∀ e ∈ recs, TakenForModule v e) :
    ∃ s', writeEvents cfg env (recs.map .mmap) s = some (0, s') ∧ KernelTables v (done ++ recs) s' ∧
      KernelMmapIs s' m := by
  induction recs generalizing s done with
  | nil => exact ⟨s, rfl, by rwa [List.append_nil], hm⟩
  | cons e recs ih =>
    obtain ⟨s₁, hstep, htables, hkm, hp⟩ :=
      KernelTables.module env hperm hs (hrecs e List.mem_cons_self)
    obtain ⟨s', hrun, htables', hm'⟩ := ih htables (hm.newMmap hkm hp)
      fun e' he' => hrecs e' (List.mem_cons_of_mem _ he')
    refine ⟨s', ?_, by rwa [List.append_assoc] at htables', hm'⟩
    simp [writeEvents, opWriteEvent, hstep, hrun]

/-- The tables after the records of the kernel and of its modules. -/
theorem kernel_recorded (env : Env) (hperm : ModulesPermitted cfg)
    (hrecs : ∀ e ∈ recs, TakenForModule v e) :
    ∃ s, writeEvents cfg env ((vmlinuxRecord v :: recs).map .mmap) (initialState ⟨false, v, []⟩) =
        some (0, s) ∧
      (TakenForKernel v → KernelTables v recs s ∧ KernelMmapIs s (some (mmapOf (vmlinuxRecord v)))) ∧
      (¬ TakenForKernel v → KernelMmapIs s none) := by
  have hinit := kernelTables_init v
  by_cases htaken : TakenForKernel v
  · have hnew := hinit.newMmap (mmapOf (vmlinuxRecord v))
    have hprefix : (mmapOf (vmlinuxRecord v)).filename.isPrefixOf ((initialState ⟨false, v, []⟩).setProcs
        ((initialState ⟨false, v, []⟩).procs.newMmap (mmapOf (vmlinuxRecord v)))).kernelImages.vmlinux.name =
        true := by
      rw [hnew.vmlinux, vmlinuxRecord_filename htaken]
      exact List.isPrefixOf_iff_prefix.mpr (List.prefix_refl _)
    have hstep := handleMmapEvent_kernel cfg env (vmlinuxRecord_misc v).1 (vmlinuxRecord_misc v).2
      hinit.known
    rw [handleKernelMmap, if_pos hprefix] at hstep
    obtain ⟨s, hrun, htables, hm⟩ := modules_recorded env hperm
      (s := { (initialState ⟨false, v, []⟩).setProcs
        ((initialState ⟨false, v, []⟩).procs.newMmap (mmapOf (vmlinuxRecord v))) with
          kernelMmap := some (initialState ⟨false, v, []⟩).procs.nextMmap })
      (m := some (mmapOf (vmlinuxRecord v)))
      ⟨hnew.hasVmlinux, hnew.vmlinux, hnew.images, hnew.mappings, hnew.known, hnew.fresh⟩
      ⟨rfl, fun k hk => by cases hk; exact Nat.lt_succ_self _⟩ hrecs
    refine ⟨s, ?_, fun _ => ⟨htables, hm⟩, fun hno => (hno htaken).elim⟩
    simp [writeEvents, opWriteEvent, hstep, hrun]
  · obtain ⟨s₁, hstep, htables, hkm, hp⟩ := KernelTables.module env hperm hinit
      (e := vmlinuxRecord v) ⟨(vmlinuxRecord_misc v).1, (vmlinuxRecord_misc v).2, vmlinuxRecord_renamed htaken⟩
    have hnone : KernelMmapIs s₁ none :=
      KernelMmapIs.newMmap (s := initialState ⟨false, v, []⟩) ⟨rfl, fun k hk => by cases hk⟩ hkm hp
    obtain ⟨s, hrun, -, hm⟩ := modules_recorded env hperm htables hnone hrecs
    refine ⟨s, ?_, fun hyes => (htaken hyes).elim, fun _ => hm⟩
    simp [writeEvents, opWriteEvent, hstep, hrun]

theorem inForce_mem (h : InForce recs e) : e ∈ recs := by
  obtain ⟨before, after, rfl, -⟩ := h
  exact List.mem_append_right _ List.mem_cons_self

theorem mmapOf_inRange (hlen : e.len ≠ 0) : inRange ip (mmapOf e) = true ↔ e.Contains ip := by
  simp [inRange, mmapOf, hlen, MmapEvent.Contains, MmapEvent.lastByte]

theorem moduleImage_covers (hlen : e.len ≠ 0) :
    KernelImages.covers ip (moduleImage e) = true ↔ e.ContainsBeforeLast ip := by
  simp [KernelImages.covers, moduleImage, mmapOf, hlen, MmapEvent.ContainsBeforeLast,
    MmapEvent.lastByte]

/-- The kernel's own mapping and image have the same range. -/
theorem vmlinux_inRange (hv : KernelRangeGiven v) :
    inRange ip (mmapOf (vmlinuxRecord v)) = true ↔ v.start ≤ ip ∧ ip < v.stop := by
  have hadd : v.start + (v.stop - v.start) = v.stop := by rw [UInt64.add_comm, UInt64.sub_add_cancel]
  have hpos : 0 < v.stop.toNat := by
    have hstop := hv.stop
    rw [← UInt64.toNat_inj.ne] at hstop
    exact Nat.pos_of_ne_zero hstop
  simp only [inRange, mmapOf, vmlinuxRecord, Bool.and_eq_true, decide_eq_true_eq, hadd]
  split_ifs with hlen
  · have hsame : v.stop = v.start := by rw [← hadd, hlen, UInt64.add_zero]
    have hstart := hv.start
    rw [hsame]
    rw [← UInt64.toNat_inj.ne] at hstart
    simp only [UInt64.le_iff_toNat_le, UInt64.lt_iff_toNat_lt]
    have hzero : (0 : UInt64).toNat = 0 := rfl
    omega
  · have hsub : (v.stop - 1).toNat = v.stop.toNat - 1 :=
      UInt64.toNat_sub_of_le _ _ (UInt64.le_iff_toNat_le.mpr hpos)
    simp only [UInt64.le_iff_toNat_le, UInt64.lt_iff_toNat_lt, hsub]
    omega

/-- The search among the modules' mappings. -/
theorem lowest_some_iff (hrecs : ∀ e ∈ recs, ModuleRecord v e) {x : UInt64 × OperfMmap} :
    (byStart recs).find? (fun kv => inRange ip kv.2) = some x ↔
      ∃ e, LowestRecord recs ip e ∧ x = (e.start, mmapOf e) := by
  rw [KeyMap.find?_eq_some_iff_least addrLt_strictOrder (byStart_sorted recs)]
  constructor
  · rintro ⟨hmem, hin, hleast⟩
    obtain ⟨e, hforce, hk, hm⟩ := mem_byStart_iff.mp hmem
    have hin : e.Contains ip := by
      rw [hm] at hin
      exact (mmapOf_inRange (hrecs e (inForce_mem hforce)).len).mp hin
    refine ⟨e, ⟨hforce, hin, fun e' hforce' hin' => ?_⟩, Prod.ext hk hm⟩
    have hin' := (mmapOf_inRange (hrecs e' (inForce_mem hforce')).len).mpr hin'
    have hlt := hleast (e'.start, mmapOf e') (mem_byStart_iff.mpr ⟨e', hforce', rfl, rfl⟩) hin'
    simpa [addrLt, hk] using hlt
  · rintro ⟨e, hlow, rfl⟩
    refine ⟨mem_byStart_iff.mpr ⟨e, hlow.inForce, rfl, rfl⟩,
      (mmapOf_inRange (hrecs e (inForce_mem hlow.inForce)).len).mpr hlow.contains, fun y hy hin => ?_⟩
    obtain ⟨e', hforce', hk', hm'⟩ := mem_byStart_iff.mp hy
    rw [hm'] at hin
    have hin := (mmapOf_inRange (hrecs e' (inForce_mem hforce')).len).mp hin
    simpa [addrLt, hk'] using hlow.least e' hforce' hin

/-- The search among the modules' images. -/
theorem newest_some_iff (hrecs : ∀ e ∈ recs, ModuleRecord v e) {b : MmapEvent} :
    recs.reverse.find? (fun e => KernelImages.covers ip (moduleImage e)) = some b ↔
      NewestRecord recs ip b := by
  rw [KeyMap.find?_reverse_eq_some_iff]
  constructor
  · rintro ⟨hb, before, after, rfl, hno⟩
    refine ⟨(moduleImage_covers (hrecs b (by simp)).len).mp hb, before, after, rfl, fun e' he' hin => ?_⟩
    rw [← moduleImage_covers (hrecs e' (by simp [he'])).len, hno e' he'] at hin
    cases hin
  · rintro ⟨hb, before, after, rfl, hno⟩
    refine ⟨(moduleImage_covers (hrecs b (by simp)).len).mpr hb, before, after, rfl, fun e' he' => ?_⟩
    have hout := hno e' he'
    rwa [← moduleImage_covers (hrecs e' (by simp [he'])).len, Bool.not_eq_true] at hout

theorem mapM_of_map_eq {A B : Type} {f : A → Option B} {xs : List A} {ys : List B}
    (h : xs.map f = ys.map some) : xs.mapM f = some ys := by
  induction xs generalizing ys with
  | nil =>
    cases ys with
    | nil => rfl
    | cons y ys => cases h
  | cons x xs ih =>
    cases ys with
    | nil => cases h
    | cons y ys =>
      rw [List.map_cons, List.map_cons, List.cons.injEq] at h
      simp [List.mapM_cons, h.1, ih h.2]

/-- `__get_operf_trans` looks at the kernel's mapping, then at those of the modules. -/
theorem kernelMapping_eq (hv : KernelRangeGiven v) (ht : KernelTables v recs s)
    (hm : KernelMmapIs s (some (mmapOf (vmlinuxRecord v)))) :
    kernelMapping s ip = some (if v.start ≤ ip ∧ ip < v.stop then some (mmapOf (vmlinuxRecord v)) else
      ((byStart recs).find? fun kv => inRange ip kv.2).map Prod.snd) := by
  have hmods : s.kernelModules.mapM (fun kv => s.procs.mmaps kv.2) =
      some ((byStart recs).map Prod.snd) := by
    apply mapM_of_map_eq
    have hsnd := congrArg (List.map Prod.snd) ht.mappings
    simpa [Function.comp_def] using hsnd
  have hstart : ¬ ((mmapOf (vmlinuxRecord v)).startAddr = 0 ∧ (mmapOf (vmlinuxRecord v)).endAddr = 0) :=
    fun hzero => hv.start hzero.1
  have hfind : ((byStart recs).map Prod.snd).find? (inRange ip) =
      ((byStart recs).find? fun kv => inRange ip kv.2).map Prod.snd := List.find?_map
  simp only [kernelMapping, hm.1, hmods, Option.bind_eq_bind, Option.bind_some, vmlinux_inRange hv,
    hstart, if_false, hfind]
  split_ifs
  · rfl
  · cases (byStart recs).find? fun kv => inRange ip kv.2 <;> rfl

/-- `operf_find_kernel_image` looks at the kernel's image, then at those of the modules. -/
theorem findKernelImage_eq (ht : KernelTables v recs s) (ip : UInt64) :
    (s.kernelImages.findKernelImage ip).map Prod.snd = if v.start ≤ ip ∧ ip < v.stop then some v else
      (recs.reverse.find? fun e => KernelImages.covers ip (moduleImage e)).map moduleImage := by
  have hcovers : KernelImages.covers ip v = true ↔ v.start ≤ ip ∧ ip < v.stop := by
    simp [KernelImages.covers]
  have hmods : (s.kernelImages.modules.find? (KernelImages.covers ip ·.2)).map Prod.snd =
      (recs.reverse.find? fun e => KernelImages.covers ip (moduleImage e)).map moduleImage := by
    have hfind := List.find?_map (p := KernelImages.covers ip) (f := Prod.snd)
      (l := s.kernelImages.modules)
    rw [ht.images, ← List.map_reverse, List.find?_map] at hfind
    exact hfind.symm
  simp only [KernelImages.findKernelImage, ht.hasVmlinux, Bool.false_eq_true, if_false, ht.vmlinux]
  split_ifs with hin hin' hin'
  · rfl
  · exact (hin' (hcovers.mp hin)).elim
  · exact (hin (hcovers.mpr hin')).elim
  · exact hmods

theorem lowest_none_iff (hrecs : ∀ e ∈ recs, ModuleRecord v e) :
    (byStart recs).find? (fun kv => inRange ip kv.2) = none ↔
      ∀ e, InForce recs e → ¬ e.Contains ip := by
  rw [List.find?_eq_none]
  constructor
  · intro hno e hforce hin
    refine hno (e.start, mmapOf e) (mem_byStart_iff.mpr ⟨e, hforce, rfl, rfl⟩) ?_
    exact (mmapOf_inRange (hrecs e (inForce_mem hforce)).len).mpr hin
  · rintro hno ⟨k, m⟩ hmem hin
    obtain ⟨e, hforce, -, rfl⟩ := mem_byStart_iff.mp hmem
    exact hno e hforce ((mmapOf_inRange (hrecs e (inForce_mem hforce)).len).mp hin)

theorem newest_none_iff (hrecs : ∀ e ∈ recs, ModuleRecord v e) :
    recs.reverse.find? (fun e => KernelImages.covers ip (moduleImage e)) = none ↔
      ∀ e ∈ recs, ¬ e.ContainsBeforeLast ip := by
  rw [List.find?_eq_none]
  constructor
  · intro hno e he hin
    exact hno e (List.mem_reverse.mpr he) ((moduleImage_covers (hrecs e he).len).mpr hin)
  · intro hno e he hin
    have he := List.mem_reverse.mp he
    exact hno e he ((moduleImage_covers (hrecs e he).len).mp hin)

theorem LowestRecord.unique {a b : MmapEvent} (hrecs : ∀ e ∈ recs, ModuleRecord v e)
    (ha : LowestRecord recs ip a) (hb : LowestRecord recs ip b) :
    a.start = b.start ∧ (mmapOf a).filename = (mmapOf b).filename := by
  have hsame := (lowest_some_iff hrecs).mpr ⟨a, ha, rfl⟩
  rw [(lowest_some_iff hrecs).mpr ⟨b, hb, rfl⟩, Option.some_inj, Prod.mk.injEq] at hsame
  exact ⟨hsame.1.symm, by rw [hsame.2]⟩

theorem NewestRecord.unique {a b : MmapEvent} (hrecs : ∀ e ∈ recs, ModuleRecord v e)
    (ha : NewestRecord recs ip a) (hb : NewestRecord recs ip b) : a = b := by
  have hsame := (newest_some_iff hrecs).mpr ha
  rw [(newest_some_iff hrecs).mpr hb] at hsame
  exact (Option.some_inj.mp hsame).symm

/-- Outside the kernel's own range the lookups agree when the two searches end at one module. -/
theorem searches_agree_iff (hrecs : ∀ e ∈ recs, ModuleRecord v e) (ip : UInt64) :
    (((byStart recs).find? fun kv => inRange ip kv.2).map fun kv => (kv.2.filename, kv.2.startAddr)) =
        ((recs.reverse.find? fun e => KernelImages.covers ip (moduleImage e)).map fun e =>
          ((moduleImage e).name, (moduleImage e).start)) ↔ SameModule recs ip := by
  cases hlow : (byStart recs).find? fun kv => inRange ip kv.2 with
  | none =>
    have hno := (lowest_none_iff hrecs).mp hlow
    cases hnew : recs.reverse.find? fun e => KernelImages.covers ip (moduleImage e) with
    | none => exact ⟨fun _ => Or.inl ⟨hno, (newest_none_iff hrecs).mp hnew⟩, fun _ => rfl⟩
    | some b =>
      have hb := (newest_some_iff hrecs).mp hnew
      refine ⟨fun h => (by cases h), ?_⟩
      rintro (⟨-, hnone⟩ | ⟨a, _, ha, -, -, -⟩)
      · obtain ⟨hin, before, after, rfl, -⟩ := hb
        exact (hnone b (by simp) hin).elim
      · exact (hno a ha.inForce ha.contains).elim
  | some x =>
    obtain ⟨a, ha, rfl⟩ := (lowest_some_iff hrecs).mp hlow
    cases hnew : recs.reverse.find? fun e => KernelImages.covers ip (moduleImage e) with
    | none =>
      have hno := (newest_none_iff hrecs).mp hnew
      refine ⟨fun h => (by cases h), ?_⟩
      rintro (⟨hnone, -⟩ | ⟨_, b, -, ⟨hin, before, after, rfl, -⟩, -, -⟩)
      · exact (hnone a ha.inForce ha.contains).elim
      · exact (hno b (by simp) hin).elim
    | some b =>
      have hb := (newest_some_iff hrecs).mp hnew
      simp only [Option.map_some, Option.some_inj, Prod.mk.injEq]
      constructor
      · rintro ⟨hname, hstart⟩
        exact Or.inr ⟨a, b, ha, hb, hstart, hname⟩
      · rintro (⟨hnone, -⟩ | ⟨a', b', ha', hb', hstart, hname⟩)
        · exact (hnone a ha.inForce ha.contains).elim
        · obtain ⟨hs, hn⟩ := ha.unique hrecs ha'
          obtain rfl := hb.unique hrecs hb'
          exact ⟨hn.trans hname, hs.trans hstart⟩

/-- The lookups agree at an address, as the ranges recorded decide. -/
theorem lookupsAgree_iff (hv : KernelRangeGiven v) (hrecs : ∀ e ∈ recs, ModuleRecord v e)
    (ht : KernelTables v recs s) (hm : KernelMmapIs s (some (mmapOf (vmlinuxRecord v))))
    (htaken : TakenForKernel v) :
    LookupsAgree s ip ↔ (v.start ≤ ip ∧ ip < v.stop) ∨ SameModule recs ip := by
  have hmap := findKernelImage_eq ht ip
  have himage : (s.kernelImages.findKernelImage ip).map (fun i => (i.2.name, i.2.start)) =
      ((s.kernelImages.findKernelImage ip).map Prod.snd).map fun i => (i.name, i.start) := by
    rw [Option.map_map]
    rfl
  rw [LookupsAgree, kernelMapping_eq hv ht hm, himage, hmap]
  by_cases hin : v.start ≤ ip ∧ ip < v.stop
  · simp only [if_pos hin]
    refine ⟨fun _ => Or.inl hin, fun _ => ⟨_, rfl, ?_, ?_⟩⟩
    · rintro m hm
      cases hm
      exact (vmlinux_inRange hv).mpr hin
    · rw [Option.map_some, Option.map_some, vmlinuxRecord_filename htaken]
      rfl
  · simp only [if_neg hin]
    have hsearch := searches_agree_iff hrecs ip
    rw [Option.map_map]
    constructor
    · rintro ⟨r, hr, -, heq⟩
      cases hr
      rw [Option.map_map] at heq
      exact Or.inr (hsearch.mp heq)
    · rintro (h | h)
      · exact (hin h).elim
      · refine ⟨_, rfl, fun m hm => ?_, ?_⟩
        · obtain ⟨x, hx, rfl⟩ := Option.map_eq_some_iff.mp hm
          have hin' := List.find?_some hx
          exact hin'
        · rw [Option.map_map]
          exact hsearch.mpr h

/-- No address is in the ranges of two records. -/
def Disjoint (recs : List MmapEvent) : Prop :=
  recs.Pairwise fun a b => ∀ ip, ¬ (a.Contains ip ∧ b.Contains ip)

theorem disjoint_eq {before after : List MmapEvent} (hd : Disjoint (before ++ e :: after))
    (hin : e.Contains ip) :
    (∀ e' ∈ before, ¬ e'.Contains ip) ∧ ∀ e' ∈ after, ¬ e'.Contains ip := by
  obtain ⟨-, htail, hcross⟩ := List.pairwise_append.mp hd
  refine ⟨fun e' he' hin' => ?_, fun e' he' hin' => ?_⟩
  · exact hcross e' he' e List.mem_cons_self ip ⟨hin', hin⟩
  · exact (List.pairwise_cons.mp htail).1 e' he' ip ⟨hin, hin'⟩

/-- With disjoint ranges only the last byte of a module makes a difference. -/
theorem sameModule_iff (hrecs : ∀ e ∈ recs, ModuleRecord v e) (hd : Disjoint recs) :
    SameModule recs ip ↔ ∀ e ∈ recs, e.Contains ip → ip ≠ e.lastByte := by
  have honly : ∀ e ∈ recs, e.Contains ip → ∃ before after, recs = before ++ e :: after ∧
      (∀ e' ∈ before, ¬ e'.Contains ip) ∧ ∀ e' ∈ after, ¬ e'.Contains ip := by
    intro e he hin
    obtain ⟨before, after, rfl⟩ := List.append_of_mem he
    exact ⟨before, after, rfl, disjoint_eq hd hin⟩
  have hforce : ∀ e ∈ recs, InForce recs e := by
    intro e he
    have hstart : e.Contains e.start := ⟨UInt64.le_refl _, (hrecs e he).range⟩
    obtain ⟨before, after, rfl⟩ := List.append_of_mem he
    refine ⟨before, after, rfl, fun e' he' hsame => ?_⟩
    have hstart' : e'.Contains e.start := by
      rw [← hsame]
      exact ⟨UInt64.le_refl _, (hrecs e' (by simp [he'])).range⟩
    exact (disjoint_eq hd hstart).2 e' he' hstart'
  constructor
  · rintro (⟨hnone, -⟩ | ⟨a, b, -, hb, -, -⟩) e he hin hlast
    · exact hnone e (hforce e he) hin
    · obtain ⟨hbin, _, _, hb, -⟩ := hb
      have hbmem : b ∈ recs := hb ▸ List.mem_append_right _ List.mem_cons_self
      have hbin' : b.Contains ip := ⟨hbin.1, UInt64.le_of_lt hbin.2⟩
      obtain ⟨before, after, rfl, hbefore, hafter⟩ := honly e he hin
      rcases List.mem_append.mp hbmem with hmem | hmem
      · exact hbefore b hmem hbin'
      · rcases List.mem_cons.mp hmem with rfl | hmem
        · rw [hlast] at hbin
          exact UInt64.lt_irrefl _ hbin.2
        · exact hafter b hmem hbin'
  · intro hlast
    by_cases hsome : ∃ e ∈ recs, e.Contains ip
    · obtain ⟨e, he, hin⟩ := hsome
      obtain ⟨before, after, heq, hbefore, hafter⟩ := honly e he hin
      refine Or.inr ⟨e, e, ⟨hforce e he, hin, fun e' hforce' hin' => ?_⟩, ⟨⟨hin.1, ?_⟩, before, after, heq,
        fun e' he' hin' => ?_⟩, rfl, rfl⟩
      · have hmem := inForce_mem hforce'
        rw [heq] at hmem
        rcases List.mem_append.mp hmem with hmem | hmem
        · exact (hbefore e' hmem hin').elim
        · rcases List.mem_cons.mp hmem with rfl | hmem
          · exact UInt64.le_refl _
          · exact (hafter e' hmem hin').elim
      · exact UInt64.lt_of_le_of_ne hin.2 (hlast e he hin)
      · exact hafter e' he' ⟨hin'.1, UInt64.le_of_lt hin'.2⟩
    · refine Or.inl ⟨fun e hforce' hin => hsome ⟨e, inForce_mem hforce', hin⟩, fun e he hin => ?_⟩
      exact hsome ⟨e, he, hin.1, UInt64.le_of_lt hin.2⟩

theorem not_lookupsAgree (hm : KernelMmapIs s none) : ¬ LookupsAgree s ip := by
  rintro ⟨r, hr, -, -⟩
  simp [kernelMapping, hm.1] at hr

/-- After the records of the kernel and its modules, when the lookups agree. -/
theorem kernel_lookups_agree (cfg : Config n) (env : Env) (v : KernelImage) (recs : List MmapEvent)
    (hv : KernelRangeGiven v) (hperm : ModulesPermitted cfg) (hrecs : ∀ e ∈ recs, ModuleRecord v e) :
    ∃ s, writeEvents cfg env ((vmlinuxRecord v :: recs).map .mmap) (initialState ⟨false, v, []⟩) =
        some (0, s) ∧
      (∀ ip, LookupsAgree s ip ↔
        TakenForKernel v ∧ ((v.start ≤ ip ∧ ip < v.stop) ∨ SameModule recs ip)) ∧
      (Disjoint recs → ∀ ip, LookupsAgree s ip ↔ TakenForKernel v ∧
        ((v.start ≤ ip ∧ ip < v.stop) ∨ ∀ e ∈ recs, e.Contains ip → ip ≠ e.lastByte)) := by
  obtain ⟨s, hrun, hyes, hno⟩ :=
    kernel_recorded env hperm fun e he => (hrecs e he).toTakenForModule (v := v)
  have hagree : ∀ ip, LookupsAgree s ip ↔
      TakenForKernel v ∧ ((v.start ≤ ip ∧ ip < v.stop) ∨ SameModule recs ip) := by
    intro ip
    by_cases htaken : TakenForKernel v
    · obtain ⟨ht, hm⟩ := hyes htaken
      rw [lookupsAgree_iff hv hrecs ht hm htaken]
      exact ⟨fun h => ⟨htaken, h⟩, fun h => h.2⟩
    · exact ⟨fun h => (not_lookupsAgree (hno htaken) h).elim, fun h => (htaken h.1).elim⟩
  refine ⟨s, hrun, hagree, fun hd ip => ?_⟩
  rw [hagree ip, sameModule_iff hrecs hd]

/-- A kernel from 0x1000 to 0x1fff and two modules, one right behind the other. -/
def smallKernel : KernelImage := ⟨['/', 'v'], 0x1000, 0x2000⟩

def adjacentModules : List MmapEvent :=
  [⟨perfRecordMiscKernel, 0, 0x3000, 0x1000, 0, ['m']⟩, ⟨perfRecordMiscKernel, 0, 0x4000, 0x1000, 0, ['k']⟩]

theorem smallKernel_range : KernelRangeGiven smallKernel := ⟨by decide, by decide⟩

theorem adjacentModules_records : ∀ e ∈ adjacentModules, ModuleRecord smallKernel e := by
  simp only [adjacentModules, List.mem_cons, List.not_mem_nil, or_false]
  rintro e (rfl | rfl) <;> exact ⟨⟨by decide, by decide, by decide⟩, by decide, by decide⟩

theorem adjacentModules_disjoint : Disjoint adjacentModules := by
  refine List.pairwise_cons.mpr ⟨fun e he => ?_, List.pairwise_singleton _ _⟩
  rintro ip ⟨hin, hin'⟩
  obtain rfl := List.mem_singleton.mp he
  exact absurd (UInt64.le_trans hin'.1 hin.2) (by decide)

/-- The lookups agree before and behind the last byte of the first module, and not at it. -/
theorem kernel_lookups_agree_adjacent : ∃ s,
    writeEvents twoEvents quietEnv ((vmlinuxRecord smallKernel :: adjacentModules).map .mmap)
      (initialState ⟨false, smallKernel, []⟩) = some (0, s) ∧
    LookupsAgree s 0x3ffe ∧ ¬ LookupsAgree s 0x3fff ∧ LookupsAgree s 0x4000 := by
  obtain ⟨s, hrun, -, hagree⟩ := kernel_lookups_agree twoEvents quietEnv smallKernel adjacentModules
    smallKernel_range (fun h => absurd h.1 (by decide)) adjacentModules_records
  have hagree := hagree adjacentModules_disjoint
  have htaken : TakenForKernel smallKernel := by
    rw [TakenForKernel]
    decide
  refine ⟨s, hrun, (hagree _).mpr ⟨htaken, Or.inr ?_⟩, fun h => ?_, (hagree _).mpr ⟨htaken, Or.inr ?_⟩⟩
  · simp only [adjacentModules, List.mem_cons, List.not_mem_nil, or_false]
    rintro e (rfl | rfl) - <;> decide
  · rcases ((hagree _).mp h).2 with hin | hlast
    · exact absurd hin.2 (by decide)
    · exact hlast _ List.mem_cons_self ⟨by decide, by decide⟩ (by decide)
  · simp only [adjacentModules, List.mem_cons, List.not_mem_nil, or_false]
    rintro e (rfl | rfl) - <;> decide

/-- The mapping of a module contains its last byte, its image does not. -/
theorem last_byte_not_in_image : KernelRangeGiven smallKernel ∧
    (∀ e ∈ adjacentModules, ModuleRecord smallKernel e) ∧ ∃ s,
    writeEvents twoEvents quietEnv ((vmlinuxRecord smallKernel :: adjacentModules).map .mmap)
      (initialState ⟨false, smallKernel, []⟩) = some (0, s) ∧ ¬LookupsAgree s 0x3fff := by
  have hrun : ((writeEvents twoEvents quietEnv ((vmlinuxRecord smallKernel :: adjacentModules).map .mmap)
      (initialState ⟨false, smallKernel, []⟩)).map fun r => (r.1,
        (kernelMapping r.2 0x3fff).map (·.map (·.startAddr)),
        (r.2.kernelImages.findKernelImage 0x3fff).isNone)) = some (0, some (some 0x3000), true) := by
    decide
  simp only [Option.map_eq_some_iff, Prod.mk.injEq] at hrun
  obtain ⟨⟨rc, s⟩, hs, rfl, ⟨r, hr, m, rfl, -⟩, hnone⟩ := hrun
  refine ⟨smallKernel_range, adjacentModules_records, s, hs, ?_⟩
  rintro ⟨r', hr', -, heq⟩
  simp only at hr hnone
  rw [hr, Option.some_inj] at hr'
  rw [← hr', Option.isNone_iff_eq_none.mp hnone] at heq
  cases heq

end Oprofile.Operf
