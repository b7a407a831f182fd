import Oprofile.Daemon.IbsTransparency

/-! Records of IBS, and what they may do to the samples behind them. -/
namespace Oprofile.Daemon
namespace DaemonState

variable {o : Setup} {sur : Surroundings} {f f' r r' s s' : DaemonState} {record : Record} {records : List Record}
  {buffer : Buffer}

/-! ### One record -/

/-- Whether the sfile of a sample of IBS is ignored: one that is cached for a mapping, or the one that is looked for. -/
def sampleIgnored (o : Options) (sur : Surroundings) (s : DaemonState) (rip : UInt64) : Bool :=
  if s.trans.inKernel = 0 ∧ s.trans.cookie = noCookie then s.currentSfile.any SfileFields.ignored
  else (contextKey o sur s.images { s.trans with pc := rip, anon := none }).any
    (SfileKey.isIgnored o s.memory.images)

/-- A sample of IBS, at an address, after which ordinary samples are attributed as without it: it is not part of a call
trace, it does not put the transient into the kernel, in a process without cookie it lies in the mapping that is cached,
and the sfile it leaves in `trans->last` is ignored if and only if the one before it was. -/
structure Harmless (o : Setup) (sur : Surroundings) (s : DaemonState) (rip : UInt64) : Prop where
  tracing : s.trans.tracing = .off
  privilege : ¬(s.trans.cookie = invalidCookie ∧
    ((findKernelImage s.images rip).any fun image => image.2.start ≠ 0 ∧ image.2.stop ≠ 0) ∧ s.trans.inKernel = 0)
  mapping : s.trans.inKernel = 0 → s.trans.cookie = noCookie → s.trans.current.isSome = true ∧
    s.trans.anon.any { s with trans := { s.trans with pc := rip } }.anonMatch = true
  ignored : sampleIgnored o.toOptions sur s rip = s.ignoredLast
  lastAnon : s.ignoredLast = true → s.trans.lastAnon = if s.trans.inKernel = 0 then s.trans.anon else none

theorem Sound.currentIgnored (h : Sound o sur s) : s.currentSfile.any SfileFields.ignored =
    (s.currentKey o.toOptions).any (SfileKey.isIgnored o.toOptions s.memory.images) := by
  rw [currentKey, currentSfile]
  cases hc : s.trans.current with
  | none => rfl
  | some c =>
    show (s.memory.sfiles c).ignored = _
    rw [(h.filed c (h.current c hc)).1, isIgnored_key]
    rfl

/-- The context of such a sample. -/
theorem Harmless.findContext {rip event : UInt64} {stats : DaemonStat → Nat} {samples : Nat} (h : Harmless o sur s rip)
    (hs : Sound o sur s)
    (hcontext : (s.beginAs rip event s.trans.inKernel stats samples).findContext o.toOptions sur = some s') :
    (∃ current sfiles tbl, s' = { s.beginAs rip event s.trans.inKernel stats samples with
        trans := { (s.beginAs rip event s.trans.inKernel stats samples).trans with
          current := current
          anon := if s.trans.inKernel = 0 then s.trans.anon else none }
        memory := { s.memory with sfiles := sfiles }
        table := tbl }) ∧
      (s.trans.inKernel = 0 → s.trans.cookie = noCookie → s'.currentSfile = s.currentSfile) ∧
      s'.currentSfile.any SfileFields.ignored = sampleIgnored o.toOptions sur s rip := by
  have hbegin : Sound o sur (s.beginAs rip event s.trans.inKernel stats samples) :=
    hs.mono (.refl _) rfl rfl rfl rfl rfl rfl hs.current hs.last hs.mode
  have hs' := hbegin.findContext hcontext
  rw [DaemonState.findContext] at hcontext
  have hmode : (s.beginAs rip event s.trans.inKernel stats samples).trans.inKernel = s.trans.inKernel := rfl
  have himage : (s.beginAs rip event s.trans.inKernel stats samples).trans.cookie = s.trans.cookie := rfl
  by_cases huser : s.trans.inKernel = 0
  · by_cases hcookie : s.trans.cookie = noCookie
    · obtain ⟨hcurrent, hmatch⟩ := h.mapping huser hcookie
      have hmatch : (s.beginAs rip event s.trans.inKernel stats samples).trans.anon.any
          (s.beginAs rip event s.trans.inKernel stats samples).anonMatch = true := hmatch
      have hcurrent : (DaemonState.setAnon ((s.beginAs rip event s.trans.inKernel stats samples).trans.anon,
          s.beginAs rip event s.trans.inKernel stats samples)).trans.current.isSome = true := hcurrent
      rw [findAnon_mapping (hmode.trans huser) (himage.trans hcookie), DaemonState.findAnonMapping, if_pos hmatch,
        DaemonState.findCurrent, if_pos hcurrent] at hcontext
      cases hcontext
      refine ⟨⟨s.trans.current, s.memory.sfiles, s.table, ?_⟩, fun _ _ => rfl, ?_⟩
      · rw [if_pos huser]
        rfl
      · rw [sampleIgnored, if_pos ⟨huser, hcookie⟩]
        rfl
    · rw [findAnon_image (hmode.trans huser) (himage ▸ hcookie)] at hcontext
      have hkey := hbegin.findCurrent_key hcontext (.inr ⟨huser, hcookie⟩)
      obtain ⟨current, sfiles, tbl, hframe, -⟩ := findCurrent_frame hbegin hcontext
      refine ⟨⟨current, sfiles, tbl, ?_⟩, fun _ hnone => (hcookie hnone).elim, ?_⟩
      · rw [hframe, if_pos huser]
        rfl
      · rw [hs'.currentIgnored, hkey, sampleIgnored, if_neg fun hnone => hcookie hnone.2, hframe,
          ← hs.anon huser hcookie]
        rfl
  · rw [findAnon_kernel (hmode ▸ huser)] at hcontext
    have hclear := hbegin.clearTransCurrent
    have hkey := hclear.findCurrent_key hcontext (.inl rfl)
    obtain ⟨current, sfiles, tbl, hframe, -⟩ := findCurrent_frame hclear hcontext
    refine ⟨⟨current, sfiles, tbl, ?_⟩, fun hzero => (huser hzero).elim, ?_⟩
    · rw [hframe, if_neg huser]
      rfl
    · rw [hs'.currentIgnored, hkey, sampleIgnored, if_neg fun hzero => huser hzero.1, hframe]
      rfl

theorem sfileLogSampleCount_ext (s : DaemonState) (sur : Surroundings) (current count : Nat) :
    ∃ s', s.sfileLogSampleCount o.toOptions sur true current count = some s' ∧
      s'.attributed o.toOptions = s.attributed o.toOptions := by
  have hcounter : s.counterOk o.toOptions true = true := rfl
  rw [DaemonState.sfileLogSampleCount]
  by_cases htrace : s.trans.tracing = .on
  · rw [if_pos htrace]
    cases s.trans.last with
    | none => exact ⟨s, rfl, rfl⟩
    | some last =>
      refine ⟨s.sfileLogArc o.toOptions sur true current last, rfl, (attributed_log (s := s) rfl).trans ?_⟩
      exact List.append_nil _
  · rw [if_neg htrace, hcounter, if_pos rfl]
    exact ⟨(s.evict sur).log ⟨true, s.memory.sfiles current, none, s.trans.event,
      s.offsetIn (s.memory.sfiles current) s.trans.pc, count⟩, rfl,
      (attributed_log (s := s) rfl).trans (List.append_nil _)⟩

theorem logDerived_ext (s : DaemonState) (sur : Surroundings) (current : Nat) (events : Logged) :
    ∃ s', s.logDerived o sur current events = some s' ∧ s'.attributed o.toOptions = s.attributed o.toOptions := by
  induction events generalizing s with
  | nil => exact ⟨s, rfl, rfl⟩
  | cons x events ih =>
    obtain ⟨s₁, hfirst, hsame⟩ := sfileLogSampleCount_ext (o := o)
      { s.bump .ibsDerivedEvent with trans := { s.trans with event := x.1.select.toUInt64 } } sur current x.2.toNat
    obtain ⟨s₂, hrest, hsame'⟩ := ih s₁
    have hfirst : s.opdLogIbsEvent o sur current x = some s₁ := hfirst
    refine ⟨s₂, ?_, hsame'.trans hsame⟩
    rw [DaemonState.logDerived, List.foldlM_cons, hfirst]
    exact hrest

/-- The samples of IBS are logged for derived events. -/
theorem logIbsSample_ext (s : DaemonState) (sur : Surroundings) (ext : IbsExt) :
    ∃ s', s.logIbsSample o sur ext = some s' ∧ s'.attributed o.toOptions = s.attributed o.toOptions := by
  rw [DaemonState.logIbsSample]
  cases s.trans.current with
  | none => exact ⟨s, rfl, rfl⟩
  | some current =>
    dsimp only
    split_ifs
    · cases ext.fetch with
      | none => exact ⟨s, rfl, rfl⟩
      | some x => exact logDerived_ext (s.reach (.fetch x)) sur current _
    · cases ext.op with
      | none => exact ⟨s, rfl, rfl⟩
      | some x =>
        rw [DaemonState.logIbsOp]
        split_ifs
        · exact ⟨s, rfl, rfl⟩
        · exact logDerived_ext (s.reach (.op x)) sur current _

/-- A harmless sample of IBS goes unnoticed. -/
theorem Beside.ibs (stats : DaemonStat → Nat) (samples : Nat) (ext : IbsExt) {rip : UInt64} {rest : Buffer}
    (h : Beside o.toOptions f r) (hf : Sound o sur f) (hharmless : Harmless o sur f rip) (hrest : rest ≠ []) :
    ∃ f', (f.beginAs rip f.trans.event f.trans.inKernel stats samples).opdPutIbsSample o sur ext rest = some (f', rest) ∧
      Beside o.toOptions f' r := by
  have htracing : ¬f.trans.tracing = .on := by
    rw [hharmless.tracing]
    decide
  have hbegin : (f.beginAs rip f.trans.event f.trans.inKernel stats samples).beginIbsSample =
      f.beginAs rip 0 f.trans.inKernel stats samples := by
    have hstays : (f.beginAs rip f.trans.event f.trans.inKernel stats samples).mapToKernel =
        f.beginAs rip f.trans.event f.trans.inKernel stats samples := if_neg hharmless.privilege
    rw [beginIbsSample, hstays]
    show { f.beginAs rip f.trans.event f.trans.inKernel stats samples with
      trans := { (f.beginAs rip f.trans.event f.trans.inKernel stats samples).trans with
        event := if f.trans.tracing = TracingType.on then f.trans.event else 0 } } = _
    rw [if_neg htracing]
    rfl
  have hsound : Sound o sur (f.beginAs rip 0 f.trans.inKernel stats samples) :=
    hf.mono (.refl _) rfl rfl rfl rfl rfl rfl hf.current hf.last hf.mode
  obtain ⟨f₁, hcontext⟩ := hsound.findContext_isSome
  obtain ⟨⟨current, sfiles, tbl, hframe⟩, hmapping, hignored⟩ := hharmless.findContext hf hcontext
  obtain ⟨f₂, hlog, hlogged⟩ := logIbsSample_ext (o := o) f₁ sur ext
  refine ⟨f₂.finishSample, ?_, ?_⟩
  · rw [DaemonState.opdPutIbsSample, if_neg hrest, hbegin, hcontext]
    show (f₁.logIbsSample o sur ext >>= fun s => some (s.finishSample, rest)) = _
    rw [hlog]
    rfl
  · have hsteps := logIbsSample_steps hlog
    obtain ⟨-, hmaps, hmodules⟩ := LogSteps.reads hsteps
    obtain ⟨htrans, hmemory, hanons, himages, hnext, -, -⟩ := LogSteps.stays hsteps
    have hoff : f₂.trans.tracing = .off := by
      rw [htrans, hframe]
      exact hharmless.tracing
    have hfinish : f₂.finishSample = { f₂ with
        trans := { f₂.trans with last := f₂.trans.current, lastAnon := f₂.trans.anon, lastPc := f₂.trans.pc } } := by
      rw [DaemonState.finishSample, if_neg (by rw [hoff]; decide)]
    have hcurrent : f₂.currentSfile = f₁.currentSfile := by
      rw [currentSfile, htrans, hmemory]
      rfl
    have hlast : f₂.finishSample.lastSfile = f₁.currentSfile := by
      rw [hfinish, ← hcurrent]
      rfl
    have hsame : f₂.finishSample.ignoredLast = f.ignoredLast := by
      rw [ignoredLast, hlast, hignored, hharmless.ignored]
    refine ⟨?_, ?_, ?_, ?_, ?_, ?_, ?_, ?_, ?_, h.ignored.trans hsame.symm, ?_, ?_, ?_⟩
    · rw [hfinish, htrans, hframe]
      exact ⟨h.records.tracing, h.records.cookie, h.records.appCookie, h.records.inKernel, h.records.cpu, h.records.tid,
        h.records.tgid⟩
    · rw [hfinish, himages, hframe]
      exact h.images
    · rw [hfinish, hnext, hframe]
      exact h.nextImage
    · rw [hfinish, hmodules, hframe]
      exact h.modulesRead
    · rw [hfinish, hmemory, hframe]
      exact h.memory
    · rw [hfinish, hanons, hframe]
      exact h.anons
    · rw [hfinish, hmaps, hframe]
      exact h.mapsRead
    · rw [hfinish, htrans, hframe]
      intro huser
      have huser : f.trans.inKernel = 0 := huser
      show r.trans.anon = if f.trans.inKernel = 0 then f.trans.anon else none
      rw [if_pos huser]
      exact h.anon huser
    · intro huser hcookie
      rw [hfinish, htrans, hframe] at huser hcookie
      show r.currentKey o.toOptions = f₂.finishSample.currentSfile.map (SfileFields.key o.toOptions)
      rw [hfinish]
      show r.currentKey o.toOptions = f₂.currentSfile.map (SfileFields.key o.toOptions)
      rw [hcurrent, hmapping huser hcookie]
      exact h.current huser hcookie
    · intro hsome
      rw [hsame] at hsome
      rw [hfinish, htrans, hframe, h.lastAnon hsome, hharmless.lastAnon hsome]
    · intro hon
      rw [hfinish] at hon
      have hon : f₂.trans.tracing = .on := hon
      rw [hoff] at hon
      cases hon
    · rw [hfinish]
      show r.attributed o.toOptions = f₂.attributed o.toOptions
      rw [hlogged, hframe]
      exact h.logged

/-! ### Runs -/

/-- The samples of IBS behind which something follows are harmless in the states in which they come. -/
def HarmlessRun (o : Setup) (sur : Surroundings) (s : DaemonState) (records : List Record) : Prop :=
  ∀ before record after, records = before ++ record :: after → record.ofIbs = true → after ≠ [] →
    ∀ s', runRecords o sur (record :: after) s before = some s' → Harmless o sur s' record.rip

theorem HarmlessRun.tail {rest : List Record} (h : HarmlessRun o sur s (record :: records))
    (hnext : s.next o sur record (encodeAll o records) = some s') (hrest : rest = records) : HarmlessRun o sur s' rest := by
  subst hrest
  rintro before record' after rfl hibs hafter s'' hrun
  apply h (record :: before) record' after rfl hibs hafter s''
  rw [runRecords, hnext]
  exact hrun

theorem Sound.next {rest : Buffer} (h : Sound o sur s) (hnext : s.next o sur record rest = some s') : Sound o sur s' := by
  obtain ⟨x, hitem, rfl⟩ := Option.map_eq_some_iff.mp hnext
  exact h.step (processItem_step hitem)

/-- What a record of IBS does before the rest of the buffer. -/
theorem Beside.nextIbs (records : List Record) (h : Beside o.toOptions f r) (hf : Sound o sur f) (hibs : record.ofIbs = true)
    (hcomplete : record.Complete o) (hharmless : records ≠ [] → Harmless o sur f record.rip) :
    ∃ f', f.next o sur record (encodeAll o records) = some f' ∧ Beside o.toOptions f' r := by
  obtain ⟨stats, samples, ext, hitem⟩ := processItem_ibs f sur hibs hcomplete
    ((encodeAll_short o records).imp And.left id)
  rw [DaemonState.next, hitem]
  by_cases hlast : records = []
  · subst hlast
    refine ⟨_, rfl, { h with records := ?_ }⟩
    exact ⟨h.records.tracing, h.records.cookie, h.records.appCookie, h.records.inKernel, h.records.cpu, h.records.tid,
      h.records.tgid⟩
  · have hmore : encodeAll o records ≠ [] := by
      rcases encodeAll_short o records with ⟨-, hnil⟩ | hlong
      · exact (hlast hnil).elim
      · intro hnil
        rw [hnil] at hlong
        cases hlong
    obtain ⟨f', hput, hbeside⟩ := h.ibs stats samples ext hf (hharmless hlast) hmore
    exact ⟨f', by rw [hput]; rfl, hbeside⟩

theorem Beside.runRecords (h : Beside o.toOptions f r) (hf : Sound o sur f) (hr : Sound o sur r)
    (hcomplete : ∀ record ∈ records, record.Complete o) (hharmless : HarmlessRun o sur f records) :
    (runRecords o sur [] f records).map (attributed o.toOptions) =
      (DaemonState.runRecords o sur [] r (records.filter fun record => !record.ofIbs)).map (attributed o.toOptions) := by
  induction records generalizing f r with
  | nil => exact congrArg some h.logged.symm
  | cons record records ih =>
    have hfirst := hcomplete record List.mem_cons_self
    have hrest : ∀ record ∈ records, record.Complete o := fun r hr => hcomplete r (List.mem_cons_of_mem _ hr)
    cases hibs : record.ofIbs with
    | false =>
      rw [List.filter_cons_of_pos (by simp [hibs]), DaemonState.runRecords, DaemonState.runRecords,
        next_ordinary hibs hfirst, next_ordinary hibs hfirst]
      rcases h.perform hf hr hibs hfirst with ⟨hnone, hnone'⟩ | ⟨f', r', hperform, hperform', hbeside⟩
      · rw [hnone, hnone']
        rfl
      · rw [hperform, hperform', Option.bind_some, Option.bind_some]
        have hnext : f.next o sur record (encodeAll o records) = some f' := (next_ordinary hibs hfirst _).trans hperform
        have hnext' : r.next o sur record [] = some r' := (next_ordinary hibs hfirst _).trans hperform'
        exact ih hbeside (hf.next hnext) (hr.next hnext') hrest (hharmless.tail hnext rfl)
    | true =>
      obtain ⟨f', hnext, hbeside⟩ := h.nextIbs records hf hibs hfirst fun hmore =>
        hharmless [] record records rfl hibs hmore f rfl
      rw [List.filter_cons_of_neg (by simp [hibs]), DaemonState.runRecords, List.append_nil, hnext, Option.bind_some]
      exact ih hbeside (hf.next hnext) hr hrest (hharmless.tail hnext rfl)

/-! ### The privilege -/

theorem findContext_inKernel (hcontext : s.findContext o.toOptions sur = some s') :
    s'.trans.inKernel = s.trans.inKernel := by
  have hkept := (findAnon_kept s sur).2.2.1
  rcases findCurrent_cases hcontext with ⟨-, rfl⟩ | ⟨-, found, -, rfl⟩
  · exact hkept
  · exact hkept

theorem finishSample_inKernel (s : DaemonState) : s.finishSample.trans.inKernel = s.trans.inKernel := by
  rw [finishSample]
  dsimp only
  split_ifs
  · rfl
  · rfl

/-- Ordinary records set `trans->in_kernel` to what they say, and leave it alone otherwise. -/
theorem perform_inKernel (hordinary : record.ofIbs = false) (hcomplete : record.Complete o)
    (hperform : s.perform o sur record = some s') : s'.trans.inKernel = record.privilege.getD s.trans.inKernel := by
  cases record with
  | sample pc event =>
    rw [perform_sample hcomplete] at hperform
    obtain ⟨s₁, hcontext, hbehind⟩ := Option.bind_eq_some_iff.mp hperform
    obtain ⟨s₂, hlog, rfl⟩ := Option.map_eq_some_iff.mp hbehind
    rw [finishSample_inKernel, (LogSteps.stays (logSample_steps hlog)).trans_eq]
    have hkept := findContext_inKernel hcontext
    exact hkept
  | ibsFetch => cases hordinary
  | ibsOp => cases hordinary
  | moduleLoaded =>
    rw [perform, Record.encode, processItem_escape] at hperform
    cases hperform
    have hkept := congrArg Transient.inKernel (opdRereadModuleInfo_kept s sur).2.2
    exact hkept
  | _ =>
    rw [perform, Record.encode, processItem_escape] at hperform
    cases hperform
    rfl

theorem runRecords_inKernel {after : List Record} (hs : Sound o sur s) (hcomplete : ∀ record ∈ records, record.Complete o)
    (hharmless : HarmlessRun o sur s (records ++ after))
    (hrun : runRecords o sur after s records = some s') (passed : List Record)
    (hmode : s.trans.inKernel = lastPrivilege passed) : s'.trans.inKernel = lastPrivilege (passed ++ records) := by
  induction records generalizing s passed with
  | nil =>
    cases hrun
    rw [List.append_nil]
    exact hmode
  | cons record records ih =>
    have hfirst := hcomplete record List.mem_cons_self
    obtain ⟨s₁, hnext, hbehind⟩ := Option.bind_eq_some_iff.mp hrun
    have hmode₁ : s₁.trans.inKernel = lastPrivilege (passed ++ [record]) := by
      rw [lastPrivilege_snoc, ← hmode]
      cases hibs : record.ofIbs with
      | false =>
        rw [next_ordinary hibs hfirst] at hnext
        exact perform_inKernel hibs hfirst hnext
      | true =>
        obtain ⟨f', hnext', hbeside⟩ := (Beside.refl s).nextIbs (records ++ after) hs hibs hfirst fun hmore =>
          hharmless [] record (records ++ after) rfl hibs hmore s rfl
        rw [hnext] at hnext'
        cases hnext'
        have hnone : record.privilege = none := by
          cases record with
          | ibsFetch => rfl
          | ibsOp => rfl
          | _ => cases hibs
        rw [hnone]
        exact hbeside.records.inKernel.symm
    have hrest := ih (hs.next hnext) (fun r hr => hcomplete r (List.mem_cons_of_mem _ hr)) (hharmless.tail hnext rfl)
      hbehind (passed ++ [record]) hmode₁
    rw [hrest, List.append_assoc]
    rfl

/-! ### A whole buffer with and without its IBS records -/

/-- The states between buffers, from the start of the daemon with `vmlinux`, Xen and the modules that it reads. -/
inductive Begun (o : Setup) (sur : Surroundings) : DaemonState → Prop
  | init (images : KernelImages) (hmodules : images.modules = []) :
    Begun o sur ((DaemonState.init images).opdRereadModuleInfo sur)
  | buffer {s s' : DaemonState} {buffer : Buffer} (hs : Begun o sur s)
      (hbuffer : s.opdProcessSamples o sur buffer = some s') : Begun o sur s'

theorem sound_init {images : KernelImages} (hmodules : images.modules = []) : Sound o sur (DaemonState.init images) where
  stored := stored_init images
  offset := rfl
  images := by
    intro k hk
    rcases List.mem_cons.mp hk with rfl | hk
    · exact ⟨rfl, Nat.zero_lt_two⟩
    rcases List.mem_cons.mp hk with rfl | hk
    · exact ⟨rfl, Nat.one_lt_two⟩
    · have hk : k ∈ images.modules := hk
      rw [hmodules] at hk
      cases hk
  filed := fun addr haddr => (Nat.not_lt_zero addr haddr).elim
  notes := fun note hnote => (by cases hnote)
  current := fun c hc => (by cases hc)
  last := fun l hl => (by cases hl)
  anon := fun huser => (by cases huser)
  image := fun huser => (by cases huser)

theorem Sound.startBuffer (h : Sound o sur s) : Sound o sur s.startBuffer :=
  h.mono (.refl _) rfl rfl rfl rfl rfl h.offset.symm (fun c hc => (by cases hc)) (fun l hl => (by cases hl))
    fun huser => (by cases huser)

theorem Sound.processLoop {rounds : Nat} (h : Sound o sur s) (hloop : processLoop o sur rounds s buffer = some s') :
    Sound o sur s' :=
  processLoop_keeps (fun hstep h => h.step hstep) h hloop

theorem Begun.sound (h : Begun o sur s) : Sound o sur s := by
  induction h with
  | init images hmodules => exact (sound_init hmodules).opdRereadModuleInfo
  | buffer _ hbuffer ih => exact ih.startBuffer.processLoop hbuffer

/-- Ordinary samples are attributed as without the records of IBS, and they come with the privilege that the last record
has set. -/
def Unnoticed (o : Setup) (sur : Surroundings) (s : DaemonState) (records : List Record) : Prop :=
  (s.opdProcessSamples o sur (encodeAll o records)).map (attributed o.toOptions) =
      (s.opdProcessSamples o sur (encodeAll o (records.filter fun record => !record.ofIbs))).map
        (attributed o.toOptions) ∧
    ∀ before pc event after s', records = before ++ .sample pc event :: after →
      runRecords o sur (.sample pc event :: after) s.startBuffer before = some s' →
        s'.trans.inKernel = lastPrivilege before

/-- The records of IBS go unnoticed in a buffer where they are harmless. -/
theorem ibs_unnoticed (o : Setup) (sur : Surroundings) (s : DaemonState) (records : List Record) (hs : Begun o sur s)
    (hcomplete : ∀ record ∈ records, record.Complete o) (hharmless : HarmlessRun o sur s.startBuffer records) :
    Unnoticed o sur s records := by
  have hsound := hs.sound.startBuffer
  constructor
  · have hordinary : ∀ record ∈ records.filter fun record => !record.ofIbs, record.Complete o :=
      fun record hrecord => hcomplete record (List.mem_of_mem_filter hrecord)
    rw [opdProcessSamples_records hcomplete, opdProcessSamples_records hordinary]
    exact (Beside.refl _).runRecords hsound hsound hcomplete hharmless
  · rintro before pc event after s' rfl hrun
    exact runRecords_inKernel hsound (fun record hrecord => hcomplete record (List.mem_append_left _ hrecord)) hharmless
      hrun [] rfl

/-- A buffer with one record of IBS. -/
theorem harmlessRun_one {before after : List Record} (hbefore : ∀ r ∈ before, r.ofIbs = false)
    (hafter : ∀ r ∈ after, r.ofIbs = false)
    (hharmless : ∀ s', runRecords o sur (record :: after) s before = some s' → Harmless o sur s' record.rip) :
    HarmlessRun o sur s (before ++ record :: after) := by
  intro before' record' after' hsplit hibs _ s' hrun
  rcases List.append_eq_append_iff.mp hsplit with ⟨middle, rfl, hrest⟩ | ⟨middle, rfl, hrest⟩
  · cases middle with
    | nil =>
      cases hrest
      rw [List.append_nil] at hrun
      exact hharmless s' hrun
    | cons first middle =>
      obtain ⟨-, rfl⟩ := List.cons_eq_cons.mp hrest
      rw [hafter record' (by simp)] at hibs
      cases hibs
  · cases middle with
    | nil =>
      cases hrest
      rw [List.append_nil] at hharmless
      exact hharmless s' hrun
    | cons first middle =>
      obtain ⟨rfl, -⟩ := List.cons_eq_cons.mp hrest
      rw [hbefore record' (by simp)] at hibs
      cases hibs

/-- A process in user mode with a cookie. -/
def cookieProcess : List Record := [.ctxSwitch 100 5 0 0 100, .userEnter, .cookieSwitch 7]

/-- The daemon at its start. -/
def atStart : DaemonState := (DaemonState.init smallImages).opdRereadModuleInfo plainSurroundings

/-- A sample of IBS between two samples of one image. -/
theorem ibs_unnoticed_one_image : Unnoticed plainSetup plainSurroundings atStart
    (cookieProcess ++ [.sample 0x4000 0, .ibsFetch [0x4100, 0, 0, 0, 0, 0, 0], .sample 0x4200 0]) := by
  apply ibs_unnoticed _ _ _ _ (.init smallImages rfl)
  · intro record hrecord
    simp only [cookieProcess, List.cons_append, List.nil_append, List.mem_cons, List.not_mem_nil, or_false] at hrecord
    rcases hrecord with rfl | rfl | rfl | rfl | rfl | rfl
    all_goals trivial
  · have hcheck : (runRecords plainSetup plainSurroundings
        [.ibsFetch [0x4100, 0, 0, 0, 0, 0, 0], .sample 0x4200 0] atStart.startBuffer
          (cookieProcess ++ [.sample 0x4000 0])).all (fun s => s.trans.tracing = .off && s.trans.cookie = 7 &&
            !s.ignoredLast && !sampleIgnored plainSetup.toOptions plainSurroundings s 0x4100) = true := by
      decide
    have hone : HarmlessRun plainSetup plainSurroundings atStart.startBuffer
        ((cookieProcess ++ [.sample 0x4000 0]) ++ .ibsFetch [0x4100, 0, 0, 0, 0, 0, 0] :: [.sample 0x4200 0]) := by
      refine harmlessRun_one (by decide) (by decide) fun s hrun => ?_
      rw [hrun, Option.all_some] at hcheck
      simp only [Bool.and_eq_true, decide_eq_true_eq, Bool.not_eq_true'] at hcheck
      obtain ⟨⟨⟨htracing, hcookie⟩, hlast⟩, hsample⟩ := hcheck
      refine ⟨htracing, fun h => ?_, fun _ h => ?_, hsample.trans hlast.symm, fun h => ?_⟩
      · exact absurd (hcookie.symm.trans h.1) (by decide)
      · exact absurd (hcookie.symm.trans h) (by decide)
      · rw [hlast] at h
        cases h
    exact hone

/-- A sample of IBS at an address of the kernel, in a process without cookie, and one in user mode. -/
def kernelFetch : List Record :=
  [.ctxSwitch 100 5 0 0 100, .userEnter, .ibsFetch [0x1800, 0, 0, 0, 0, 0, 0], .sample 0x4000 0]

/-- The sample in user mode behind that of IBS is lost. -/
theorem ibs_noticed : Begun plainSetup plainSurroundings atStart ∧
    (∀ record ∈ kernelFetch, record.Complete plainSetup) ∧
    ¬Unnoticed plainSetup plainSurroundings atStart kernelFetch := by
  refine ⟨.init smallImages rfl, fun record hrecord => ?_, fun h => ?_⟩
  · simp only [kernelFetch, List.mem_cons, List.not_mem_nil, or_false] at hrecord
    rcases hrecord with rfl | rfl | rfl | rfl
    all_goals trivial
  · have hsame := h.1
    revert hsame
    decide

end DaemonState
end Oprofile.Daemon
