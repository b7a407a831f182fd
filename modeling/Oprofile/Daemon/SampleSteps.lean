import Oprofile.Daemon.Trans

/-! What an item of the buffer can do to the state of the daemon. -/
namespace Oprofile.Daemon
namespace DaemonState

variable {s s' s₁ s₂ : DaemonState} {o : Setup} {sur : Surroundings} {a c : Nat} {buffer buffer' : Buffer}

/-! ### The anonymous mapping -/

/-- One thing that the search for an anonymous mapping does once no mapping is cached. -/
inductive AnonStep : DaemonState → DaemonState → Prop
  | free (s : DaemonState) (a : Nat) : AnonStep s (s.freeAnon a)
  | alloc (s : DaemonState) (m : AnonMapping) : AnonStep s (s.allocAnon m)
  | read (s : DaemonState) : AnonStep s { s with mapsRead := s.mapsRead + 1 }

abbrev AnonSteps : DaemonState → DaemonState → Prop := Relation.ReflTransGen AnonStep

/-- What stays of the transient when mappings are freed. -/
def SameButLast (t t' : Transient) : Prop := t' = { t with last := t'.last, lastAnon := t'.lastAnon }

theorem freeAnon_trans (s : DaemonState) (a : Nat) : SameButLast s.trans (s.freeAnon a).trans := by
  rw [freeAnon]
  split_ifs
  · rfl
  · rfl

theorem SameButLast.trans {t t' t'' : Transient} (h : SameButLast t t') (h' : SameButLast t' t'') :
    SameButLast t t'' := by
  rw [SameButLast] at h h' ⊢
  rw [h', h]

theorem AnonStep.trans_eq (h : AnonStep s s') : SameButLast s.trans s'.trans := by
  cases h with
  | free a => exact freeAnon_trans s a
  | alloc m => rfl
  | read => rfl

theorem AnonSteps.trans_eq (h : AnonSteps s s') : SameButLast s.trans s'.trans := by
  induction h with
  | refl => rfl
  | tail _ hstep ih => exact ih.trans hstep.trans_eq

theorem SameButLast.anon {t t' : Transient} (h : SameButLast t t') : t'.anon = t.anon := by rw [h]

theorem SameButLast.current {t t' : Transient} (h : SameButLast t t') : t'.current = t.current := by rw [h]

theorem anonSteps_foldl {α : Type} {f : DaemonState → α → DaemonState}
    (hf : ∀ s x, s.trans.anon = none → AnonSteps s (f s x)) (xs : List α) (h : s.trans.anon = none) :
    AnonSteps s (xs.foldl f s) := by
  induction xs generalizing s with
  | nil => exact .refl
  | cons x xs ih =>
    have hfirst := hf s x h
    exact hfirst.trans (ih (hfirst.trans_eq.anon.trans h))

theorem doLru_steps (h : s.trans.anon = none) : AnonSteps s s.doLru := by
  apply anonSteps_foldl _ _ h
  intro s a hnone
  rw [if_neg (by simp [hnone])]
  exact .single (.free s a)

theorem addAnonMapping_steps (h : s.trans.anon = none) (start stop : UInt64) (name : SampleNames.Text) :
    AnonSteps s (s.addAnonMapping start stop name) := by
  unfold addAnonMapping
  dsimp only
  have halloc := AnonStep.alloc s ⟨start, stop, s.trans.tgid, s.trans.appCookie, name⟩
  split_ifs
  · exact .head halloc (doLru_steps h)
  · exact .single halloc

theorem getAnonMaps_steps (h : s.trans.anon = none) (sur : Surroundings) : AnonSteps s (s.getAnonMaps sur) := by
  refine .head (.read s) (anonSteps_foldl ?_ _ h)
  intro s line hnone
  unfold getAnonLine
  dsimp only
  split_ifs
  · exact .refl
  · exact addAnonMapping_steps hnone ..

theorem clearAnonMaps_steps (s : DaemonState) : AnonSteps s.clearTransCurrent s.clearAnonMaps :=
  anonSteps_foldl (fun s a _ => .single (.free s a)) _ rfl

/-- The cached mapping is the one, or it is known, or the maps are read again. -/
theorem findAnonMapping_cases (s : DaemonState) (sur : Surroundings) :
    (∃ a, s.trans.anon = some a ∧ s.anonMatch a = true ∧ s.findAnonMapping sur = (some a, s)) ∨
      (¬s.trans.anon.any s.anonMatch = true ∧ ∃ a, s.lookUpAnon = some a ∧
        s.findAnonMapping sur = (some a, s.foundAnon a)) ∨
      (¬s.trans.anon.any s.anonMatch = true ∧ s.lookUpAnon = none ∧ ∃ s', AnonSteps s.clearTransCurrent s' ∧
        s' = s.clearTransCurrent.clearAnonMaps.getAnonMaps sur ∧
        ((∃ a, s'.lookUpAnon = some a ∧ s.findAnonMapping sur = (some a, s'.foundAnon a)) ∨
          s'.lookUpAnon = none ∧ s.findAnonMapping sur = (none, s'))) := by
  rw [findAnonMapping]
  by_cases hcached : s.trans.anon.any s.anonMatch = true
  · rw [if_pos hcached]
    left
    obtain ⟨a, ha, hmatch⟩ := (Option.any_eq_true _ _).mp hcached
    exact ⟨a, ha, hmatch, by rw [ha]⟩
  · rw [if_neg hcached]
    right
    cases hfound : s.lookUpAnon with
    | some a => exact .inl ⟨hcached, a, rfl, rfl⟩
    | none =>
      right
      refine ⟨hcached, rfl, s.clearAnonMaps.getAnonMaps sur, ?_, rfl, ?_⟩
      · have hclear := clearAnonMaps_steps s
        exact hclear.trans (getAnonMaps_steps (hclear.trans_eq.anon.trans rfl) sur)
      · dsimp only
        cases hlater : (s.clearAnonMaps.getAnonMaps sur).lookUpAnon with
        | some a => exact .inl ⟨a, rfl, rfl⟩
        | none => exact .inr ⟨rfl, rfl⟩

/-! ### The context of a sample -/

/-- The mapping of a sample is searched for in user mode without a cookie; in the kernel nothing is kept. -/
theorem findAnon_cases (s : DaemonState) (sur : Surroundings) :
    (s.trans.inKernel ≠ 0 ∧ s.dropCached.findAnon sur = s.clearTransCurrent) ∨
      (s.trans.inKernel = 0 ∧ s.trans.cookie ≠ noCookie ∧ s.dropCached.findAnon sur = s) ∨
      (s.trans.inKernel = 0 ∧ s.trans.cookie = noCookie ∧
        s.dropCached.findAnon sur = setAnon (s.findAnonMapping sur)) := by
  by_cases hkernel : s.trans.inKernel = 0
  · have hkeep : s.dropCached = s := if_neg (not_not.mpr hkernel)
    rw [hkeep]
    right
    by_cases hcookie : s.trans.cookie = noCookie
    · exact .inr ⟨hkernel, hcookie, if_pos ⟨hkernel, hcookie⟩⟩
    · exact .inl ⟨hkernel, hcookie, if_neg fun h => hcookie h.2⟩
  · have hdrop : s.dropCached = s.clearTransCurrent := if_pos hkernel
    rw [hdrop]
    exact .inl ⟨hkernel, if_neg fun h => hkernel h.1⟩

theorem findCurrent_cases (h : s.findCurrent o.toOptions sur = some s') :
    (s.trans.current.isSome = true ∧ s' = s) ∨ (s.trans.current = none ∧ ∃ found,
      sfileFind o.toOptions s.anons.anons s.trans s.images (sur.cmdline s.trans.tgid) s.table = some found ∧
        s' = s.setFound found) := by
  rw [findCurrent] at h
  split_ifs at h with hcurrent
  · exact .inl ⟨hcurrent, (Option.some_inj.mp h).symm⟩
  · obtain ⟨found, hfound, heq⟩ := Option.map_eq_some_iff.mp h
    exact .inr ⟨Option.not_isSome_iff_eq_none.mp hcurrent, found, hfound, heq.symm⟩

/-! ### Logging -/

/-- One thing that the logging of a sample does. -/
inductive LogStep (o : Options) (sur : Surroundings) : DaemonState → DaemonState → Prop
  | bump (s : DaemonState) (stat : DaemonStat) : LogStep o sur s (s.bump stat)
  | reach (s : DaemonState) (sample : IbsSample) : LogStep o sur s (s.reach sample)
  | event (s : DaemonState) (event : UInt64) :
      LogStep o sur s { s with trans := { s.trans with event := event } }
  | sample (s : DaemonState) (entry : LogEntry) : LogStep o sur s ((s.evict sur).log entry)
  | arc (s : DaemonState) (entry : LogEntry) {current last : Nat} (hcurrent : s.trans.current = some current)
      (hlast : s.trans.last = some last) :
      LogStep o sur s (((s.evict sur).addCgAt o current (s.memory.sfiles last)).log entry)

abbrev LogSteps (o : Options) (sur : Surroundings) : DaemonState → DaemonState → Prop :=
  Relation.ReflTransGen (LogStep o sur)

theorem sfileLogSampleCount_steps {opts : Options} {ext : Bool} {current count : Nat}
    (hcurrent : s.trans.current = some current)
    (h : s.sfileLogSampleCount opts sur ext current count = some s') : LogSteps opts sur s s' := by
  rw [sfileLogSampleCount] at h
  by_cases htrace : s.trans.tracing = TracingType.on
  · rw [if_pos htrace] at h
    cases hlast : s.trans.last with
    | none =>
      rw [hlast] at h
      cases h
      exact .refl
    | some last =>
      rw [hlast] at h
      dsimp only at h
      split_ifs at h
      cases h
      exact .single (.arc s _ hcurrent hlast)
  · rw [if_neg htrace] at h
    split_ifs at h
    cases h
    exact .single (.sample s _)

theorem LogStep.current (h : LogStep o.toOptions sur s s') : s'.trans.current = s.trans.current := by
  cases h <;> rfl

theorem LogSteps.current (h : LogSteps o.toOptions sur s s') : s'.trans.current = s.trans.current := by
  induction h with
  | refl => rfl
  | tail _ hstep ih => exact hstep.current.trans ih

theorem logSample_steps (h : s.logSample o sur = some s') : LogSteps o.toOptions sur s s' := by
  rw [logSample] at h
  cases hcurrent : s.trans.current with
  | none =>
    rw [hcurrent] at h
    cases h
    exact .refl
  | some current =>
    rw [hcurrent] at h
    have hcount : LogSteps o.toOptions sur s s.countSample := by
      rw [countSample]
      split_ifs
      · exact .refl
      all_goals exact .tail (.single (.bump s _)) (.bump _ _)
    dsimp only at h
    split_ifs at h
    · cases h
      exact hcount
    · exact hcount.trans (sfileLogSampleCount_steps ((LogSteps.current hcount).trans hcurrent) h)

theorem logDerived_steps {events : Logged} (hcurrent : s.trans.current = some c)
    (h : s.logDerived o sur c events = some s') : LogSteps o.toOptions sur s s' := by
  induction events generalizing s with
  | nil =>
    cases h
    exact .refl
  | cons x events ih =>
    rw [logDerived, List.foldlM_cons] at h
    obtain ⟨s₁, hfirst, hrest⟩ := Option.bind_eq_some_iff.mp h
    have hset : LogSteps o.toOptions sur s
        { s.bump .ibsDerivedEvent with trans := { s.trans with event := x.1.select.toUInt64 } } :=
      .tail (.single (.bump s _)) (.event _ _)
    have hone := hset.trans (sfileLogSampleCount_steps hcurrent hfirst)
    exact hone.trans (ih ((LogSteps.current hone).trans hcurrent) hrest)

theorem logIbsSample_steps {ext : IbsExt} (h : s.logIbsSample o sur ext = some s') : LogSteps o.toOptions sur s s' := by
  rw [logIbsSample] at h
  cases hcurrent : s.trans.current with
  | none =>
    rw [hcurrent] at h
    cases h
    exact .refl
  | some current =>
    rw [hcurrent] at h
    dsimp only at h
    split_ifs at h with hfetch
    · cases hx : ext.fetch with
      | none =>
        rw [hx] at h
        cases h
        exact .refl
      | some x =>
        rw [hx] at h
        exact .head (.reach s _) (logDerived_steps hcurrent h)
    · cases hx : ext.op with
      | none =>
        rw [hx] at h
        cases h
        exact .refl
      | some x =>
        rw [hx, logIbsOp] at h
        split_ifs at h
        · cases h
          exact .refl
        · exact .head (.reach s _) (logDerived_steps hcurrent h)

/-! ### Items -/

/-- An item that is a sample, and the state in which its context is looked for. -/
inductive LooksUp (o : Setup) (s : DaemonState) : Buffer → DaemonState → Prop
  | sample {pc event : UInt64} {rest : Buffer} (hcode : isEscapeCode o pc = false) :
      LooksUp o s (pc :: event :: rest) (s.beginSample pc event)
  | fetch {esc : UInt64} {rest : Buffer} (hesc : isEscapeCode o esc = true) (hlength : 7 < rest.length) :
      LooksUp o s (esc :: ibsFetchCode :: rest)
        ((s.bump .ibsFetchSample).allocIbsSample (fetchSampleOf rest).rip).beginIbsSample
  | op {esc : UInt64} {rest : Buffer} (hesc : isEscapeCode o esc = true) (hlength : 13 ≤ rest.length)
      (hmore : ((s.bump .ibsOpSample).getIbsOpBtaSample o (rest.getD 4 0).toUInt32 (rest.drop 13)).2.2 ≠ []) :
      LooksUp o s (esc :: ibsOpCode :: rest)
        (((s.bump .ibsOpSample).getIbsOpBtaSample o (rest.getD 4 0).toUInt32 (rest.drop 13)).2.1.allocIbsSample
          (rest.getD 0 0)).beginIbsSample

/-- A sample at an address, and nothing else that is looked up. -/
def beginAs (s : DaemonState) (pc event : UInt64) (inKernel : Int) (stats : DaemonStat → Nat) (samples : Nat) :
    DaemonState :=
  { s with
    trans := { s.trans with pc := pc, event := event, inKernel := inKernel }
    stats := stats
    ibsSamples := samples }

theorem beginIbsSample_as (s : DaemonState) (pc event : UInt64) (inKernel : Int) (stats : DaemonStat → Nat)
    (samples : Nat) :
    ∃ event' inKernel', (inKernel' = inKernel ∨ inKernel' = 1) ∧
      (s.beginAs pc event inKernel stats samples).beginIbsSample = s.beginAs pc event' inKernel' stats samples := by
  unfold beginIbsSample mapToKernel
  split
  · exact ⟨_, 1, .inr rfl, rfl⟩
  · exact ⟨_, inKernel, .inl rfl, rfl⟩

theorem getIbsOpBtaSample_stats (s : DaemonState) (o : Setup) (high : UInt32) (buffer : Buffer) :
    ∃ stats, (s.getIbsOpBtaSample o high buffer).2.1 = { s with stats := stats } := by
  unfold getIbsOpBtaSample
  split
  · exact ⟨_, rfl⟩
  split
  · exact ⟨s.stats, rfl⟩
  · exact ⟨s.stats, rfl⟩

/-- A sample of IBS without a cookie may put the transient into the kernel. -/
theorem LooksUp.begins {s₀ : DaemonState} (h : LooksUp o s buffer s₀) :
    ∃ pc event inKernel stats samples, (inKernel = s.trans.inKernel ∨ inKernel = 1) ∧
      s₀ = s.beginAs pc event inKernel stats samples := by
  cases h with
  | @sample pc _ _ _ => exact ⟨pc, _, s.trans.inKernel, s.stats, s.ibsSamples, .inl rfl, rfl⟩
  | fetch =>
    obtain ⟨event, inKernel, hkernel, heq⟩ := beginIbsSample_as s _ s.trans.event s.trans.inKernel _ _
    exact ⟨_, event, inKernel, _, _, hkernel, heq⟩
  | @op _ rest =>
    obtain ⟨stats, hstats⟩ := getIbsOpBtaSample_stats (s.bump .ibsOpSample) o (rest.getD 4 0).toUInt32 (rest.drop 13)
    rw [hstats]
    obtain ⟨event, inKernel, hkernel, heq⟩ := beginIbsSample_as s _ s.trans.event s.trans.inKernel _ _
    exact ⟨_, event, inKernel, _, _, hkernel, heq⟩

/-- What an item can do. -/
inductive ItemStep (o : Setup) (sur : Surroundings) (s : DaemonState) (buffer : Buffer) : DaemonState → Prop
  | counted (pc : UInt64) (stats : DaemonStat → Nat) (samples : Nat) :
      ItemStep o sur s buffer (s.beginAs pc s.trans.event s.trans.inKernel stats samples)
  | switched (t : Transient) (stats : DaemonStat → Nat) (hcurrent : t.current = none) (hanon : t.anon = none)
      (hlast : t.last = s.trans.last ∧ t.lastAnon = s.trans.lastAnon ∨ t.last = none)
      (hoffset : t.embeddedOffset = s.trans.embeddedOffset) :
      ItemStep o sur s buffer { s with trans := t, stats := stats }
  | modules : ItemStep o sur s buffer (s.codeModuleLoaded sur)
  | trace : ItemStep o sur s buffer s.codeTraceBegin
  | xen : ItemStep o sur s buffer s.codeXenEnter
  | sample {s₀ s₁ s₂ : DaemonState} (hlooks : LooksUp o s buffer s₀)
      (hcontext : s₀.findContext o.toOptions sur = some s₁) (hlog : LogSteps o.toOptions sur s₁ s₂) :
      ItemStep o sur s buffer s₂.finishSample

theorem opdPutSample_step {pc : UInt64} {rest : Buffer} (hcode : isEscapeCode o pc = false)
    (h : s.opdPutSample o sur pc rest = some (s', buffer')) : ItemStep o sur s (pc :: rest) s' := by
  cases rest with
  | nil =>
    cases h
    exact .counted s.trans.pc _ s.ibsSamples
  | cons event rest =>
    obtain ⟨s₁, hcontext, hrest⟩ := Option.bind_eq_some_iff.mp h
    obtain ⟨s₂, hlog, hlast⟩ := Option.bind_eq_some_iff.mp hrest
    cases hlast
    exact .sample (.sample hcode) hcontext (logSample_steps hlog)

theorem opdPutIbsSample_step {ext : IbsExt} {rest : Buffer} (hrest : rest ≠ [])
    (hlooks : LooksUp o s buffer s₁.beginIbsSample) (h : s₁.opdPutIbsSample o sur ext rest = some (s', buffer')) :
    ItemStep o sur s buffer s' := by
  rw [opdPutIbsSample, if_neg hrest] at h
  obtain ⟨s₂, hcontext, hbehind⟩ := Option.bind_eq_some_iff.mp h
  obtain ⟨s₃, hlog, hlast⟩ := Option.bind_eq_some_iff.mp hbehind
  cases hlast
  exact .sample hlooks hcontext (logIbsSample_steps hlog)

theorem opdPutIbsSample_empty {ext : IbsExt} {pc : UInt64} {stats : DaemonStat → Nat} {samples : Nat}
    (h : (s.beginAs pc s.trans.event s.trans.inKernel stats samples).opdPutIbsSample o sur ext [] = some (s', buffer')) :
    ItemStep o sur s buffer s' := by
  cases h
  exact .counted pc _ samples

theorem codeIbsFetchSample_step {esc : UInt64} {rest : Buffer} (hesc : isEscapeCode o esc = true)
    (h : s.codeIbsFetchSample o sur rest = some (s', buffer')) :
    ItemStep o sur s (esc :: ibsFetchCode :: rest) s' := by
  rw [codeIbsFetchSample] at h
  by_cases hshort : rest.length < 7
  · rw [if_pos hshort] at h
    cases h
    exact .counted s.trans.pc _ s.ibsSamples
  · rw [if_neg hshort] at h
    by_cases hmore : 7 < rest.length
    · exact opdPutIbsSample_step (by simpa using hmore) (.fetch hesc hmore) h
    · have hnil : rest.drop 7 = [] := List.drop_eq_nil_of_le (Nat.le_of_not_lt hmore)
      dsimp only at h
      rw [hnil] at h
      exact opdPutIbsSample_empty h

theorem codeIbsOpSample_step {esc : UInt64} {rest : Buffer} (hesc : isEscapeCode o esc = true)
    (h : s.codeIbsOpSample o sur rest = some (s', buffer')) : ItemStep o sur s (esc :: ibsOpCode :: rest) s' := by
  rw [codeIbsOpSample] at h
  by_cases hshort : rest.length < 13
  · rw [if_pos hshort] at h
    cases h
    exact .counted s.trans.pc _ s.ibsSamples
  · rw [if_neg hshort] at h
    dsimp only at h
    by_cases hmore : ((s.bump .ibsOpSample).getIbsOpBtaSample o (rest.getD 4 0).toUInt32 (rest.drop 13)).2.2 = []
    · obtain ⟨stats, hstats⟩ := getIbsOpBtaSample_stats (s.bump .ibsOpSample) o (rest.getD 4 0).toUInt32 (rest.drop 13)
      rw [hstats, hmore] at h
      exact opdPutIbsSample_empty h
    · exact opdPutIbsSample_step hmore (.op hesc (Nat.le_of_not_lt hshort) hmore) h

/-- What handling a code can do. -/
theorem handle_step {esc code : UInt64} {rest : Buffer} (hesc : isEscapeCode o esc = true)
    (h : s.handle o sur code rest = some (s', buffer')) : ItemStep o sur s (esc :: code :: rest) s' := by
  rw [handle] at h
  by_cases hctx : code = ctxSwitchCode
  · rw [if_pos hctx] at h
    rw [codeCtxSwitch.eq_def] at h
    split at h
    all_goals
      cases h
      exact .switched _ _ rfl rfl (.inl ⟨rfl, rfl⟩) rfl
  rw [if_neg hctx] at h
  by_cases hcpu : code = cpuSwitchCode
  · rw [if_pos hcpu] at h
    rw [codeCpuSwitch.eq_def] at h
    split at h
    all_goals
      cases h
      exact .switched _ _ rfl rfl (.inl ⟨rfl, rfl⟩) rfl
  rw [if_neg hcpu] at h
  by_cases hcookie : code = cookieSwitchCode
  · rw [if_pos hcookie] at h
    rw [codeCookieSwitch.eq_def] at h
    split at h
    all_goals
      cases h
      exact .switched _ _ rfl rfl (.inl ⟨rfl, rfl⟩) rfl
  rw [if_neg hcookie] at h
  by_cases hkernel : code = kernelEnterSwitchCode
  · rw [if_pos hkernel] at h
    cases h
    exact .switched _ _ rfl rfl (.inl ⟨rfl, rfl⟩) rfl
  rw [if_neg hkernel] at h
  by_cases huser : code = userEnterSwitchCode
  · rw [if_pos huser] at h
    cases h
    exact .switched _ _ rfl rfl (.inr rfl) rfl
  rw [if_neg huser] at h
  by_cases hmodule : code = moduleLoadedCode
  · rw [if_pos hmodule] at h
    cases h
    exact .modules
  rw [if_neg hmodule] at h
  by_cases htrace : code = traceBeginCode
  · rw [if_pos htrace] at h
    cases h
    exact .trace
  rw [if_neg htrace] at h
  by_cases hxen : code = xenEnterSwitchCode
  · rw [if_pos hxen] at h
    cases h
    exact .xen
  rw [if_neg hxen] at h
  by_cases hfetch : code = ibsFetchCode
  · rw [if_pos hfetch] at h
    subst hfetch
    exact codeIbsFetchSample_step hesc h
  rw [if_neg hfetch] at h
  by_cases hop : code = ibsOpCode
  · rw [if_pos hop] at h
    subst hop
    exact codeIbsOpSample_step hesc h
  rw [if_neg hop] at h
  cases h

/-- What an item does. -/
theorem processItem_step (h : s.processItem o sur buffer = some (s', buffer')) : ItemStep o sur s buffer s' := by
  cases buffer with
  | nil => cases h
  | cons code rest =>
    rw [processItem.eq_def] at h
    dsimp only at h
    by_cases hesc : isEscapeCode o code = true
    · rw [if_pos hesc] at h
      cases rest with
      | nil =>
        cases h
        exact .counted s.trans.pc _ s.ibsSamples
      | cons code' rest => exact handle_step hesc h
    · rw [if_neg hesc] at h
      exact opdPutSample_step (Bool.eq_false_iff.mpr hesc) h

/-- What every item keeps holds at the end of the buffer. -/
theorem processLoop_keeps {P : DaemonState → Prop} {rounds : Nat}
    (hkeeps : ∀ {s s' buffer}, ItemStep o sur s buffer s' → P s → P s') (h : P s)
    (hloop : processLoop o sur rounds s buffer = some s') : P s' := by
  induction rounds generalizing s buffer with
  | zero =>
    cases buffer with
    | nil =>
      cases hloop
      exact h
    | cons => cases hloop
  | succ rounds ih =>
    cases buffer with
    | nil =>
      cases hloop
      exact h
    | cons code rest =>
      obtain ⟨⟨s₁, buffer₁⟩, hitem, hrest⟩ := Option.bind_eq_some_iff.mp hloop
      exact ih (hkeeps (processItem_step hitem) h) hrest

/-! ### What stays in the table -/

end DaemonState

/-- An sfile without its call graph. -/
def Sfile.core (sf : Sfile) : Nat × SfileFields := (sf.addr, sf.toSfileFields)

def SfileTable.cores (tbl : SfileTable) : List (Nat × SfileFields) := tbl.hashes.map Sfile.core

/-- Some sfiles are gone, and call graphs may differ. -/
structure Thinned (tbl tbl' : SfileTable) : Prop where
  cores : tbl'.cores.Sublist tbl.cores
  next : tbl'.nextSfile = tbl.nextSfile

theorem Thinned.refl (tbl : SfileTable) : Thinned tbl tbl := ⟨.refl _, rfl⟩

theorem Thinned.trans {tbl tbl' tbl'' : SfileTable} (h : Thinned tbl tbl') (h' : Thinned tbl' tbl'') :
    Thinned tbl tbl'' :=
  ⟨h'.cores.trans h.cores, h'.next.trans h.next⟩

theorem SfileTable.cores_forEach (tbl : SfileTable) (dead : SfileFields → Bool) :
    (tbl.forEach dead).cores = (tbl.hashes.filter fun sf => !dead sf.toSfileFields).map Sfile.core := by
  rw [cores, forEach, List.map_map]
  rfl

theorem thinned_forEach (tbl : SfileTable) (dead : SfileFields → Bool) : Thinned tbl (tbl.forEach dead) := by
  refine ⟨?_, rfl⟩
  rw [SfileTable.cores_forEach]
  exact List.filter_sublist.map _

theorem thinned_clear (tbl : SfileTable) (dead : Sfile → Bool) : Thinned tbl (tbl.clear dead) :=
  ⟨List.filter_sublist.map _, rfl⟩

theorem SfileTable.mem_cores {tbl : SfileTable} {x : Nat × SfileFields} :
    x ∈ tbl.cores ↔ ∃ sf ∈ tbl.hashes, sf.addr = x.1 ∧ sf.toSfileFields = x.2 := by
  rw [cores, List.mem_map]
  constructor
  · rintro ⟨sf, hsf, rfl⟩
    exact ⟨sf, hsf, rfl, rfl⟩
  · rintro ⟨sf, hsf, haddr, hfields⟩
    exact ⟨sf, hsf, Prod.ext haddr hfields⟩

namespace DaemonState

variable {s s' s₁ s₂ : DaemonState} {o : Setup} {opts : Options} {sur : Surroundings} {a c : Nat}

theorem freeAnon_table (s : DaemonState) (a : Nat) :
    (s.freeAnon a).table = s.table.forEach fun sf => sf.anon = some a := by
  rw [freeAnon]
  split_ifs
  · rfl
  · rfl

theorem freeAnon_memory (s : DaemonState) (a : Nat) : (s.freeAnon a).memory = s.memory := by
  rw [freeAnon]
  split_ifs
  · rfl
  · rfl

theorem AnonStep.thinned (h : AnonStep s s') : Thinned s.table s'.table := by
  cases h with
  | free a =>
    rw [freeAnon_table]
    exact thinned_forEach _ _
  | alloc m => exact .refl _
  | read => exact .refl _

theorem AnonSteps.thinned (h : AnonSteps s s') : Thinned s.table s'.table := by
  induction h with
  | refl => exact .refl _
  | tail _ hstep ih => exact ih.trans hstep.thinned

theorem AnonStep.sfiles (h : AnonStep s s') : s'.memory.sfiles = s.memory.sfiles := by
  cases h with
  | free a => rw [freeAnon_memory]
  | alloc m => rfl
  | read => rfl

theorem AnonSteps.sfiles (h : AnonSteps s s') : s'.memory.sfiles = s.memory.sfiles := by
  induction h with
  | refl => rfl
  | tail _ hstep ih => exact hstep.sfiles.trans ih

theorem addCg_core (sf : Sfile) (last : SfileFields) : (sf.addCg opts last).core = sf.core := by
  rw [Sfile.addCg]
  split_ifs
  · rfl
  · rfl

theorem addCgAt_cores (opts : Options) (s : DaemonState) (current : Nat) (last : SfileFields) :
    (s.addCgAt opts current last).table.cores = s.table.cores := by
  simp only [addCgAt, SfileTable.cores, List.map_map]
  apply List.map_congr_left
  intro sf _
  simp only [Function.comp_apply]
  split_ifs
  · exact addCg_core sf last
  · rfl

theorem evict_kept {x : Nat × SfileFields} (hx : x ∈ s.table.cores)
    (hheld : s.trans.current = some x.1 ∨ s.trans.last = some x.1) : x ∈ (s.evict sur).table.cores := by
  obtain ⟨sf, hsf, haddr, hfields⟩ := SfileTable.mem_cores.mp hx
  refine SfileTable.mem_cores.mpr ⟨sf, List.mem_filter.mpr ⟨hsf, ?_⟩, haddr, hfields⟩
  rcases hheld with hcurrent | hlast
  · simp [hcurrent, haddr]
  · simp [hlast, haddr]

/-- What stays when a sample is logged: only its event changes in the transient, and the sfiles it is about are not
evicted. -/
structure Stays (s s' : DaemonState) : Prop where
  trans_eq : s'.trans = { s.trans with event := s'.trans.event }
  memory : s'.memory = s.memory
  anons : s'.anons = s.anons
  images : s'.images = s.images
  nextImage : s'.nextImage = s.nextImage
  thinned : Thinned s.table s'.table
  kept : ∀ x ∈ s.table.cores, s.trans.current = some x.1 ∨ s.trans.last = some x.1 → x ∈ s'.table.cores

theorem Stays.refl (s : DaemonState) : Stays s s := ⟨rfl, rfl, rfl, rfl, rfl, .refl _, fun _ hx _ => hx⟩

theorem Stays.trans (h : Stays s s₁) (h' : Stays s₁ s₂) : Stays s s₂ := by
  refine ⟨?_, h'.memory.trans h.memory, h'.anons.trans h.anons, h'.images.trans h.images, h'.nextImage.trans h.nextImage,
    h.thinned.trans h'.thinned, fun x hx hheld => ?_⟩
  · rw [h'.trans_eq, h.trans_eq]
  · apply h'.kept x (h.kept x hx hheld)
    rw [h.trans_eq]
    exact hheld

theorem LogStep.stays (h : LogStep opts sur s s') : Stays s s' := by
  cases h with
  | bump stat => exact ⟨rfl, rfl, rfl, rfl, rfl, .refl _, fun _ hx _ => hx⟩
  | reach sample => exact ⟨rfl, rfl, rfl, rfl, rfl, .refl _, fun _ hx _ => hx⟩
  | event event => exact ⟨rfl, rfl, rfl, rfl, rfl, .refl _, fun _ hx _ => hx⟩
  | sample entry => exact ⟨rfl, rfl, rfl, rfl, rfl, thinned_clear _ _, fun x hx hheld => evict_kept hx hheld⟩
  | @arc entry current last hcurrent hlast =>
    have hcores := addCgAt_cores opts (s.evict sur) current (s.memory.sfiles last)
    have hevict : Thinned s.table (s.evict sur).table := thinned_clear _ _
    refine ⟨rfl, rfl, rfl, rfl, rfl, ⟨?_, hevict.next⟩, fun x hx hheld => ?_⟩
    · exact hcores.symm ▸ hevict.cores
    · exact hcores.symm ▸ evict_kept hx hheld

theorem LogSteps.stays (h : LogSteps opts sur s s') : Stays s s' := by
  induction h with
  | refl => exact .refl s
  | tail _ hstep ih => exact ih.trans hstep.stays

end DaemonState
end Oprofile.Daemon
