import Oprofile.Operf.Steps

/-! The outcomes of one sample, and the states a conversion goes through. -/
namespace Oprofile.Operf

variable {n : Nat} {cfg : Config n} {env : Env} {images : KernelImages} {s s' s'' : OperfState}
  {e : SampleEvent} {inKernel : Bool} {rc : Int}

/-- The state once the sample has been verified: `trans.event` is looked up if the identifier is
not the one of the last sample attributed. -/
def withEvent (cfg : Config n) (s : OperfState) (id : UInt64) : OperfState :=
  if id ≠ s.trans.sampleId then { s with trans := { s.trans with event := eventnum cfg id } } else s

/-- A sample that its event or its domain keeps from being looked up. -/
def Withheld (cfg : Config n) (s : OperfState) (e : SampleEvent) : Prop :=
  (∃ evt, cfg.evts[s.trans.event.toNat]? = some evt ∧ evt.noUser = true ∧
    e.misc = perfRecordMiscUser) ∨
  (e.misc = perfRecordMiscHypervisor ∧ s.firstTimeProcessing = true)

/-- Nothing is logged and the cached process is forgotten. -/
structure Cleared (s s' : OperfState) : Prop where
  transient : s'.trans = s.clearTrans.trans
  sfiles : s'.sfiles = s.sfiles
  logged : s'.logged = s.logged
  firstTime : s'.firstTimeProcessing = s.firstTimeProcessing
  initDone : s'.sfileInitDone = s.sfileInitDone
  procs : Grows s.procs s'.procs

theorem cleared_clearTrans (s : OperfState) : Cleared s s.clearTrans :=
  ⟨rfl, rfl, rfl, rfl, rfl, Grows.refl _⟩

/-- What `__handle_sample_event` does with a sample once its domain is known. -/
inductive DomainStep (cfg : Config n) (env : Env) (s : OperfState) (e : SampleEvent)
    (inKernel : Bool) : Int → OperfState → Prop
  /-- A sample for process zero before any has been attributed. -/
  | skipped {u : OperfState} (hnone : s.trans.imageName = none) (hc : Cleared s u) :
      DomainStep cfg env s e inKernel 0 u
  /-- An identifier of no event. -/
  | refused {u : OperfState} (hneg : (withEvent cfg s e.data.id).trans.event < 0)
      (hc : Cleared (withEvent cfg s e.data.id) u) : DomainStep cfg env s e inKernel (-1) u
  /-- Dropped or deferred. -/
  | withheld {u : OperfState} (hw : Withheld cfg (withEvent cfg s e.data.id) e)
      (hc : Cleared (withEvent cfg s e.data.id) u) : DomainStep cfg env s e inKernel 0 u
  /-- No process or no mapping. -/
  | unattributed {u : OperfState}
      (hno : ∀ p m, ¬ Lookup (withEvent cfg s e.data.id) e.data (e.misc == perfRecordMiscHypervisor)
        inKernel p m)
      (hc : Cleared (withEvent cfg s e.data.id) u) : DomainStep cfg env s e inKernel 0 u
  /-- Served by the cached transient. -/
  | fast {t : OperfTransient} {r : Int} {u : OperfState} (hid : e.data.id = s.trans.sampleId)
      (hfast : fastPath s.trans e.data inKernel = some t)
      (hfin : finishSample cfg env { s with trans := t } e true = some (r, u)) :
      DomainStep cfg env s e inKernel r u
  /-- Looked up. -/
  | lookup {p : ProcessInfo} {m : OperfMmap} {s₁ u : OperfState} {r : Int}
      (hlookup : Lookup (withEvent cfg s e.data.id) e.data (e.misc == perfRecordMiscHypervisor)
        inKernel p m)
      (hfind : findCurrent cfg { withEvent cfg s e.data.id with
        trans := setTrans (withEvent cfg s e.data.id).trans e.data p.appname m inKernel } = some s₁)
      (hfin : finishSample cfg env s₁ e true = some (r, u)) : DomainStep cfg env s e inKernel r u

/-- The verdicts, with the tests they come from. -/
theorem verifySample_cases {v : Verdict} (h : verifySample cfg s e inKernel = some (v, s')) :
    ((s.trans.imageName = none ∧ e.data.pid = 0) ∧ v = .out 0 ∧ s' = s) ∨
    ((withEvent cfg s e.data.id).trans.event < 0 ∧ v = .out (-1) ∧ s' = withEvent cfg s e.data.id) ∨
    ((∃ evt, cfg.evts[(withEvent cfg s e.data.id).trans.event.toNat]? = some evt ∧ evt.noUser = true ∧
      e.misc = perfRecordMiscUser) ∧ v = .out 0 ∧ s' = withEvent cfg s e.data.id) ∨
    ((e.misc = perfRecordMiscHypervisor ∧ (withEvent cfg s e.data.id).firstTimeProcessing = true) ∧
      v = .defer ∧ s' = withEvent cfg s e.data.id) ∨
    ((¬ Withheld cfg (withEvent cfg s e.data.id) e ∧
      (e.data.id = s.trans.sampleId → fastPath s.trans e.data inKernel = none)) ∧
      v = .find ∧ s' = withEvent cfg s e.data.id) ∨
    (∃ t, (e.data.id = s.trans.sampleId ∧ ¬ Withheld cfg (withEvent cfg s e.data.id) e) ∧
      fastPath s.trans e.data inKernel = some t ∧ v = .fast t ∧ s' = s) := by
  simp only [verifySample] at h
  split at h
  · rename_i hzero
    cases h
    exact Or.inl ⟨hzero, rfl, rfl⟩
  · have hwith : withEvent cfg s e.data.id = if e.data.id ≠ s.trans.sampleId then
        { s with trans := { s.trans with event := eventnum cfg e.data.id } } else s := rfl
    rw [← hwith] at h
    split at h
    · rename_i hneg
      cases h
      exact Or.inr (Or.inl ⟨hneg.2, rfl, rfl⟩)
    · split at h
      · cases h
      · simp only [Option.bind_eq_bind, Option.bind_eq_some_iff] at h
        obtain ⟨evt, hevt, h⟩ := h
        split at h
        · rename_i hdrop
          cases h
          exact Or.inr (Or.inr (Or.inl ⟨⟨evt, hevt, hdrop⟩, rfl, rfl⟩))
        · rename_i hdrop
          split at h
          · rename_i hdefer
            cases h
            exact Or.inr (Or.inr (Or.inr (Or.inl ⟨hdefer, rfl, rfl⟩)))
          · rename_i hdefer
            have hnot : ¬ Withheld cfg (withEvent cfg s e.data.id) e := by
              rintro (⟨evt', hevt', hdrop'⟩ | hdefer')
              · rw [hevt, Option.some_inj] at hevt'
                subst hevt'
                exact hdrop hdrop'
              · exact hdefer hdefer'
            split at h
            · rename_i hother
              cases h
              exact Or.inr (Or.inr (Or.inr (Or.inr (Or.inl
                ⟨⟨hnot, fun hid => (hother hid).elim⟩, rfl, rfl⟩))))
            · rename_i hsame
              have hid : e.data.id = s.trans.sampleId := not_not.mp hsame
              have hs : withEvent cfg s e.data.id = s := by rw [hwith, if_neg hsame]
              rw [hs] at h hnot ⊢
              split at h
              · rename_i t ht
                cases h
                exact Or.inr (Or.inr (Or.inr (Or.inr (Or.inr ⟨t, ⟨hid, hnot⟩, ht, rfl, rfl⟩))))
              · rename_i hslow
                cases h
                exact Or.inr (Or.inr (Or.inr (Or.inr (Or.inl ⟨⟨hnot, fun _ => hslow⟩, rfl, rfl⟩))))

theorem finishSample_not_found (h : finishSample cfg env s e false = some (rc, s')) :
    rc = 0 ∧ Cleared s s' := by
  simp only [finishSample, Bool.false_eq_true, false_and, if_false] at h
  split at h
  · cases h
    exact ⟨rfl, rfl, rfl, rfl, rfl, rfl, Grows.refl _⟩
  · cases h
    exact ⟨rfl, cleared_clearTrans s⟩

theorem Untouched.comp_cleared (h : Untouched s s') (hc : Cleared s' s'') :
    Cleared s s'' where
  transient := by rw [hc.transient, OperfState.clearTrans, OperfState.clearTrans, h.transient]
  sfiles := hc.sfiles.trans h.sfiles
  logged := hc.logged.trans h.logged
  firstTime := hc.firstTime.trans h.firstTime
  initDone := hc.initDone.trans h.initDone
  procs := h.procs.trans hc.procs

theorem handleDomainSample_step (h : handleDomainSample cfg env s e inKernel = some (rc, s')) :
    DomainStep cfg env s e inKernel rc s' := by
  simp only [handleDomainSample, Option.bind_eq_bind, Option.bind_eq_some_iff] at h
  obtain ⟨⟨v, s₁⟩, hv, h⟩ := h
  rcases verifySample_cases hv with ⟨hnone, rfl, rfl⟩ | ⟨hneg, rfl, rfl⟩ | ⟨hdrop, rfl, rfl⟩ |
    ⟨hdefer, rfl, rfl⟩ | ⟨-, rfl, rfl⟩ | ⟨t, ⟨hid, -⟩, hfast, rfl, rfl⟩
  · cases h
    exact .skipped hnone.1 (cleared_clearTrans _)
  · cases h
    exact .refused hneg (cleared_clearTrans _)
  · cases h
    exact .withheld (Or.inl hdrop) (cleared_clearTrans _)
  · cases h
    exact .withheld (Or.inr hdefer) ⟨rfl, rfl, rfl, rfl, rfl, Grows.refl _⟩
  · simp only [findTrans, Option.bind_eq_bind, Option.bind_eq_some_iff] at h
    obtain ⟨⟨found, s₂⟩, ⟨⟨found', s₃⟩, htrans, hfound⟩, h⟩ := h
    rcases getOperfTrans_cases htrans with ⟨rfl, hun, hno⟩ | ⟨rfl, p, m, hlookup, rfl⟩
    · cases hfound
      obtain ⟨rfl, hc⟩ := finishSample_not_found h
      exact .unattributed hno (hun.comp_cleared hc)
    · simp only [if_true, Option.bind_eq_some_iff] at hfound
      obtain ⟨s₄, hfind, hfound⟩ := hfound
      cases hfound
      exact .lookup hlookup hfind h
  · exact .fast hid hfast h

/-- A sample with all the fields needed, from a domain that is not discarded. -/
def DomainKnown (cfg : Config n) (e : SampleEvent) : Prop :=
  (cfg.sampleType.ip = true ∧ cfg.sampleType.tid = true ∧ cfg.sampleType.id = true) ∧
  (e.misc = perfRecordMiscKernel ∨ e.misc = perfRecordMiscUser ∨
    (cfg.ppc64Arch = true ∧ e.misc = perfRecordMiscHypervisor ∧ e.data.ip ≤ maxHypervisorAddress))

/-- `__handle_sample_event`: the sample is discarded, or handled in its domain. -/
theorem handleSampleEvent_cases (h : handleSampleEvent cfg env s e = some (rc, s')) :
    (rc = -1 ∧ s' = s) ∨ (rc = 0 ∧ Cleared s s') ∨
    ∃ s₁, DomainKnown cfg e ∧ Untouched s s₁ ∧
      (s₁ = s ∨ (e.misc = perfRecordMiscHypervisor ∧ s.firstTimeProcessing = true)) ∧
      DomainStep cfg env s₁ e (e.misc == perfRecordMiscKernel) rc s' := by
  unfold handleSampleEvent at h
  split at h
  · cases h
    exact Or.inl ⟨rfl, rfl⟩
  · rename_i htype
    have htype := not_not.mp htype
    split at h
    · rename_i hk
      refine Or.inr (Or.inr ⟨s, ⟨htype, Or.inl hk⟩, Untouched.refl s, Or.inl rfl, ?_⟩)
      rw [beq_iff_eq.mpr hk]
      exact handleDomainSample_step h
    · rename_i hk
      rw [beq_eq_false_iff_ne.mpr hk]
      split at h
      · rename_i hu
        exact Or.inr (Or.inr ⟨s, ⟨htype, Or.inr (Or.inl hu)⟩, Untouched.refl s, Or.inl rfl,
          handleDomainSample_step h⟩)
      · split at h
        · rename_i hhyp
          split at h
          · cases h
            exact Or.inr (Or.inl ⟨rfl, (bump_untouched s .lostInvalidHypervAddr 1).comp_cleared
              (cleared_clearTrans _)⟩)
          · rename_i hip
            have hknown : DomainKnown cfg e :=
              ⟨htype, Or.inr (Or.inr ⟨hhyp.1, hhyp.2, UInt64.not_lt.mp hip⟩)⟩
            split at h
            · rename_i hfirst
              simp only [Option.bind_eq_bind, Option.bind_eq_some_iff] at h
              obtain ⟨s₁, hmap, h⟩ := h
              exact Or.inr (Or.inr ⟨s₁, hknown, mapHypervisorSample_untouched hmap,
                Or.inr ⟨hhyp.2, hfirst⟩, handleDomainSample_step h⟩)
            · exact Or.inr (Or.inr ⟨s, hknown, Untouched.refl s, Or.inl rfl,
                handleDomainSample_step h⟩)
        · cases h
          exact Or.inr (Or.inl ⟨rfl, cleared_clearTrans s⟩)

/-- A sample that was found is logged, with its call chain; or there is no file for it. -/
theorem finishSample_found (h : finishSample cfg env s e true = some (rc, s')) :
    rc = 0 ∧ ((s.trans.current = none ∧ Cleared s s') ∨
      ∃ sf s₁, s.trans.current = some sf ∧
        LogStep s s₁ (.sample sf s.trans.event (sampleOffset sf s.trans.pc)) ∧
        (env.openSampleFile s.logCalls = true → s₁.logged =
          s.logged ++ [.sample sf s.trans.event (sampleOffset sf s.trans.pc)]) ∧
        (s' = s₁.updateTransLast ∨ handleCallchain cfg env s₁.updateTransLast e = some s')) := by
  simp only [finishSample, Option.bind_eq_bind] at h
  split at h
  · simp only [Option.bind_eq_some_iff] at h
    obtain ⟨s₁, hlog, h⟩ := h
    obtain ⟨sf, hsf, hstep, hopen⟩ := operfSfileLogSample_logStep hlog
    split at h
    · simp only [Option.bind_eq_some_iff] at h
      obtain ⟨s₂, hchain, h⟩ := h
      cases h
      exact ⟨rfl, Or.inr ⟨sf, s₁, hsf, hstep, hopen, Or.inr hchain⟩⟩
    · cases h
      exact ⟨rfl, Or.inr ⟨sf, s₁, hsf, hstep, hopen, Or.inl rfl⟩⟩
  · rename_i hnone
    have hcur : s.trans.current = none := by simpa using hnone
    split at h
    · cases h
      exact ⟨rfl, Or.inl ⟨hcur, rfl, rfl, rfl, rfl, rfl, Grows.refl _⟩⟩
    · cases h
      exact ⟨rfl, Or.inl ⟨hcur, cleared_clearTrans s⟩⟩

/-- A call chain is logged as arcs, under the event and the identifier of its sample. -/
structure SameEvent (id : UInt64) (s s' : OperfState) : Prop where
  firstTime : s'.firstTimeProcessing = s.firstTimeProcessing
  event : s'.trans.event = s.trans.event
  sampleId : s'.trans.sampleId = s.trans.sampleId ∨ s'.trans.sampleId = id
  attributed : s'.trans.imageName = none → s.trans.imageName = none
  arcs : ∃ arcs, s'.logged = s.logged ++ arcs ∧ ∀ sf event key, LogEntry.sample sf event key ∉ arcs

namespace SameEvent

variable {id : UInt64}

theorem refl (id : UInt64) (s : OperfState) : SameEvent id s s :=
  ⟨rfl, rfl, Or.inl rfl, fun h => h, [], by simp, by simp⟩

theorem comp (h : SameEvent id s s') (h' : SameEvent id s' s'') : SameEvent id s s'' := by
  obtain ⟨arcs, hlog, hno⟩ := h.arcs
  obtain ⟨arcs', hlog', hno'⟩ := h'.arcs
  refine ⟨h'.firstTime.trans h.firstTime, h'.event.trans h.event, ?_, fun hn => h.attributed (h'.attributed hn),
    arcs ++ arcs', ?_, fun sf event key hmem => ?_⟩
  · rcases h'.sampleId with heq | heq
    · rw [heq]
      exact h.sampleId
    · exact Or.inr heq
  · rw [hlog', hlog, List.append_assoc]
  · rcases List.mem_append.mp hmem with hmem | hmem
    · exact hno sf event key hmem
    · exact hno' sf event key hmem

theorem of_untouched (h : Untouched s s') : SameEvent id s s' := by
  refine ⟨h.firstTime, ?_, Or.inl ?_, fun hn => ?_, [], ?_, by simp⟩
  · rw [h.transient]
  · rw [h.transient]
  · rwa [h.transient] at hn
  · rw [h.logged, List.append_nil]

theorem of_arc {sf last : OperfSfile} {event : Int} {key : UInt64}
    (h : LogStep s s' (.arc sf last event key)) : SameEvent id s s' := by
  have hlog : ∃ arcs, s'.logged = s.logged ++ arcs ∧
      ∀ sf event key, LogEntry.sample sf event key ∉ arcs := by
    rcases h.logged with hl | hl
    · exact ⟨[], by rw [hl, List.append_nil], by simp⟩
    · exact ⟨_, hl, by simp⟩
  refine ⟨h.firstTime, ?_, Or.inl ?_, fun hn => ?_, hlog⟩
  · rw [h.transient]
  · rw [h.transient]
  · rwa [h.transient] at hn

end SameEvent

theorem findCurrent_sameEvent {id : UInt64} (h : findCurrent cfg s = some s') :
    SameEvent id s s' := by
  obtain ⟨name, -, -, ⟨-, -, rfl⟩ | ⟨ki, -, -, rfl⟩⟩ := findCurrent_cases h
  · exact ⟨rfl, rfl, Or.inl rfl, fun h => h, [], by simp [OperfState.bump], by simp⟩
  · exact ⟨rfl, rfl, Or.inl rfl, fun h => h, [], by simp, by simp⟩

theorem findCurrent_logged (h : findCurrent cfg s = some s') : s'.logged = s.logged := by
  obtain ⟨name, -, -, ⟨-, -, rfl⟩ | ⟨ki, -, -, rfl⟩⟩ := findCurrent_cases h
  · rfl
  · rfl

theorem getOperfTrans_sameEvent {data : SampleData} {hv kernelMode found : Bool}
    (h : getOperfTrans cfg s data hv kernelMode = some (found, s')) : SameEvent data.id s s' := by
  rcases getOperfTrans_cases h with ⟨-, hun, -⟩ | ⟨-, p, m, -, rfl⟩
  · exact SameEvent.of_untouched hun
  · exact ⟨rfl, rfl, Or.inr rfl, fun h => by simp [setTrans] at h, [], by simp, by simp⟩

theorem callchainAddress_sameEvent {data : SampleData} {mode mode' : Bool} {ip : UInt64}
    (h : callchainAddress cfg env data (mode, s) ip = some (mode', s')) :
    SameEvent data.id s s' := by
  simp only [callchainAddress] at h
  split at h
  · cases h
    exact SameEvent.refl _ _
  · split at h
    · cases h
      exact SameEvent.refl _ _
    · simp only [Option.bind_eq_bind, Option.bind_eq_some_iff] at h
      obtain ⟨⟨found, s₁⟩, htrans, h⟩ := h
      have htrans := getOperfTrans_sameEvent htrans
      simp only at h
      split at h
      · simp only [Option.bind_eq_some_iff] at h
        obtain ⟨s₂, hfind, h⟩ := h
        have hfind := htrans.comp (findCurrent_sameEvent hfind)
        split at h
        · simp only [Option.bind_eq_some_iff] at h
          obtain ⟨s₃, harc, h⟩ := h
          cases h
          obtain ⟨sf, last, key, -, hstep⟩ := operfSfileLogArc_logStep harc
          have hlast : SameEvent data.id s₃ s₃.updateTransLast :=
            ⟨rfl, rfl, Or.inl rfl, fun h => h, [], by simp [OperfState.updateTransLast], by simp⟩
          exact (hfind.comp (SameEvent.of_arc hstep)).comp hlast
        · cases h
          exact hfind
      · split at h
        · cases h
          exact htrans
        · cases h
          exact htrans.comp (SameEvent.of_untouched (bump_untouched _ _ _))

theorem handleCallchain_sameEvent (h : handleCallchain cfg env s e = some s') :
    SameEvent e.data.id s s' := by
  simp only [handleCallchain, Option.bind_eq_bind, Option.bind_eq_some_iff] at h
  obtain ⟨⟨mode, s₁⟩, hfold, h⟩ := h
  cases h
  exact foldlM_rel (R := fun (r r' : Bool × OperfState) => SameEvent e.data.id r.2 r'.2)
    (fun _ => SameEvent.refl _ _) (fun _ _ _ => SameEvent.comp)
    (fun _ _ _ hstep => callchainAddress_sameEvent hstep) hfold

/-- The states of a conversion whose records all meet a condition. -/
inductive Reachable (cfg : Config n) (env : Env) (images : KernelImages)
    (P : OperfState → Event → Prop) : OperfState → Prop
  | init : Reachable cfg env images P (initialState images)
  | record {s s' : OperfState} {e : Event} {rc : Int} (hs : Reachable cfg env images P s)
      (hfirst : s.firstTimeProcessing = true) (hP : P s e)
      (hstep : opWriteEvent cfg env s e = some (rc, s')) (hrc : 0 ≤ rc) : Reachable cfg env images P s'
  | settle {s s' : OperfState} (hs : Reachable cfg env images P s)
      (hstep : settleProcesses { s with firstTimeProcessing := false } = some s') :
      Reachable cfg env images P s'
  | resolve {s s' : OperfState} {e : SampleEvent} {rc : Int} (hs : Reachable cfg env images P s)
      (hsecond : s.firstTimeProcessing = false) (hP : P s (.sample e))
      (hstep : handleSampleEvent cfg env s e = some (rc, s')) (hrc : 0 ≤ rc) :
      Reachable cfg env images P s'

/-- No condition on the records. -/
def anyRecord (_ : OperfState) (_ : Event) : Prop := True

@[simp] theorem withEvent_firstTime (cfg : Config n) (s : OperfState) (id : UInt64) :
    (withEvent cfg s id).firstTimeProcessing = s.firstTimeProcessing := by
  unfold withEvent
  split_ifs <;> rfl

theorem finishSample_firstTime (h : finishSample cfg env s e true = some (rc, s')) :
    s'.firstTimeProcessing = s.firstTimeProcessing := by
  obtain ⟨-, ⟨-, hc⟩ | ⟨sf, s₁, -, hlog, -, rfl | hchain⟩⟩ := finishSample_found h
  · exact hc.firstTime
  · exact hlog.firstTime
  · exact (handleCallchain_sameEvent hchain).firstTime.trans hlog.firstTime

theorem domainStep_firstTime (h : DomainStep cfg env s e inKernel rc s') :
    s'.firstTimeProcessing = s.firstTimeProcessing := by
  cases h with
  | skipped hnone hc => exact hc.firstTime
  | refused hneg hc => exact hc.firstTime.trans (withEvent_firstTime _ _ _)
  | withheld hw hc => exact hc.firstTime.trans (withEvent_firstTime _ _ _)
  | unattributed hno hc => exact hc.firstTime.trans (withEvent_firstTime _ _ _)
  | fast hid hfast hfin =>
    have hfirst := finishSample_firstTime hfin
    exact hfirst
  | lookup hlookup hfind hfin =>
    have hcur : SameEvent e.data.id _ _ := findCurrent_sameEvent hfind
    exact (finishSample_firstTime hfin).trans (hcur.firstTime.trans (withEvent_firstTime _ _ _))

theorem handleSampleEvent_firstTime (h : handleSampleEvent cfg env s e = some (rc, s')) :
    s'.firstTimeProcessing = s.firstTimeProcessing := by
  rcases handleSampleEvent_cases h with ⟨-, rfl⟩ | ⟨-, hc⟩ | ⟨s₁, -, hun, -, hstep⟩
  · rfl
  · exact hc.firstTime
  · exact (domainStep_firstTime hstep).trans hun.firstTime

/-- No record ends the first pass. -/
theorem opWriteEvent_firstTime {ev : Event} (h : opWriteEvent cfg env s ev = some (rc, s')) :
    s'.firstTimeProcessing = s.firstTimeProcessing := by
  cases ev with
  | sample e => exact handleSampleEvent_firstTime h
  | mmap m =>
    simp only [opWriteEvent, Option.map_eq_some_iff, Prod.mk.injEq] at h
    obtain ⟨s₁, h, -, rfl⟩ := h
    exact (handleMmapEvent_untouched h).firstTime
  | comm c =>
    simp only [opWriteEvent, Option.map_eq_some_iff, Prod.mk.injEq] at h
    obtain ⟨s₁, h, -, rfl⟩ := h
    exact (handleCommEvent_untouched h).firstTime
  | fork f =>
    simp only [opWriteEvent, Option.map_eq_some_iff, Prod.mk.injEq] at h
    obtain ⟨s₁, h, -, rfl⟩ := h
    exact (handleForkEvent_untouched h).firstTime
  | throttle id =>
    simp only [opWriteEvent, handleThrottleEvent, Option.some.injEq] at h
    split at h <;> cases h <;> rfl
  | lost count =>
    cases h
    rfl
  | exit =>
    cases h
    rfl
  | other type =>
    simp only [opWriteEvent] at h
    split at h <;> cases h <;> rfl

/-- The main loop of a conversion goes through reachable states. -/
theorem writeEvents_reachable {es : List Event} (hs : Reachable cfg env images anyRecord s)
    (hfirst : s.firstTimeProcessing = true) (h : writeEvents cfg env es s = some (rc, s'))
    (hrc : 0 ≤ rc) : Reachable cfg env images anyRecord s' := by
  induction es generalizing s with
  | nil =>
    cases h
    exact hs
  | cons e es ih =>
    simp only [writeEvents, Option.bind_eq_bind, Option.bind_eq_some_iff] at h
    obtain ⟨⟨rc₁, s₁⟩, hstep, h⟩ := h
    simp only at h
    split at h
    · cases h
      omega
    · rename_i hok
      refine ih (.record hs hfirst trivial hstep (not_lt.mp hok)) ?_ h
      rw [opWriteEvent_firstTime hstep, hfirst]

end Oprofile.Operf
