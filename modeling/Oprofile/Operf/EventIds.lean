import Oprofile.Operf.Runs
import Oprofile.Operf.HeaderRoundTrip

/-! Under which event a sample is logged. -/
namespace Oprofile.Operf

variable {n : Nat} {cfg : Config n} {env : Env} {images : KernelImages} {s s' s'' : OperfState}
  {e : SampleEvent} {inKernel : Bool} {rc : Int}

/-- The entries a step has added to the log. -/
def newEntries (s s' : OperfState) : List LogEntry := s'.logged.drop s.logged.length

/-- The samples among the new entries, in what a step leaves behind. -/
structure LoggedAs (event : Int) (s s' : OperfState) : Prop where
  event_eq : s'.trans.event = event
  samples : ∀ sf ev key, LogEntry.sample sf ev key ∈ newEntries s s' → ev = event

theorem loggedAs_of_cleared {event : Int} (hev : s.trans.event = event) (hc : Cleared s s') :
    LoggedAs event s s' := by
  constructor
  · rw [hc.transient]
    exact hev
  · intro sf ev key hmem
    simp [newEntries, hc.logged] at hmem

theorem finishSample_loggedAs {event : Int} (hev : s.trans.event = event)
    (h : finishSample cfg env s e true = some (rc, s')) :
    LoggedAs event s s' ∧ (s'.trans.sampleId = s.trans.sampleId ∨ s'.trans.sampleId = e.data.id) ∧
      (s'.trans.imageName = none → s.trans.imageName = none) := by
  obtain ⟨-, ⟨-, hc⟩ | ⟨sf, s₁, hsf, hlog, -, hs'⟩⟩ := finishSample_found h
  · refine ⟨loggedAs_of_cleared hev hc, Or.inl ?_, fun hn => ?_⟩
    · rw [hc.transient]
      rfl
    · rw [hc.transient] at hn
      exact hn
  · have hrest : SameEvent e.data.id s₁ s' := by
      have hlast : SameEvent e.data.id s₁ s₁.updateTransLast :=
        ⟨rfl, rfl, Or.inl rfl, fun h => h, [], by simp [OperfState.updateTransLast], by simp⟩
      rcases hs' with rfl | hchain
      · exact hlast
      · exact hlast.comp (handleCallchain_sameEvent hchain)
    obtain ⟨arcs, harcs, hno⟩ := hrest.arcs
    have hid := hrest.sampleId
    have hname := hrest.attributed
    rw [hlog.transient] at hid hname
    refine ⟨⟨?_, fun sf' ev key hmem => ?_⟩, hid, hname⟩
    · rw [hrest.event, hlog.transient, hev]
    · rw [newEntries, harcs] at hmem
      rcases hlog.logged with hl | hl
      · rw [hl, List.drop_left] at hmem
        exact (hno _ _ _ hmem).elim
      · rw [hl, List.append_assoc, List.drop_left] at hmem
        rcases List.mem_cons.mp hmem with hmem | hmem
        · cases hmem
          exact hev
        · exact (hno _ _ _ hmem).elim

@[simp] theorem withEvent_logged (cfg : Config n) (s : OperfState) (id : UInt64) :
    (withEvent cfg s id).logged = s.logged := by
  unfold withEvent
  split_ifs <;> rfl

@[simp] theorem withEvent_sampleId (cfg : Config n) (s : OperfState) (id : UInt64) :
    (withEvent cfg s id).trans.sampleId = s.trans.sampleId := by
  unfold withEvent
  split_ifs <;> rfl

@[simp] theorem withEvent_imageName (cfg : Config n) (s : OperfState) (id : UInt64) :
    (withEvent cfg s id).trans.imageName = s.trans.imageName := by
  unfold withEvent
  split_ifs <;> rfl

theorem withEvent_of_eq {id : UInt64} (h : id = s.trans.sampleId) : withEvent cfg s id = s := by
  rw [withEvent, if_neg (not_not.mpr h)]

theorem withEvent_event_of_ne {id : UInt64} (h : id ≠ s.trans.sampleId) :
    (withEvent cfg s id).trans.event = eventnum cfg id := by
  rw [withEvent, if_pos h]

theorem withEvent_congr {id : UInt64} (h : s'.trans = s.trans) :
    (withEvent cfg s' id).trans = (withEvent cfg s id).trans := by
  unfold withEvent
  rw [h]
  split_ifs
  · rfl
  · exact h

theorem newEntries_congr (hl : s'.logged = s.logged) : newEntries s' s'' = newEntries s s'' := by
  rw [newEntries, newEntries, hl]

theorem newEntries_of_cleared (hc : Cleared s s') : newEntries s s' = [] := by
  rw [newEntries, hc.logged, List.drop_length]

/-- Every sample a record logs is under the event that `trans` has once the record is verified. -/
theorem domainStep_samples (h : DomainStep cfg env s e inKernel rc s') {sf : OperfSfile} {ev : Int}
    {key : UInt64} (hmem : LogEntry.sample sf ev key ∈ newEntries s s') :
    ev = (withEvent cfg s e.data.id).trans.event := by
  have hcleared : ∀ {s₁ : OperfState}, s₁.logged = s.logged → Cleared s₁ s' →
      ev = (withEvent cfg s e.data.id).trans.event := by
    intro s₁ hl hc
    rw [← newEntries_congr hl, newEntries_of_cleared hc] at hmem
    cases hmem
  cases h with
  | skipped hnone hc => exact hcleared rfl hc
  | refused hneg hc => exact hcleared (withEvent_logged _ _ _) hc
  | withheld hw hc => exact hcleared (withEvent_logged _ _ _) hc
  | unattributed hno hc => exact hcleared (withEvent_logged _ _ _) hc
  | fast hid hfast hfin =>
    obtain ⟨tid, pc, rfl⟩ := fastPath_some hfast
    rw [withEvent_of_eq hid]
    exact (finishSample_loggedAs rfl hfin).1.samples sf ev key hmem
  | lookup hlookup hfind hfin =>
    have hcur : SameEvent e.data.id _ _ := findCurrent_sameEvent hfind
    have hl := (findCurrent_logged hfind).trans (withEvent_logged cfg s e.data.id)
    rw [← newEntries_congr hl] at hmem
    exact (finishSample_loggedAs hcur.event hfin).1.samples sf ev key hmem

/-- Which event a sample is logged under. -/
theorem handleSampleEvent_samples (h : handleSampleEvent cfg env s e = some (rc, s'))
    {sf : OperfSfile} {ev : Int} {key : UInt64}
    (hmem : LogEntry.sample sf ev key ∈ newEntries s s') :
    ev = (withEvent cfg s e.data.id).trans.event := by
  rcases handleSampleEvent_cases h with ⟨-, rfl⟩ | ⟨-, hc⟩ | ⟨s₁, -, hun, -, hstep⟩
  · rw [newEntries, List.drop_length] at hmem
    cases hmem
  · rw [newEntries_of_cleared hc] at hmem
    cases hmem
  · rw [← newEntries_congr hun.logged] at hmem
    rw [← withEvent_congr hun.transient]
    exact domainStep_samples hstep hmem

/-- The event of `trans` belongs to its identifier, once a sample has been attributed. -/
def Synced (cfg : Config n) (s : OperfState) : Prop :=
  s.trans.imageName = none ∨ s.trans.event = eventnum cfg s.trans.sampleId

/-- The sample is looked up, and found. -/
structure Attributed (cfg : Config n) (s : OperfState) (e : SampleEvent) : Prop where
  notWithheld : ¬ Withheld cfg s e
  found : ∃ p m, Lookup s e.data (e.misc == perfRecordMiscHypervisor)
    (e.misc == perfRecordMiscKernel) p m

/-- The records that keep `trans.event` and `trans.sample_id` together: a sample of another event
than the cached one is attributed, and only the cached event is throttled. -/
def KeepsEvent (cfg : Config n) (s : OperfState) : Event → Prop
  | .sample e =>
    (s.trans.imageName = none → e.data.id = s.trans.sampleId →
      s.trans.event = eventnum cfg e.data.id) ∧
    (s.trans.imageName ≠ none → DomainKnown cfg e → eventnum cfg e.data.id ≠ s.trans.event →
      e.data.id ≠ s.trans.sampleId → Attributed cfg (withEvent cfg s e.data.id) e)
  | .throttle id => s.trans.imageName ≠ none → eventnum cfg id = s.trans.event
  | _ => True

theorem withEvent_event (hs : Synced cfg s) (hk : KeepsEvent cfg s (.sample e)) :
    (withEvent cfg s e.data.id).trans.event = eventnum cfg e.data.id := by
  by_cases hid : e.data.id = s.trans.sampleId
  · rw [withEvent_of_eq hid]
    rcases hs with hnone | hev
    · exact hk.1 hnone hid
    · rw [hev, hid]
  · exact withEvent_event_of_ne hid

theorem synced_of_transient (hs : Synced cfg s) (hev : s'.trans.event = s.trans.event)
    (hid : s'.trans.sampleId = s.trans.sampleId) (hname : s'.trans.imageName = s.trans.imageName) :
    Synced cfg s' := by
  rw [Synced, hev, hid, hname]
  exact hs

theorem synced_of_cleared (hs : Synced cfg s) (hc : Cleared s s') : Synced cfg s' :=
  synced_of_transient hs (by rw [hc.transient]; rfl) (by rw [hc.transient]; rfl)
    (by rw [hc.transient]; rfl)

theorem synced_of_untouched (hs : Synced cfg s) (hun : Untouched s s') : Synced cfg s' :=
  synced_of_transient hs (by rw [hun.transient]) (by rw [hun.transient]) (by rw [hun.transient])

/-- Looking up the event of a sample that is not attributed. -/
theorem synced_withEvent (hs : Synced cfg s) (hk : KeepsEvent cfg s (.sample e))
    (hknown : DomainKnown cfg e) (hno : ¬ Attributed cfg (withEvent cfg s e.data.id) e) :
    Synced cfg (withEvent cfg s e.data.id) := by
  by_cases hid : e.data.id = s.trans.sampleId
  · rw [withEvent_of_eq hid]
    exact hs
  · rcases hs with hnone | hev
    · exact Or.inl ((withEvent_imageName _ _ _).trans hnone)
    · by_cases hnone : s.trans.imageName = none
      · exact Or.inl ((withEvent_imageName _ _ _).trans hnone)
      · have hsame : eventnum cfg e.data.id = s.trans.event := by
          by_contra hne
          exact hno (hk.2 hnone hknown hne hid)
        right
        rw [withEvent_event_of_ne hid, withEvent_sampleId, hsame, hev]

theorem keepsEvent_congr (h : s'.trans = s.trans) (hsame : s' = s ∨ Withheld cfg (withEvent cfg s e.data.id) e)
    (hk : KeepsEvent cfg s (.sample e)) : KeepsEvent cfg s' (.sample e) := by
  rcases hsame with rfl | hw
  · exact hk
  · refine ⟨?_, fun hnone hknown hne hid => ?_⟩
    · rw [h]
      exact hk.1
    · rw [h] at hnone hne hid
      exact ((hk.2 hnone hknown hne hid).notWithheld hw).elim

theorem domainStep_synced (hs : Synced cfg s) (hk : KeepsEvent cfg s (.sample e))
    (hknown : DomainKnown cfg e) (hrc : 0 ≤ rc)
    (h : DomainStep cfg env s e (e.misc == perfRecordMiscKernel) rc s') : Synced cfg s' := by
  cases h with
  | skipped hnone hc => exact synced_of_cleared hs hc
  | refused hneg hc => exact absurd hrc (by decide)
  | withheld hw hc =>
    exact synced_of_cleared (synced_withEvent hs hk hknown fun ha => ha.notWithheld hw) hc
  | unattributed hno hc =>
    refine synced_of_cleared (synced_withEvent hs hk hknown fun ha => ?_) hc
    obtain ⟨p, m, hfound⟩ := ha.found
    exact hno p m hfound
  | fast hid hfast hfin =>
    have hev := withEvent_event hs hk
    rw [withEvent_of_eq hid] at hev
    obtain ⟨tid, pc, rfl⟩ := fastPath_some hfast
    obtain ⟨hlog, hsid, -⟩ := finishSample_loggedAs rfl hfin
    right
    rw [hlog.event_eq]
    rcases hsid with hsid | hsid
    · rw [hsid, ← hid]
      exact hev
    · rw [hsid]
      exact hev
  | lookup hlookup hfind hfin =>
    have hcur : SameEvent e.data.id _ _ := findCurrent_sameEvent hfind
    obtain ⟨hlog, hsid, -⟩ := finishSample_loggedAs hcur.event hfin
    have hid : s'.trans.sampleId = e.data.id := by
      rcases hsid with hsid | hsid
      · rcases hcur.sampleId with hc | hc
        · exact hsid.trans hc
        · exact hsid.trans hc
      · exact hsid
    right
    rw [hlog.event_eq, hid]
    exact withEvent_event hs hk

theorem handleSampleEvent_synced (hs : Synced cfg s) (hk : KeepsEvent cfg s (.sample e))
    (hrc : 0 ≤ rc) (h : handleSampleEvent cfg env s e = some (rc, s')) : Synced cfg s' := by
  rcases handleSampleEvent_cases h with ⟨rfl, -⟩ | ⟨-, hc⟩ | ⟨s₁, hknown, hun, hsame, hstep⟩
  · exact absurd hrc (by decide)
  · exact synced_of_cleared hs hc
  · refine domainStep_synced (synced_of_untouched hs hun) ?_ hknown hrc hstep
    refine keepsEvent_congr hun.transient ?_ hk
    rcases hsame with rfl | ⟨hhyp, hfirst⟩
    · exact Or.inl rfl
    · refine Or.inr (Or.inr ⟨hhyp, ?_⟩)
      rw [withEvent_firstTime]
      exact hfirst

theorem opWriteEvent_synced {ev : Event} (hs : Synced cfg s) (hk : KeepsEvent cfg s ev)
    (hrc : 0 ≤ rc) (h : opWriteEvent cfg env s ev = some (rc, s')) : Synced cfg s' := by
  cases ev with
  | sample e => exact handleSampleEvent_synced hs hk hrc h
  | mmap m =>
    simp only [opWriteEvent, Option.map_eq_some_iff, Prod.mk.injEq] at h
    obtain ⟨s₁, h, -, rfl⟩ := h
    exact synced_of_untouched hs (handleMmapEvent_untouched h)
  | comm c =>
    simp only [opWriteEvent, Option.map_eq_some_iff, Prod.mk.injEq] at h
    obtain ⟨s₁, h, -, rfl⟩ := h
    have hinit : Synced cfg { s with sfileInitDone := true } := hs
    exact synced_of_untouched hinit (handleCommEvent_untouched h)
  | fork f =>
    simp only [opWriteEvent, Option.map_eq_some_iff, Prod.mk.injEq] at h
    obtain ⟨s₁, h, -, rfl⟩ := h
    exact synced_of_untouched hs (handleForkEvent_untouched h)
  | throttle id =>
    simp only [opWriteEvent, handleThrottleEvent, Option.some.injEq] at h
    split at h
    · cases h
      rcases hs with hnone | hev
      · exact Or.inl hnone
      · by_cases hnone : s.trans.imageName = none
        · exact Or.inl hnone
        · exact Or.inr ((hk hnone).trans hev)
    · cases h
      exact absurd hrc (by decide)
  | lost count =>
    cases h
    exact hs
  | exit =>
    cases h
    exact hs
  | other type =>
    simp only [opWriteEvent] at h
    split at h
    · cases h
      exact absurd hrc (by decide)
    · cases h
      exact hs

theorem reachable_synced (h : Reachable cfg env images (KeepsEvent cfg) s) : Synced cfg s := by
  induction h with
  | init => exact Or.inl rfl
  | record hs hfirst hP hstep hrc ih => exact opWriteEvent_synced ih hP hrc hstep
  | @settle s s' hs hstep ih =>
    have hsecond : Synced cfg { s with firstTimeProcessing := false } := ih
    exact synced_of_untouched hsecond (settleProcesses_untouched hstep)
  | resolve hs hsecond hP hstep hrc ih => exact handleSampleEvent_synced ih hP hrc hstep

/-- Every sample logged is logged under its own event. -/
def LogsOwnEvent (cfg : Config n) (env : Env) (s : OperfState) (e : SampleEvent) : Prop :=
  ∀ rc s' sf ev key, handleSampleEvent cfg env s e = some (rc, s') →
    LogEntry.sample sf ev key ∈ newEntries s s' → ev = eventnum cfg e.data.id

/-- Operf logs samples under their own events in every conversion whose records keep the cached
event and identifier together. One sample that is logged is under its own event exactly when its
identifier is not the cached one, or the cached event is still that of the identifier. -/
theorem samples_under_own_event (cfg : Config n) (env : Env) (images : KernelImages) :
    (∀ s e, Reachable cfg env images (KeepsEvent cfg) s → KeepsEvent cfg s (.sample e) →
      LogsOwnEvent cfg env s e) ∧
    ∀ s e rc s' sf ev key, handleSampleEvent cfg env s e = some (rc, s') →
      LogEntry.sample sf ev key ∈ newEntries s s' →
      (ev = eventnum cfg e.data.id ↔
        (e.data.id = s.trans.sampleId → s.trans.event = eventnum cfg e.data.id)) := by
  constructor
  · intro s e hs hk rc s' sf ev key h hmem
    rw [handleSampleEvent_samples h hmem]
    exact withEvent_event (reachable_synced hs) hk
  · intro s e rc s' sf ev key h hmem
    rw [handleSampleEvent_samples h hmem]
    by_cases hid : e.data.id = s.trans.sampleId
    · rw [withEvent_of_eq hid]
      exact ⟨fun hev _ => hev, fun hev => hev hid⟩
    · rw [withEvent_event_of_ne hid]
      exact ⟨fun _ heq => (hid heq).elim, fun _ => rfl⟩

/-- Two events, with the identifiers 11 and 12. -/
def twoEvents : Config 8 where
  sampleType := ⟨true, true, true, false⟩
  separateCpu := false
  evts := [⟨false⟩, ⟨false⟩]
  opHeader := headerWithIds 8 [[11], [12]]
  appName := none
  appPid := 0
  kptrRestrict := 0
  myUid := 0
  ppc64Arch := false
  vconvert := false
  perfRecordMax := 10

def quietEnv : Env where
  readlink := fun _ _ => some ['/', 'b']
  openSampleFile := fun _ => true
  evicted := fun _ _ => false

def noVmlinux : KernelImages := ⟨true, ⟨[], 0, 0⟩, []⟩

/-- A user sample of process 10, which has one mapping, from 0x1000 to 0x1fff. -/
def userSample (ip id : UInt64) : SampleEvent := ⟨perfRecordMiscUser, ⟨ip, 10, 10, id, 0⟩, []⟩

def processRecords : List Event :=
  [.comm ⟨10, 10, ['b']⟩, .mmap ⟨perfRecordMiscUser, 10, 0x1000, 0x1000, 0, ['/', 'b']⟩]

/-- The events of the samples in a log. -/
def sampleEvents (log : List LogEntry) : List Int :=
  log.filterMap fun
    | .sample _ event _ => some event
    | .arc .. => none

theorem mem_of_sampleEvents {log : List LogEntry} {event : Int} (h : event ∈ sampleEvents log) :
    ∃ sf key, LogEntry.sample sf event key ∈ log := by
  rw [sampleEvents, List.mem_filterMap] at h
  obtain ⟨entry, hmem, h⟩ := h
  cases entry with
  | sample sf ev key =>
    cases h
    exact ⟨sf, key, hmem⟩
  | arc sf last ev key => cases h

theorem mem_of_eq_singleton {events : List Int} {event : Int} (h : events = [event]) :
    event ∈ events := by
  rw [h]
  exact List.mem_singleton_self event

theorem attributed_of_getOperfTrans (hw : ¬ Withheld cfg s e)
    (h : getOperfTrans cfg s e.data (e.misc == perfRecordMiscHypervisor)
      (e.misc == perfRecordMiscKernel) = some (true, s')) : Attributed cfg s e := by
  rcases getOperfTrans_cases h with ⟨hfalse, -, -⟩ | ⟨-, p, m, hlookup, -⟩
  · cases hfalse
  · exact ⟨hw, p, m, hlookup⟩

theorem twoEvents_not_withheld (s : OperfState) (ip id : UInt64) :
    ¬ Withheld twoEvents s (userSample ip id) := by
  rintro (⟨evt, hevt, hno, -⟩ | ⟨hmisc, -⟩)
  · have hmem := List.mem_of_getElem? hevt
    simp only [twoEvents, List.mem_cons, List.not_mem_nil, or_false, or_self] at hmem
    rw [hmem] at hno
    cases hno
  · have hne : perfRecordMiscUser ≠ perfRecordMiscHypervisor := by decide
    exact hne hmisc

/-- A sample of each event, both from the mapping: the second is logged under the second event. -/
theorem samples_under_own_event_two : ∃ s s' sf ev key,
    Reachable twoEvents quietEnv noVmlinux (KeepsEvent twoEvents) s ∧
    handleSampleEvent twoEvents quietEnv s (userSample 0x1200 12) = some (0, s') ∧
    LogEntry.sample sf ev key ∈ newEntries s s' ∧ ev = eventnum twoEvents 12 ∧
    eventnum twoEvents 12 = 1 := by
  have hrun : ((opWriteEvent twoEvents quietEnv (initialState noVmlinux)
        (.comm ⟨10, 10, ['b']⟩)).bind fun r₁ =>
      (opWriteEvent twoEvents quietEnv r₁.2
        (.mmap ⟨perfRecordMiscUser, 10, 0x1000, 0x1000, 0, ['/', 'b']⟩)).bind fun r₂ =>
      (opWriteEvent twoEvents quietEnv r₂.2 (.sample (userSample 0x1100 11))).bind fun r₃ =>
      (getOperfTrans twoEvents (withEvent twoEvents r₃.2 12) (userSample 0x1200 12).data false
        false).bind fun r =>
      (handleSampleEvent twoEvents quietEnv r₃.2 (userSample 0x1200 12)).map fun r₄ =>
        ([r₁.1, r₂.1, r₃.1, r₄.1], sampleEvents (newEntries r₃.2 r₄.2),
          decide (r₂.2.trans.imageName = none ∧ r₂.2.trans.sampleId = 0 ∧
            r₃.2.trans.sampleId = 11 ∧ r.1 = true))) =
      some ([0, 0, 0, 0], [1], true) := by decide
  simp only [Option.bind_eq_some_iff, Option.map_eq_some_iff, Prod.mk.injEq, List.cons.injEq,
    decide_eq_true_eq] at hrun
  obtain ⟨⟨rc₁, s₁⟩, h₁, ⟨rc₂, s₂⟩, h₂, ⟨rc₃, s₃⟩, h₃, ⟨found, s'⟩, htrans, ⟨rc₄, s₄⟩, h₄,
    ⟨rfl, rfl, rfl, rfl, -⟩, hnew, hnone, hid₂, hid₃, rfl⟩ := hrun
  have hfirst₁ := opWriteEvent_firstTime h₁
  have hfirst₂ := (opWriteEvent_firstTime h₂).trans hfirst₁
  have hkeeps₃ : KeepsEvent twoEvents s₂ (.sample (userSample 0x1100 11)) := by
    refine ⟨fun _ heq => ?_, fun hne => absurd hnone hne⟩
    rw [hid₂] at heq
    exact absurd heq (by decide)
  have hs₃ : Reachable twoEvents quietEnv noVmlinux (KeepsEvent twoEvents) s₃ := by
    refine .record (.record (.record .init rfl ?_ h₁ le_rfl) hfirst₁ ?_ h₂ le_rfl) hfirst₂ hkeeps₃ h₃
      le_rfl
    · trivial
    · trivial
  have hkeeps₄ : KeepsEvent twoEvents s₃ (.sample (userSample 0x1200 12)) := by
    refine ⟨fun _ heq => ?_, fun _ _ _ _ =>
      attributed_of_getOperfTrans (twoEvents_not_withheld _ _ _) htrans⟩
    rw [hid₃] at heq
    exact absurd heq (by decide)
  obtain ⟨sf, key, hmem⟩ := mem_of_sampleEvents (mem_of_eq_singleton hnew)
  exact ⟨s₃, s₄, sf, 1, key, hs₃, h₄, hmem,
    (samples_under_own_event twoEvents quietEnv noVmlinux).1 s₃ _ hs₃ hkeeps₄ _ _ _ _ _ h₄ hmem,
    by decide⟩

/-- A sample outside every mapping leaves its event to the next sample of the cached identifier. -/
theorem unmapped_sample_leaves_event : ∃ s, Reachable twoEvents quietEnv noVmlinux anyRecord s ∧
    ¬LogsOwnEvent twoEvents quietEnv s (userSample 0x1100 11) := by
  have hrun : ((writeEvents twoEvents quietEnv (processRecords ++ [.sample (userSample 0x1100 11),
      .sample (userSample 0x9000 12)]) (initialState noVmlinux)).bind fun r =>
        (handleSampleEvent twoEvents quietEnv r.2 (userSample 0x1100 11)).map fun r' =>
          (r.1, sampleEvents (newEntries r.2 r'.2))) = some (0, [1]) := by decide
  simp only [Option.bind_eq_some_iff, Option.map_eq_some_iff, Prod.mk.injEq] at hrun
  obtain ⟨⟨rc, s⟩, hs, ⟨rc', s'⟩, hstep, rfl, hnew⟩ := hrun
  obtain ⟨sf, key, hmem⟩ := mem_of_sampleEvents (mem_of_eq_singleton hnew)
  refine ⟨s, writeEvents_reachable .init rfl hs (by decide), fun hown => ?_⟩
  have hev := hown _ _ _ _ _ hstep hmem
  exact absurd hev (by decide)

end Oprofile.Operf
