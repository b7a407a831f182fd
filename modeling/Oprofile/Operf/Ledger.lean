import Oprofile.Operf.Accounting

/-! Every sample of a conversion is accounted for, in one of the two passes. -/
namespace Oprofile.Operf

variable {n : Nat} {cfg : Config n} {env : Env} {images : KernelImages} {s s' s'' : OperfState}
  {e : SampleEvent} {data : SampleData} {inKernel : Bool} {rc : Int} {es : List Event}

section Kept

theorem callchainAddress_loses {mode mode' : Bool} {ip : UInt64}
    (h : callchainAddress cfg env data (mode, s) ip = some (mode', s')) : ∃ x, Adds 0 x [] s s' := by
  simp only [callchainAddress] at h
  split at h
  · cases h
    exact ⟨0, Adds.refl _⟩
  · split at h
    · cases h
      exact ⟨0, Adds.refl _⟩
    · simp only [Option.bind_eq_bind, Option.bind_eq_some_iff] at h
      obtain ⟨⟨found, s₂⟩, hget, h⟩ := h
      have hget : ∃ x, Adds 0 x [] s s₂ := by
        obtain ⟨-, -, ⟨-, p, m, -, rfl⟩ | ⟨-, -, -, x, hadds, -⟩⟩ := getOperfTrans_adds hget
        · exact ⟨0, Adds.of_eq rfl rfl rfl⟩
        · exact ⟨x, hadds⟩
      obtain ⟨x, hadds⟩ := hget
      simp only at h
      split at h
      · simp only [Option.bind_eq_some_iff] at h
        obtain ⟨s₃, hfind, h⟩ := h
        have hfind : ∃ y, Adds 0 y [] s₂ s₃ := by
          obtain ⟨-, -, -, -, ⟨-, -, -, hadds⟩ | ⟨-, -, hadds⟩⟩ := findCurrent_adds hfind
          · exact ⟨1, hadds⟩
          · exact ⟨0, hadds⟩
        obtain ⟨y, hadds₃⟩ := hfind
        split at h
        · simp only [Option.bind_eq_some_iff] at h
          obtain ⟨s₄, harc, h⟩ := h
          cases h
          obtain ⟨⟨z, hadds₄, -⟩, -⟩ := operfSfileLogArc_adds harc
          have hupdate : Adds 0 0 [] s₄ s₄.updateTransLast := Adds.of_eq rfl rfl rfl
          exact ⟨_, ((hadds.comp hadds₃).comp hadds₄).comp hupdate⟩
        · cases h
          exact ⟨_, hadds.comp hadds₃⟩
      · split at h
        · cases h
          exact ⟨x, hadds⟩
        · cases h
          exact ⟨_, hadds.comp (Adds.bump_other s₂ .btLostNoMapping (by decide) 1)⟩

theorem handleCallchain_loses (h : handleCallchain cfg env s e = some s') : ∃ x, Adds 0 x [] s s' := by
  obtain ⟨mode, hfold⟩ := handleCallchain_some.mp h
  exact foldlM_rel (R := fun (r r' : Bool × OperfState) => ∃ x, Adds 0 x [] r.2 r'.2)
    (fun _ => ⟨0, Adds.refl _⟩) (fun _ _ _ h h' => by
      obtain ⟨x, h⟩ := h
      obtain ⟨y, h'⟩ := h'
      exact ⟨_, h.comp h'⟩)
    (fun _ _ _ hstep => callchainAddress_loses hstep) hfold

/-- Only the first pass keeps samples. -/
def KeepsFirst (s : OperfState) (e : SampleEvent) (s' : OperfState) : Prop :=
  ∃ l x, Adds l x [] s s' ∨ (s.firstTimeProcessing = true ∧ Adds l x [e] s s')

theorem Outcome.keepsFirst (h : Outcome cfg env s e inKernel s') : KeepsFirst s e s' := by
  have hpass : s.firstTimeProcessing = true ∨ s.firstTimeProcessing = false := by
    cases s.firstTimeProcessing
    · exact Or.inr rfl
    · exact Or.inl rfl
  cases h with
  | skipped hnone hpid hadds => exact ⟨0, 0, Or.inl hadds⟩
  | dropped hdrop hadds => exact ⟨0, 0, Or.inl hadds⟩
  | deferred hmisc hfirst hadds => exact ⟨0, 0, Or.inr ⟨hfirst, hadds⟩⟩
  | unattributed hunc hno hfirst hsecond =>
    rcases hpass with hp | hp
    · exact ⟨0, 0, Or.inr ⟨hp, hfirst hp⟩⟩
    · exact ⟨0, _, Or.inl (hsecond hp).1⟩
  | noImage hl hker hnone hfirst hsecond =>
    rcases hpass with hp | hp
    · exact ⟨0, 1, Or.inr ⟨hp, hfirst hp⟩⟩
    · exact ⟨0, 1, Or.inl (hsecond hp)⟩
  | noFile hc hnone hfirst hsecond =>
    rcases hpass with hp | hp
    · exact ⟨0, 0, Or.inr ⟨hp, hfirst hp⟩⟩
    · exact ⟨0, 0, Or.inl (hsecond hp)⟩
  | @logged s₁ _ hp hlog =>
    have hchain : ∃ x, Adds 0 x [] s₁ s' := by
      rcases hlog.chain with ⟨-, rfl⟩ | ⟨-, hchain⟩
      · exact ⟨0, Adds.refl _⟩
      · exact handleCallchain_loses hchain
    obtain ⟨x, hx⟩ := hchain
    rcases hlog.counted with ha | ha
    · exact ⟨_, _, Or.inl (ha.comp hx)⟩
    · exact ⟨_, _, Or.inl (ha.comp hx)⟩

theorem handleSampleEvent_keepsFirst (hc : Coherent cfg s)
    (h : handleSampleEvent cfg env s e = some (0, s')) : KeepsFirst s e s' := by
  unfold handleSampleEvent at h
  split at h
  · cases h
  · split at h
    · exact (handleDomainSample_outcome hc.process h).keepsFirst
    · split at h
      · exact (handleDomainSample_outcome hc.process h).keepsFirst
      · split at h
        · split at h
          · cases h
            exact ⟨0, 1, Or.inl ((Adds.bump s .lostInvalidHypervAddr (by decide) 1).comp (Adds.clearTrans _))⟩
          · split at h
            · rename_i hfirst
              simp only [Option.bind_eq_bind, Option.bind_eq_some_iff] at h
              obtain ⟨s₁, hmap, h⟩ := h
              have hc₁ := hc.untouched (mapHypervisorSample_untouched hmap)
              have hsame : Adds 0 0 [] s s₁ := by
                simp only [mapHypervisorSample, Option.bind_eq_bind, Option.bind_eq_some_iff] at hmap
                obtain ⟨t, -, t', -, hmap⟩ := hmap
                cases hmap
                exact Adds.of_eq rfl rfl rfl
              obtain ⟨l, x, ha | ⟨-, ha⟩⟩ := (handleDomainSample_outcome hc₁.process h).keepsFirst
              · exact ⟨_, _, Or.inl (hsame.comp ha)⟩
              · exact ⟨_, _, Or.inr ⟨hfirst, hsame.comp ha⟩⟩
            · exact (handleDomainSample_outcome hc.process h).keepsFirst
        · cases h
          exact ⟨0, 0, Or.inl (Adds.clearTrans s)⟩

/-- A record other than a sample keeps none. -/
theorem opWriteEvent_kept {ev : Event} (hno : ∀ e, ev ≠ .sample e)
    (h : opWriteEvent cfg env s ev = some (rc, s')) : s'.unresolvedEvents = s.unresolvedEvents := by
  cases ev with
  | sample e => exact (hno e rfl).elim
  | mmap m =>
    simp only [opWriteEvent, handleMmapEvent, Option.map_eq_some_iff, Prod.mk.injEq, Option.bind_eq_bind,
      Option.bind_eq_some_iff] at h
    obtain ⟨s₁, ⟨m', hm', h⟩, -, rfl⟩ := h
    have hmapping : (eventMapping s m).1.unresolvedEvents = s.unresolvedEvents := by
      cases hknown : knownMapping s (opBasename m.filename) m.start with
      | some id => rw [eventMapping_known hknown]
      | none =>
        obtain ⟨images, heq⟩ := eventMapping_new hknown
        rw [heq]
        rfl
    split at h
    · cases h
      rw [← hmapping]
      unfold handleKernelMmap
      split_ifs <;> rfl
    · simp only [Option.bind_eq_some_iff] at h
      obtain ⟨t, -, t', -, h⟩ := h
      cases h
      exact hmapping
  | comm c =>
    simp only [opWriteEvent, handleCommEvent, Option.map_eq_some_iff, Prod.mk.injEq] at h
    obtain ⟨s₁, h, -, rfl⟩ := h
    split at h
    · simp only [Option.map_eq_some_iff] at h
      obtain ⟨t, -, rfl⟩ := h
      rfl
    · simp only [Option.map_eq_some_iff] at h
      obtain ⟨t, -, rfl⟩ := h
      rfl
  | fork f =>
    simp only [opWriteEvent, handleForkEvent, Option.map_eq_some_iff, Prod.mk.injEq, Option.bind_eq_bind,
      Option.bind_eq_some_iff] at h
    obtain ⟨s₁, ⟨t, -, h⟩, -, rfl⟩ := h
    split at h
    · cases h
      rfl
    · split at h
      · simp only [Option.bind_eq_some_iff] at h
        obtain ⟨t₁, -, t₂, -, h⟩ := h
        cases h
        rfl
      · split at h
        · cases h
          rfl
        · simp only [Option.bind_eq_some_iff] at h
          obtain ⟨t₁, -, h⟩ := h
          cases h
          rfl
  | throttle id =>
    simp only [opWriteEvent, handleThrottleEvent, Option.some.injEq] at h
    split at h <;> cases h <;> rfl
  | lost count =>
    cases h
    rfl
  | exit =>
    cases h
    rfl
  | other type =>
    simp only [opWriteEvent] at h
    split at h <;> cases h <;> rfl

end Kept

/-- What a pass has logged and counted for one sample. -/
structure Account where
  sample : SampleEvent
  logged : Nat
  lost : Nat
  deriving DecidableEq

def Account.between (e : SampleEvent) (s s' : OperfState) : Account :=
  ⟨e, s'.loggedSamples - s.loggedSamples, s'.lost - s.lost⟩

/-- The accounts of one record of the first pass, with whether its sample is kept for the second. -/
def recordAccounts (s s' : OperfState) : Event → List (Account × Bool)
  | .sample e => [(.between e s s', s'.unresolvedEvents.length != s.unresolvedEvents.length)]
  | _ => []

/-- The first pass, up to its end, with the accounts of its samples. -/
def firstPass (cfg : Config n) (env : Env) : List Event → OperfState →
    Option (List (Account × Bool) × OperfState)
  | [], s => some ([], s)
  | ev :: es, s => do
    let (rc, s₁) ← opWriteEvent cfg env s ev
    if rc < 0 then none
    else
      let (as, s') ← firstPass cfg env es s₁
      some (recordAccounts s s₁ ev ++ as, s')

def secondPass (cfg : Config n) (env : Env) : List SampleEvent → OperfState →
    Option (List Account × OperfState)
  | [], s => some ([], s)
  | e :: es, s => do
    let (rc, s₁) ← handleSampleEvent cfg env s e
    if rc < 0 then none
    else
      let (as, s') ← secondPass cfg env es s₁
      some (.between e s s₁ :: as, s')

/-- The samples kept get what the second pass has for them added. -/
def joinAccounts : List (Account × Bool) → List Account → List Account
  | [], _ => []
  | (a, false) :: as, bs => a :: joinAccounts as bs
  | (a, true) :: as, b :: bs =>
    ⟨a.sample, a.logged + b.logged, a.lost + b.lost⟩ :: joinAccounts as bs
  | (a, true) :: as, [] => a :: joinAccounts as []

/-- A conversion with the accounts of all its samples. -/
def convertAccounts (cfg : Config n) (env : Env) (es : List Event) (s : OperfState) :
    Option (List Account × OperfState) := do
  let (as, s₁) ← firstPass cfg env es s
  let s₂ ← settleProcesses { s₁ with firstTimeProcessing := false }
  let (bs, s₃) ← secondPass cfg env s₂.unresolvedEvents s₂
  some (joinAccounts as bs, s₃)

def Event.sample? : Event → Option SampleEvent
  | .sample e => some e
  | _ => none

section Passes

variable {as : List (Account × Bool)} {bs : List Account} {us : List SampleEvent}

theorem firstPass_cons {ev : Event} : firstPass cfg env (ev :: es) s = some (as, s') ↔
    ∃ rc s₁ as', opWriteEvent cfg env s ev = some (rc, s₁) ∧ ¬ rc < 0 ∧
      firstPass cfg env es s₁ = some (as', s') ∧ as = recordAccounts s s₁ ev ++ as' := by
  simp only [firstPass, Option.bind_eq_bind, Option.bind_eq_some_iff]
  constructor
  · rintro ⟨⟨rc, s₁⟩, hstep, h⟩
    split at h
    · cases h
    · rename_i hrc
      simp only [Option.bind_eq_some_iff] at h
      obtain ⟨⟨as', s₂⟩, hrest, h⟩ := h
      cases h
      exact ⟨rc, s₁, as', hstep, hrc, hrest, rfl⟩
  · rintro ⟨rc, s₁, as', hstep, hrc, hrest, rfl⟩
    refine ⟨(rc, s₁), hstep, ?_⟩
    simp only
    rw [if_neg hrc, hrest, Option.bind_some]

theorem secondPass_cons : secondPass cfg env (e :: us) s = some (bs, s') ↔
    ∃ rc s₁ bs', handleSampleEvent cfg env s e = some (rc, s₁) ∧ ¬ rc < 0 ∧
      secondPass cfg env us s₁ = some (bs', s') ∧ bs = .between e s s₁ :: bs' := by
  simp only [secondPass, Option.bind_eq_bind, Option.bind_eq_some_iff]
  constructor
  · rintro ⟨⟨rc, s₁⟩, hstep, h⟩
    split at h
    · cases h
    · rename_i hrc
      simp only [Option.bind_eq_some_iff] at h
      obtain ⟨⟨bs', s₂⟩, hrest, h⟩ := h
      cases h
      exact ⟨rc, s₁, bs', hstep, hrc, hrest, rfl⟩
  · rintro ⟨rc, s₁, bs', hstep, hrc, hrest, rfl⟩
    refine ⟨(rc, s₁), hstep, ?_⟩
    simp only
    rw [if_neg hrc, hrest, Option.bind_some]

/-- A handler returns zero or a negative number. -/
theorem handleSampleEvent_rc (h : handleSampleEvent cfg env s e = some (rc, s')) (hrc : ¬ rc < 0) :
    rc = 0 := by
  rcases handleSampleEvent_cases h with ⟨rfl, -⟩ | ⟨rfl, -⟩ | ⟨s₁, -, -, -, hstep⟩
  · exact absurd (by decide) hrc
  · rfl
  · have hle : rc ≤ 0 := by
      cases hstep with
      | skipped _ _ => exact le_refl 0
      | refused _ _ => decide
      | withheld _ _ => exact le_refl 0
      | unattributed _ _ => exact le_refl 0
      | fast _ _ hfin => exact le_of_eq (finishSample_found hfin).1
      | lookup _ _ hfin => exact le_of_eq (finishSample_found hfin).1
    omega

theorem opWriteEvent_rc {ev : Event} (h : opWriteEvent cfg env s ev = some (rc, s')) (hrc : ¬ rc < 0) :
    rc = 0 := by
  cases ev with
  | sample e => exact handleSampleEvent_rc h hrc
  | throttle id =>
    simp only [opWriteEvent, handleThrottleEvent, Option.some.injEq] at h
    split at h
    · cases h
      rfl
    · cases h
      exact absurd (by decide) hrc
  | other type =>
    simp only [opWriteEvent] at h
    split at h
    · cases h
      exact absurd (by decide) hrc
    · cases h
      rfl
  | lost count =>
    cases h
    rfl
  | exit =>
    cases h
    rfl
  | mmap m =>
    simp only [opWriteEvent, Option.map_eq_some_iff, Prod.mk.injEq] at h
    obtain ⟨_, -, rfl, -⟩ := h
    rfl
  | comm c =>
    simp only [opWriteEvent, Option.map_eq_some_iff, Prod.mk.injEq] at h
    obtain ⟨_, -, rfl, -⟩ := h
    rfl
  | fork f =>
    simp only [opWriteEvent, Option.map_eq_some_iff, Prod.mk.injEq] at h
    obtain ⟨_, -, rfl, -⟩ := h
    rfl

/-- What the first pass is to keep: nothing of a sample counted yet. -/
def FirstOk (cfg : Config n) (a : Account × Bool) : Prop :=
  UserOrKernel a.1.sample →
    (a.2 = true ∧ a.1.logged = 0 ∧ a.1.lost = 0) ∨
      (a.2 = false ∧ Settled cfg a.1.sample a.1.logged a.1.lost)

theorem Adds.account {l x : Nat} {ks : List SampleEvent} (h : Adds l x ks s s') :
    Account.between e s s' = ⟨e, l, x⟩ := by
  rw [Account.between, h.logged, h.lost, Nat.add_sub_cancel_left, Nat.add_sub_cancel_left]

theorem Adds.keeps {l x : Nat} {ks : List SampleEvent} (h : Adds l x ks s s') :
    (s'.unresolvedEvents.length != s.unresolvedEvents.length) = !ks.isEmpty := by
  rw [h.kept, List.length_append]
  cases ks <;> simp

/-- The conditions on the samples of a list of records, each in the state it is handled in. -/
def FirstAccountable (cfg : Config n) (env : Env) (es : List Event) (s : OperfState) : Prop :=
  ∀ pre e, pre ++ [.sample e] <+: es → ∀ s', writeEvents cfg env pre s = some (0, s') →
    Accountable cfg env s' e

def SecondAccountable (cfg : Config n) (env : Env) (us : List SampleEvent) (s : OperfState) : Prop :=
  ∀ pre e, pre ++ [e] <+: us → ∀ s', resolveEvents cfg env pre s = some (0, s') →
    Accountable cfg env s' e

theorem FirstAccountable.head (h : FirstAccountable cfg env (.sample e :: es) s) :
    Accountable cfg env s e :=
  h [] e ⟨es, rfl⟩ s rfl

theorem FirstAccountable.tail {ev : Event} (h : FirstAccountable cfg env (ev :: es) s)
    (hstep : opWriteEvent cfg env s ev = some (0, s')) : FirstAccountable cfg env es s' := by
  intro pre e hpre s'' hrun
  refine h (ev :: pre) e ?_ s'' ?_
  · obtain ⟨rest, hrest⟩ := hpre
    exact ⟨rest, by rw [← hrest]; rfl⟩
  · simp [writeEvents, hstep, hrun]

theorem SecondAccountable.head (h : SecondAccountable cfg env (e :: us) s) : Accountable cfg env s e :=
  h [] e ⟨us, rfl⟩ s rfl

theorem SecondAccountable.tail (h : SecondAccountable cfg env (e :: us) s)
    (hstep : handleSampleEvent cfg env s e = some (0, s')) : SecondAccountable cfg env us s' := by
  intro pre e' hpre s'' hrun
  refine h (e :: pre) e' ?_ s'' ?_
  · obtain ⟨rest, hrest⟩ := hpre
    exact ⟨rest, by rw [← hrest]; rfl⟩
  · simp [resolveEvents, hstep, hrun]

/-- The first pass settles its samples or keeps them, in their order. -/
theorem firstPass_accounts (hc : Coherent cfg s) (hfirst : s.firstTimeProcessing = true)
    (hacc : FirstAccountable cfg env es s) (h : firstPass cfg env es s = some (as, s')) :
    writeEvents cfg env es s = some (0, s') ∧ Coherent cfg s' ∧
      (∀ a ∈ as, FirstOk cfg a) ∧ as.map (·.1.sample) = es.filterMap Event.sample? ∧
      s'.unresolvedEvents = s.unresolvedEvents ++ (as.filter (·.2)).map (·.1.sample) := by
  induction es generalizing s as with
  | nil =>
    cases h
    exact ⟨rfl, hc, fun a ha => (by cases ha), rfl, (List.append_nil _).symm⟩
  | cons ev es ih =>
    obtain ⟨rc, s₁, as', hstep, hrc, hrest, rfl⟩ := firstPass_cons.mp h
    obtain rfl := opWriteEvent_rc hstep hrc
    have hfirst₁ : s₁.firstTimeProcessing = true := by rw [opWriteEvent_firstTime hstep, hfirst]
    obtain ⟨hrun, hc', hok, hsamples, hkept⟩ :=
      ih (hc.opWriteEvent hstep) hfirst₁ (hacc.tail hstep) hrest
    refine ⟨by simp [writeEvents, hstep, hrun], hc', ?_⟩
    cases ev with
    | sample e =>
      obtain ⟨l, x, ks, hadds, hks⟩ : ∃ l x ks, Adds l x ks s s₁ ∧ (ks = [] ∨ ks = [e]) := by
        obtain ⟨l, x, ha | ⟨-, ha⟩⟩ := handleSampleEvent_keepsFirst hc hstep
        · exact ⟨l, x, [], ha, Or.inl rfl⟩
        · exact ⟨l, x, [e], ha, Or.inr rfl⟩
      have haccount : recordAccounts s s₁ (.sample e) = [(⟨e, l, x⟩, !ks.isEmpty)] := by
        rw [recordAccounts, hadds.account, hadds.keeps]
      rw [haccount]
      refine ⟨fun a ha => ?_, ?_, ?_⟩
      · rcases List.mem_append.mp ha with ha | ha
        · obtain rfl := List.mem_singleton.mp ha
          intro hue
          rcases handleSampleEvent_keptOrSettled hc.process hacc.head hue hstep with
            ⟨-, hkeep⟩ | ⟨l', x', hset, hsettled⟩
          · refine Or.inl ⟨?_, ?_, ?_⟩
            · rw [← hadds.keeps, hkeep.keeps]
              rfl
            · exact Nat.add_left_cancel (hadds.logged.symm.trans hkeep.logged)
            · exact Nat.add_left_cancel (hadds.lost.symm.trans hkeep.lost)
          · have hl : l = l' := Nat.add_left_cancel (hadds.logged.symm.trans hset.logged)
            have hx : x = x' := Nat.add_left_cancel (hadds.lost.symm.trans hset.lost)
            refine Or.inr ⟨?_, by rw [hl, hx]; exact hsettled⟩
            rw [← hadds.keeps, hset.keeps]
            rfl
        · exact hok a ha
      · simp [hsamples, Event.sample?]
      · rw [hkept, hadds.kept]
        rcases hks with rfl | rfl
        · simp
        · simp
    | _ =>
      have hsame := opWriteEvent_kept (fun e he => by cases he) hstep
      rw [hsame] at hkept
      exact ⟨hok, hsamples, hkept⟩

/-- The second pass settles its samples. -/
theorem secondPass_accounts (hc : Coherent cfg s) (hsecond : s.firstTimeProcessing = false)
    (hacc : SecondAccountable cfg env us s) (h : secondPass cfg env us s = some (bs, s')) :
    resolveEvents cfg env us s = some (0, s') ∧ bs.map (·.sample) = us ∧
      ∀ b ∈ bs, UserOrKernel b.sample → Settled cfg b.sample b.logged b.lost := by
  induction us generalizing s bs with
  | nil =>
    cases h
    exact ⟨rfl, rfl, fun b hb => (by cases hb)⟩
  | cons e us ih =>
    obtain ⟨rc, s₁, bs', hstep, hrc, hrest, rfl⟩ := secondPass_cons.mp h
    obtain rfl := handleSampleEvent_rc hstep hrc
    have hsecond₁ : s₁.firstTimeProcessing = false := by
      rw [handleSampleEvent_firstTime hstep, hsecond]
    obtain ⟨hrun, hsamples, hok⟩ := ih (hc.handleSampleEvent hstep) hsecond₁ (hacc.tail hstep) hrest
    refine ⟨by simp [resolveEvents, hstep, hrun], by rw [List.map_cons, hsamples]; rfl, fun b hb hue => ?_⟩
    rcases List.mem_cons.mp hb with rfl | hb
    · rcases handleSampleEvent_keptOrSettled hc.process hacc.head hue hstep with
        ⟨hpass, -⟩ | ⟨l, x, hset, hsettled⟩
      · exact absurd (hpass.symm.trans hsecond) Bool.noConfusion
      · rw [hset.account]
        exact hsettled
    · exact hok b hb hue

/-- The kept samples are the ones the second pass has accounts of. -/
theorem joinAccounts_settled (hfirst : ∀ a ∈ as, FirstOk cfg a)
    (hsecond : ∀ b ∈ bs, UserOrKernel b.sample → Settled cfg b.sample b.logged b.lost)
    (hsame : bs.map (·.sample) = (as.filter (·.2)).map (·.1.sample)) :
    (∀ a ∈ joinAccounts as bs, UserOrKernel a.sample → Settled cfg a.sample a.logged a.lost) ∧
      (joinAccounts as bs).map (·.sample) = as.map (·.1.sample) := by
  induction as generalizing bs with
  | nil => exact ⟨fun a ha => (by cases ha), rfl⟩
  | cons a as ih =>
    obtain ⟨a, kept⟩ := a
    have hhead := hfirst (a, kept) List.mem_cons_self
    have htail : ∀ a ∈ as, FirstOk cfg a := fun a' ha' => hfirst a' (List.mem_cons_of_mem _ ha')
    cases kept with
    | false =>
      rw [List.filter_cons_of_neg Bool.false_ne_true] at hsame
      obtain ⟨hok, hsamples⟩ := ih htail hsecond hsame
      refine ⟨fun b hb hue => ?_, by rw [joinAccounts, List.map_cons, hsamples]; rfl⟩
      rcases List.mem_cons.mp hb with rfl | hb
      · exact ((hhead hue).resolve_left fun hk => Bool.noConfusion hk.1).2
      · exact hok b hb hue
    | true =>
      rw [List.filter_cons_of_pos rfl, List.map_cons] at hsame
      cases bs with
      | nil => cases hsame
      | cons b bs =>
        rw [List.map_cons, List.cons.injEq] at hsame
        obtain ⟨hsample, hsame⟩ := hsame
        obtain ⟨hok, hsamples⟩ :=
          ih htail (fun b' hb' => hsecond b' (List.mem_cons_of_mem _ hb')) hsame
        refine ⟨fun c hcm hue => ?_, by rw [joinAccounts, List.map_cons, hsamples]; rfl⟩
        rcases List.mem_cons.mp hcm with rfl | hcm
        · have hkept := (hhead hue).resolve_right fun hk => Bool.noConfusion hk.1
          have hset := hsecond b List.mem_cons_self (by rw [hsample]; exact hue)
          rw [hsample] at hset
          simp only
          rw [hkept.2.1, hkept.2.2, Nat.zero_add, Nat.zero_add]
          exact hset
        · exact hok c hcm hue

end Passes

/-- The configuration with another verbosity. -/
def Config.tell (cfg : Config n) (v : Bool) : Config n := { cfg with vconvert := v }

section Verbosity

variable {v found : Bool} {us : List SampleEvent}

/-- Only a sample without a process is counted or not as the verbosity says. -/
theorem getOperfTrans_tell {hv kernelMode : Bool}
    (h : s.firstTimeProcessing = true ∨ sampleProcess s data.pid ≠ none) :
    getOperfTrans (cfg.tell v) s data hv kernelMode = getOperfTrans cfg s data hv kernelMode := by
  unfold getOperfTrans
  cases hproc : sampleProcess s data.pid with
  | some proc => rfl
  | none =>
    have hfirst : s.firstTimeProcessing = true := h.resolve_right fun hne => hne hproc
    simp [hfirst]

theorem About.known {pid : UInt32} (h : About s pid) : Operf.sampleProcess s pid ≠ none := by
  obtain ⟨proc, hproc, -⟩ := h.sampleProcess
  rw [hproc]
  exact Option.some_ne_none proc

theorem callchainAddress_tell {mode : Bool} {ip : UInt64} (habout : About s data.pid) :
    callchainAddress (cfg.tell v) env data (mode, s) ip = callchainAddress cfg env data (mode, s) ip := by
  have hget : getOperfTrans (cfg.tell v) s { data with ip := ip } false mode =
      getOperfTrans cfg s { data with ip := ip } false mode := getOperfTrans_tell (Or.inr habout.known)
  simp only [callchainAddress, hget]
  rfl

theorem callchain_tell {ips : List UInt64} {mode : Bool} (habout : About s data.pid) :
    ips.foldlM (callchainAddress (cfg.tell v) env data) (mode, s) =
      ips.foldlM (callchainAddress cfg env data) (mode, s) := by
  induction ips generalizing mode s with
  | nil => rfl
  | cons ip ips ih =>
    rw [List.foldlM_cons, List.foldlM_cons, callchainAddress_tell habout]
    refine Option.bind_congr fun r hr => ?_
    obtain ⟨mode₁, s₁⟩ := r
    exact ih (callchainAddress_about habout hr)

theorem handleCallchain_tell (habout : About s e.data.pid) :
    handleCallchain (cfg.tell v) env s e = handleCallchain cfg env s e := by
  simp only [handleCallchain, callchain_tell habout]

theorem finishSample_tell (habout : found = true → About s e.data.pid) :
    finishSample (cfg.tell v) env s e found = finishSample cfg env s e found := by
  simp only [finishSample]
  split
  · rename_i hfound
    have hlog : operfSfileLogSample (cfg.tell v) env s = operfSfileLogSample cfg env s := rfl
    rw [hlog]
    refine Option.bind_congr fun s₁ hs₁ => ?_
    obtain ⟨-, -, -, htrans⟩ := operfSfileLogSample_adds hs₁
    have habout₁ : About s₁.updateTransLast e.data.pid := by
      refine (habout hfound.1).of_trans ?_ ?_
      · rw [OperfState.updateTransLast, htrans]
      · rw [OperfState.updateTransLast, htrans]
    rw [handleCallchain_tell habout₁]
    rfl
  · rfl

theorem findTrans_tell (h : s.firstTimeProcessing = true ∨ sampleProcess s e.data.pid ≠ none) :
    findTrans (cfg.tell v) s e inKernel = findTrans cfg s e inKernel := by
  simp only [findTrans, getOperfTrans_tell h]
  rfl

/-- What is found is found for the process of the sample. -/
theorem findTrans_about (h : findTrans cfg s e inKernel = some (true, s')) : About s' e.data.pid := by
  simp only [findTrans, Option.bind_eq_bind, Option.bind_eq_some_iff] at h
  obtain ⟨⟨found, s₁⟩, hget, h⟩ := h
  obtain ⟨-, -, ⟨rfl, p, m, -, rfl⟩ | ⟨rfl, -⟩⟩ := getOperfTrans_adds hget
  · simp only [if_true, Option.bind_eq_some_iff] at h
    obtain ⟨s₂, hfind, h⟩ := h
    cases h
    obtain ⟨-, -, htgid, hcur, -⟩ := findCurrent_adds hfind
    refine ⟨by rw [htgid]; rfl, fun q hq => ?_⟩
    rw [hcur] at hq
    exact (Option.some_inj.mp hq).symm
  · cases h

theorem handleDomainSample_tell (hown : OwnerKnown s)
    (h : s.firstTimeProcessing = true ∨ sampleProcess s e.data.pid ≠ none) :
    handleDomainSample (cfg.tell v) env s e inKernel = handleDomainSample cfg env s e inKernel := by
  have hverify : verifySample (cfg.tell v) s e inKernel = verifySample cfg s e inKernel := rfl
  simp only [handleDomainSample, hverify]
  refine Option.bind_congr fun r hr => ?_
  obtain ⟨verdict, s₁⟩ := r
  rcases verifySample_cases hr with ⟨-, rfl, rfl⟩ | ⟨-, rfl, rfl⟩ | ⟨-, rfl, rfl⟩ | ⟨-, rfl, rfl⟩ |
    ⟨-, rfl, rfl⟩ | ⟨t, -, hfast, rfl, rfl⟩
  · rfl
  · rfl
  · rfl
  · rfl
  · obtain ⟨-, -, ht, -⟩ := withEvent_pid cfg s e.data.id
    have hknown : (withEvent cfg s e.data.id).firstTimeProcessing = true ∨
        sampleProcess (withEvent cfg s e.data.id) e.data.pid ≠ none := by
      rw [ht.firstTime, sampleProcess_withEvent]
      exact h
    simp only [findTrans_tell hknown]
    refine Option.bind_congr fun r' hr' => ?_
    obtain ⟨found, s₂⟩ := r'
    refine finishSample_tell fun hfound => ?_
    subst hfound
    exact findTrans_about hr'
  · refine finishSample_tell fun _ => ?_
    have htgid := (fastPath_spec hfast).1
    obtain ⟨tid, pc, rfl⟩ := fastPath_some hfast
    exact ⟨htgid, (hown.about htgid).process⟩

/-- A sample in the first pass, or of a known process, is handled alike under every verbosity. -/
theorem handleSampleEvent_tell (hc : Coherent cfg s)
    (h : s.firstTimeProcessing = true ∨ sampleProcess s e.data.pid ≠ none) :
    handleSampleEvent (cfg.tell v) env s e = handleSampleEvent cfg env s e := by
  unfold handleSampleEvent
  have htype : (cfg.tell v).sampleType = cfg.sampleType := rfl
  have harch : (cfg.tell v).ppc64Arch = cfg.ppc64Arch := rfl
  have hmap : ∀ s ip pid, mapHypervisorSample (cfg.tell v) env s ip pid =
      mapHypervisorSample cfg env s ip pid := fun _ _ _ => rfl
  simp only [htype, harch, hmap, handleDomainSample_tell hc.process h]
  by_cases hfirst : s.firstTimeProcessing = true
  · simp only [hfirst, if_true]
    have hbind : (mapHypervisorSample cfg env s e.data.ip e.data.pid).bind
          (fun s₁ => handleDomainSample (cfg.tell v) env s₁ e false) =
        (mapHypervisorSample cfg env s e.data.ip e.data.pid).bind
          fun s₁ => handleDomainSample cfg env s₁ e false := by
      refine Option.bind_congr fun s₁ hs₁ => ?_
      have hun := mapHypervisorSample_untouched hs₁
      exact handleDomainSample_tell (hc.untouched hun).process (Or.inl (by rw [hun.firstTime, hfirst]))
    simp only [Option.bind_eq_bind, hbind]
  · simp only [hfirst, Bool.false_eq_true, if_false]

theorem opWriteEvent_tell {ev : Event} (hc : Coherent cfg s) (hfirst : s.firstTimeProcessing = true) :
    opWriteEvent (cfg.tell v) env s ev = opWriteEvent cfg env s ev := by
  cases ev with
  | sample e => exact handleSampleEvent_tell hc (Or.inl hfirst)
  | _ => rfl

theorem writeEvents_tell (hc : Coherent cfg s) (hfirst : s.firstTimeProcessing = true) :
    writeEvents (cfg.tell v) env es s = writeEvents cfg env es s := by
  induction es generalizing s with
  | nil => rfl
  | cons ev es ih =>
    simp only [writeEvents, opWriteEvent_tell hc hfirst]
    refine Option.bind_congr fun r hr => ?_
    obtain ⟨rc, s₁⟩ := r
    split
    · rfl
    · exact ih (hc.opWriteEvent hr) (by rw [opWriteEvent_firstTime hr, hfirst])

/-- The second pass is the same under every verbosity where the processes are known. -/
theorem resolveEvents_tell (hc : Coherent cfg s) (hacc : SecondAccountable cfg env us s)
    (hsecond : s.firstTimeProcessing = false) (h : resolveEvents cfg env us s = some (0, s')) :
    resolveEvents (cfg.tell v) env us s = some (0, s') := by
  induction us generalizing s with
  | nil => exact h
  | cons e us ih =>
    simp only [resolveEvents, handleSampleEvent_tell hc (Or.inr (hacc.head.process hsecond)),
      Option.bind_eq_bind, Option.bind_eq_some_iff] at h ⊢
    obtain ⟨⟨rc, s₁⟩, hstep, h⟩ := h
    refine ⟨(rc, s₁), hstep, ?_⟩
    simp only at h ⊢
    split at h
    · rename_i hneg
      cases h
      exact absurd hneg (by decide)
    · rename_i hrc
      rw [if_neg hrc]
      obtain rfl := handleSampleEvent_rc hstep hrc
      exact ih (hc.handleSampleEvent hstep) (hacc.tail hstep)
        (by rw [handleSampleEvent_firstTime hstep, hsecond]) h

end Verbosity

/-- No sample disappears in a conversion all of whose samples are accounted for when they are handled:
each is logged once, counted once as lost or dropped by its event, over both passes, and the
conversion is the same under every verbosity. -/
theorem no_sample_disappears (cfg : Config n) (env : Env) (images : KernelImages) (es : List Event)
    (as : List Account) (s' : OperfState)
    (hrun : convertAccounts cfg env es (initialState images) = some (as, s'))
    (hfirst : FirstAccountable cfg env es (initialState images))
    (hsecond : ∀ s₁ s₂, writeEvents cfg env es (initialState images) = some (0, s₁) →
      settleProcesses { s₁ with firstTimeProcessing := false } = some s₂ →
      SecondAccountable cfg env s₂.unresolvedEvents s₂) :
    as.map (·.sample) = es.filterMap Event.sample? ∧
      (∀ a ∈ as, UserOrKernel a.sample → Settled cfg a.sample a.logged a.lost) ∧
      ∀ v, convertPerfData (cfg.tell v) env es (initialState images) = some (0, s') := by
  simp only [convertAccounts, Option.bind_eq_bind, Option.bind_eq_some_iff] at hrun
  obtain ⟨⟨firsts, s₁⟩, hpass₁, s₂, hsettle, ⟨seconds, s₃⟩, hpass₂, hrun⟩ := hrun
  cases hrun
  have hc := coherent_initialState cfg images
  obtain ⟨hwrite, hc₁, hok, hsamples, hkept⟩ := firstPass_accounts hc rfl hfirst hpass₁
  have hstart : Coherent cfg { s₁ with firstTimeProcessing := false } := hc₁.of_eq rfl rfl rfl fun hi => hi
  have hun := settleProcesses_untouched hsettle
  have hc₂ : Coherent cfg s₂ := hstart.untouched hun
  have hpass : s₂.firstTimeProcessing = false := hun.firstTime
  have hsame : s₂.unresolvedEvents = s₁.unresolvedEvents := by
    simp only [settleProcesses, Option.bind_eq_bind, Option.bind_eq_some_iff] at hsettle
    obtain ⟨t, -, hsettle⟩ := hsettle
    cases hsettle
    rfl
  have hacc := hsecond s₁ s₂ hwrite hsettle
  obtain ⟨hresolve, hagain, hsettled⟩ := secondPass_accounts hc₂ hpass hacc hpass₂
  have hjoin : seconds.map (·.sample) = (firsts.filter (·.2)).map (·.1.sample) := by
    rw [hagain, hsame, hkept]
    rfl
  obtain ⟨hall, hjoined⟩ := joinAccounts_settled hok hsettled hjoin
  refine ⟨hjoined.trans hsamples, hall, fun v => ?_⟩
  simp only [convertPerfData, writeEvents_tell hc rfl, Option.bind_eq_bind, Option.bind_eq_some_iff]
  refine ⟨(0, s₁), hwrite, ?_⟩
  simp only
  rw [if_neg (by decide), Option.bind_eq_some_iff]
  exact ⟨s₂, hsettle, resolveEvents_tell hc₂ hacc hpass hresolve⟩

/-- A process whose mapping is recorded between its two samples. -/
def lateMapping : List Event :=
  [.comm ⟨10, 10, ['b']⟩, .sample (userSample 0x1100 11),
    .mmap ⟨perfRecordMiscUser, 10, 0x1000, 0x1000, 0, ['/', 'b']⟩, .sample (userSample 0x1200 12)]

theorem writeEvents_firstTime (h : writeEvents cfg env es s = some (rc, s')) :
    s'.firstTimeProcessing = s.firstTimeProcessing := by
  induction es generalizing s with
  | nil =>
    cases h
    rfl
  | cons ev es ih =>
    simp only [writeEvents, Option.bind_eq_bind, Option.bind_eq_some_iff] at h
    obtain ⟨⟨rc₁, s₁⟩, hstep, h⟩ := h
    simp only at h
    split at h
    · cases h
      exact opWriteEvent_firstTime hstep
    · exact (ih h).trans (opWriteEvent_firstTime hstep)

theorem accountable_userSample {ip id : UInt64} (hsecond : s.firstTimeProcessing = false →
    sampleProcess s 10 ≠ none ∧ s.trans.current.isSome = true) :
    Accountable twoEvents quietEnv s (userSample ip id) where
  domain _ _ := Or.inr rfl
  pid _ _ _ := show (10 : UInt32) ≠ 0 by decide
  event _ evt hevt hno := by
    have hmem := List.mem_of_getElem? hevt
    simp only [twoEvents, List.mem_cons, List.not_mem_nil, or_false, or_self] at hmem
    rw [hmem] at hno
    cases hno
  image _ hmisc := absurd hmisc (show perfRecordMiscUser ≠ perfRecordMiscKernel by decide)
  process hpass := (hsecond hpass).1
  current hpass _ := (hsecond hpass).2
  chain hcall := by cases hcall

/-- The first sample is logged in the second pass, the second in the first. -/
theorem no_sample_disappears_late : ∃ as s',
    convertAccounts twoEvents quietEnv lateMapping (initialState noVmlinux) = some (as, s') ∧
    s'.stats .samples = 2 ∧
    as.map (·.sample) = lateMapping.filterMap Event.sample? ∧
    (∀ a ∈ as, UserOrKernel a.sample → Settled twoEvents a.sample a.logged a.lost) ∧
    ∀ v, convertPerfData (twoEvents.tell v) quietEnv lateMapping (initialState noVmlinux) = some (0, s') := by
  have hrun : (convertAccounts twoEvents quietEnv lateMapping (initialState noVmlinux)).map
      (fun r => r.2.stats .samples) = some 2 := by decide
  have hbetween : ((writeEvents twoEvents quietEnv lateMapping (initialState noVmlinux)).bind fun r =>
      (settleProcesses { r.2 with firstTimeProcessing := false }).map fun s =>
        (s.unresolvedEvents, (sampleProcess s 10).isSome, s.trans.current.isSome)) =
      some ([userSample 0x1100 11], true, true) := by decide
  obtain ⟨⟨as, s'⟩, hrun, hstats⟩ := Option.map_eq_some_iff.mp hrun
  refine ⟨as, s', hrun, hstats, no_sample_disappears twoEvents quietEnv noVmlinux lateMapping as s' hrun
    (fun pre e hpre s₁ hs₁ => ?_) fun s₁ s₂ hs₁ hs₂ pre e hpre s₃ hs₃ => ?_⟩
  · have hfirst : s₁.firstTimeProcessing = true := writeEvents_firstTime hs₁
    have hmem : Event.sample e ∈ lateMapping :=
      hpre.subset (List.mem_append_right pre List.mem_cons_self)
    have huser : e = userSample 0x1100 11 ∨ e = userSample 0x1200 12 := by
      simpa [lateMapping] using hmem
    rcases huser with rfl | rfl
    · exact accountable_userSample fun hpass => absurd (hfirst.symm.trans hpass) Bool.noConfusion
    · exact accountable_userSample fun hpass => absurd (hfirst.symm.trans hpass) Bool.noConfusion
  · rw [hs₁, Option.bind_some, hs₂, Option.map_some, Option.some_inj, Prod.mk.injEq, Prod.mk.injEq] at hbetween
    obtain ⟨hun, hproc, hcur⟩ := hbetween
    rw [hun] at hpre
    have hlen := hpre.length_le
    rw [List.length_append, List.length_singleton, List.length_singleton] at hlen
    obtain rfl : pre = [] := List.length_eq_zero_iff.mp (by omega)
    obtain rfl := List.mem_singleton.mp (hpre.subset List.mem_cons_self)
    cases hs₃
    refine accountable_userSample fun _ => ⟨fun hnone => ?_, hcur⟩
    rw [hnone] at hproc
    cases hproc

/-- A user sample with PERF_RECORD_MISC_EXACT_IP set, from the mapping, is neither logged nor counted. -/
theorem exact_ip_sample_disappears : ∃ as s',
    convertAccounts twoEvents quietEnv (processRecords ++ [.sample ⟨0x4002, ⟨0x1100, 10, 10, 11, 0⟩, []⟩])
      (initialState noVmlinux) = some (as, s') ∧
    ∃ a ∈ as, UserOrKernel a.sample ∧ ¬Settled twoEvents a.sample a.logged a.lost := by
  have hrun : (convertAccounts twoEvents quietEnv
      (processRecords ++ [.sample ⟨0x4002, ⟨0x1100, 10, 10, 11, 0⟩, []⟩]) (initialState noVmlinux)).map
        Prod.fst = some [⟨⟨0x4002, ⟨0x1100, 10, 10, 11, 0⟩, []⟩, 0, 0⟩] := by decide
  simp only [Option.map_eq_some_iff] at hrun
  obtain ⟨⟨as, s'⟩, hrun, rfl⟩ := hrun
  refine ⟨_, s', hrun, _, List.mem_cons_self, Or.inr (by decide), ?_⟩
  rintro (⟨hl, -⟩ | ⟨-, hx⟩ | ⟨hf, -, -⟩)
  · cases hl
  · cases hx
  · obtain ⟨-, -, evt, hevt, hno⟩ := hf
    have hmem := List.mem_of_getElem? hevt
    simp only [twoEvents, List.mem_cons, List.not_mem_nil, or_false, or_self] at hmem
    rw [hmem] at hno
    cases hno

end Oprofile.Operf
