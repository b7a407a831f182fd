import Oprofile.Operf.ProcessInfo

/-! An application name that is known stays. -/
namespace Oprofile.Operf

variable {env : Env} {t t' t'' : Processes} {p q : ProcessInfo} {pid : UInt32}

/-- A fold in which every step keeps a relation to what came before. -/
theorem foldlM_rel {α β : Type} {R : β → β → Prop} (hrefl : ∀ b : β, R b b)
    (htrans : ∀ a b c, R a b → R b c → R a c) {f : β → α → Option β}
    (hf : ∀ b x b', f b x = some b' → R b b') {xs : List α} {b b' : β}
    (h : xs.foldlM f b = some b') : R b b' := by
  induction xs generalizing b with
  | nil =>
    cases h
    exact hrefl _
  | cons x xs ih =>
    rw [List.foldlM_cons, Option.bind_eq_bind, Option.bind_eq_some_iff] at h
    obtain ⟨c, hc, h⟩ := h
    exact htrans _ _ _ (hf _ _ _ hc) (ih h)

namespace ProcessInfo

@[simp] theorem checkMappingForAppname_pid (p : ProcessInfo) (m : OperfMmap) :
    (p.checkMappingForAppname m).pid = p.pid := by
  simp only [checkMappingForAppname]
  split_ifs <;> rfl

@[simp] theorem findBestMatchAppnameAllMappings_pid (p : ProcessInfo) (ms : List OperfMmap) :
    (p.findBestMatchAppnameAllMappings ms).pid = p.pid := by
  have hfold : ∀ (ms : List OperfMmap) (p : ProcessInfo),
      (ms.foldl checkMappingForAppname p).pid = p.pid := by
    intro ms
    induction ms with
    | nil => exact fun _ => rfl
    | cons m ms ih =>
      intro p
      rw [List.foldl_cons, ih, checkMappingForAppname_pid]
  simp only [findBestMatchAppnameAllMappings]
  split_ifs
  · rfl
  · exact hfold ms p

@[simp] theorem nameFrom_pid (p : ProcessInfo) (link name : Option CString) (full : Bool) :
    (p.nameFrom link name full).pid = p.pid := by
  unfold nameFrom
  cases link with
  | some exe =>
    simp only
    split_ifs <;> rfl
  | none =>
    cases name with
    | none => rfl
    | some name =>
      simp only
      split_ifs <;> rfl

@[simp] theorem setAppname_pid (p : ProcessInfo) (link : Option CString) (ms : List OperfMmap)
    (name : Option CString) (full : Bool) : (p.setAppname link ms name full).pid = p.pid := by
  simp only [setAppname]
  split_ifs <;> simp

/-- Nothing is done once the name is known. -/
theorem setAppname_of_valid (hv : p.appnameValid = true) (link : Option CString)
    (ms : List OperfMmap) (name : Option CString) (full : Bool) :
    p.setAppname link ms name full = p := by
  simp only [setAppname, hv, if_true]

end ProcessInfo

/-- Every process is filed under its own pid. -/
def Keyed (t : Processes) : Prop := ∀ pid p, t.find pid = some p → p.pid = pid

/-- Processes with a known application keep it. -/
def NamesKept (t t' : Processes) : Prop :=
  ∀ pid p, t.find pid = some p → p.isAppnameValid = true →
    ∃ p', t'.find pid = some p' ∧ p'.isAppnameValid = true ∧ p'.appname = p.appname

/-- What every operation on the processes does to the names. -/
def Grows (t t' : Processes) : Prop := Keyed t → Keyed t' ∧ NamesKept t t'

theorem Grows.refl (t : Processes) : Grows t t :=
  fun hk => ⟨hk, fun _ p hp hv => ⟨p, hp, hv, rfl⟩⟩

theorem Grows.trans (h : Grows t t') (h' : Grows t' t'') : Grows t t'' := by
  intro hk
  obtain ⟨hk', hn⟩ := h hk
  obtain ⟨hk'', hn'⟩ := h' hk'
  refine ⟨hk'', fun pid p hp hv => ?_⟩
  obtain ⟨p', hp', hv', hname⟩ := hn pid p hp hv
  obtain ⟨p'', hp'', hv'', hname'⟩ := hn' pid p' hp' hv'
  exact ⟨p'', hp'', hv'', hname'.trans hname⟩

theorem foldlM_grows {α : Type} {f : Processes → α → Option Processes}
    (hf : ∀ t x t', f t x = some t' → Grows t t') {xs : List α}
    (h : xs.foldlM f t = some t') : Grows t t' :=
  foldlM_rel Grows.refl (fun _ _ _ => Grows.trans) hf h

@[simp] theorem find_set_self (t : Processes) (p : ProcessInfo) : (t.set p).find p.pid = some p := by
  simp [Processes.find, Processes.set]

theorem find_set_ne (t : Processes) (h : pid ≠ p.pid) : (t.set p).find pid = t.find pid := by
  simp [Processes.find, Processes.set, KeyMap.find_insert_ne h]

theorem find_set_of_pid (t : Processes) (h : p.pid = pid) : (t.set p).find pid = some p := by
  rw [← h, find_set_self]

theorem find_set_of_ne {j : UInt32} (t : Processes) (h : p.pid = pid) (hj : j ≠ pid) :
    (t.set p).find j = t.find j := find_set_ne t (by rwa [h])

theorem keyed_set (hk : Keyed t) (p : ProcessInfo) : Keyed (t.set p) := by
  intro pid q hq
  by_cases hpid : pid = p.pid
  · rw [find_set_of_pid t hpid.symm] at hq
    cases hq
    exact hpid.symm
  · rw [find_set_ne t hpid] at hq
    exact hk pid q hq

/-- Filing a process that keeps the name of the one it replaces. -/
theorem set_grows (h : ∀ q, t.find p.pid = some q → q.isAppnameValid = true →
    p.isAppnameValid = true ∧ p.appname = q.appname) : Grows t (t.set p) := by
  intro hk
  constructor
  · exact keyed_set hk p
  · intro pid q hq hv
    by_cases hpid : pid = p.pid
    · rw [hpid] at hq ⊢
      obtain ⟨hv', hname⟩ := h q hq hv
      exact ⟨p, find_set_self t p, hv', hname⟩
    · exact ⟨q, by rw [find_set_ne t hpid, hq], hv, rfl⟩

/-- Filing a process again with other mappings or relations. -/
theorem set_update_grows (hp : t.find pid = some p) (hpid : q.pid = p.pid)
    (hv : p.isAppnameValid = true → q.isAppnameValid = true ∧ q.appname = p.appname) :
    Grows t (t.set q) := by
  intro hk
  refine set_grows (fun r hr hrv => ?_) hk
  rw [hpid, hk pid p hp, hp] at hr
  cases hr
  exact hv hrv

/-- Only `process_map` matters for the names. -/
theorem grows_of_find (h : ∀ pid, t'.find pid = t.find pid) : Grows t t' := by
  intro hk
  refine ⟨fun pid p hp => hk pid p (h pid ▸ hp), fun pid p hp hv => ⟨p, ?_, hv, rfl⟩⟩
  rw [h pid, hp]

namespace Processes

theorem setAppname_grows {name : Option CString} {full : Bool}
    (hp : ∀ q, t.find p.pid = some q → q.isAppnameValid = true →
      p.isAppnameValid = true ∧ p.appname = q.appname)
    (h : t.setAppname env p name full = some t') : Grows t t' := by
  simp only [Processes.setAppname, Option.bind_eq_bind, Option.bind_eq_some_iff] at h
  obtain ⟨ms, -, h⟩ := h
  cases h
  refine Grows.trans (set_grows (p := p.setAppname (env.readlink t.readlinkCalls p.pid) ms name full)
    fun q hq hv => ?_) (grows_of_find fun _ => rfl)
  rw [ProcessInfo.setAppname_pid] at hq
  obtain ⟨hpv, hname⟩ := hp q hq hv
  have hav : p.appnameValid = true := by
    simp only [ProcessInfo.isAppnameValid, Bool.and_eq_true] at hpv
    exact hpv.2
  rw [ProcessInfo.setAppname_of_valid hav]
  exact ⟨hpv, hname⟩

theorem newProcessInfo_grows {name : Option CString} {full valid : Bool} (hnew : t.find pid = none)
    (h : t.newProcessInfo env pid name full valid = some t') : Grows t t' := by
  apply setAppname_grows _ h
  intro q hq
  rw [hnew] at hq
  cases hq

theorem setNewMappingRecursive_grows {fuel : Nat} {mapping : MmapId} {doSelf : Bool}
    (h : t.setNewMappingRecursive fuel pid mapping doSelf = some t') : Grows t t' := by
  induction fuel generalizing t t' pid doSelf with
  | zero => cases h
  | succ fuel ih =>
    simp only [setNewMappingRecursive, Option.bind_eq_bind, Option.bind_eq_some_iff] at h
    obtain ⟨p, hp, m, -, h⟩ := h
    refine Grows.trans ?_ (foldlM_grows (fun _ _ _ hstep => ih hstep) h)
    exact set_update_grows hp rfl fun hv => ⟨hv, rfl⟩

theorem nameFromMapping_grows {m : OperfMmap} (hp : t.find pid = some p)
    (h : t.nameFromMapping env p m = some t') : Grows t t' := by
  unfold nameFromMapping at h
  split at h
  · rename_i hnot
    have hinv : p.isAppnameValid = true → False := by
      intro hv
      simp only [ProcessInfo.isAppnameValid, Bool.and_eq_true] at hv
      simp [hv.2] at hnot
    split at h
    · cases h
      exact set_update_grows hp (by simp) fun hv => (hinv hv).elim
    · intro hk
      refine setAppname_grows (fun q hq hv => ?_) h hk
      rw [hk pid p hp, hp] at hq
      cases hq
      exact (hinv hv).elim
  · cases h
    exact Grows.refl t

theorem processMapping_grows {mapping : MmapId} {doSelf : Bool}
    (h : t.processMapping env pid mapping doSelf = some t') : Grows t t' := by
  simp only [processMapping, Option.bind_eq_bind, Option.bind_eq_some_iff] at h
  obtain ⟨p, hp, m, -, t₁, h₁, h⟩ := h
  exact (nameFromMapping_grows hp h₁).trans (setNewMappingRecursive_grows h)

theorem copyMappingsToForkedProcess_grows {parent forked : UInt32}
    (h : t.copyMappingsToForkedProcess env parent forked = some t') : Grows t t' := by
  simp only [copyMappingsToForkedProcess, Option.bind_eq_bind, Option.bind_eq_some_iff] at h
  obtain ⟨p, -, h⟩ := h
  exact foldlM_grows (fun _ _ _ hstep => processMapping_grows hstep) h

theorem setForkInfo_grows {forked parent : UInt32}
    (h : t.setForkInfo env forked parent = some t') : Grows t t' := by
  simp only [setForkInfo, Option.bind_eq_bind, Option.bind_eq_some_iff] at h
  obtain ⟨p, hp, q, hq, h⟩ := h
  refine Grows.trans ?_ (copyMappingsToForkedProcess_grows h)
  refine Grows.trans ?_ (set_update_grows hq rfl fun hv => ⟨hv, rfl⟩)
  exact set_update_grows hp rfl fun hv => ⟨hv, rfl⟩

theorem removeForkedProcess_grows {parent forked : UInt32}
    (h : t.removeForkedProcess parent forked = some t') : Grows t t' := by
  simp only [removeForkedProcess, Option.bind_eq_bind, Option.bind_eq_some_iff] at h
  obtain ⟨q, hq, h⟩ := h
  cases h
  exact set_update_grows hq rfl fun hv => ⟨hv, rfl⟩

theorem keepOrDropMapping_grows {kv : UInt64 × MmapId}
    (h : keepOrDropMapping env pid t kv = some t') : Grows t t' := by
  simp only [keepOrDropMapping, Option.bind_eq_bind, Option.bind_eq_some_iff] at h
  obtain ⟨p, hp, cur, -, h⟩ := h
  split at h
  · cases h
    exact set_update_grows hp rfl fun hv => ⟨hv, rfl⟩
  · exact processMapping_grows h

theorem valid_isAppnameValid (h : p.isAppnameValid = true) :
    ({ p with valid := true } : ProcessInfo).isAppnameValid = true := by
  simp only [ProcessInfo.isAppnameValid, Bool.and_eq_true] at h ⊢
  exact ⟨trivial, h.2⟩

/-- Marking a process valid and then naming it. -/
theorem setValid_setAppname_grows {name : Option CString} (hp : t.find pid = some p)
    (h : (t.set { p with valid := true }).setAppname env { p with valid := true } name false =
      some t') : Grows t t' := by
  have hset : Grows t (t.set { p with valid := true }) :=
    set_update_grows hp rfl fun hv => ⟨valid_isAppnameValid hv, rfl⟩
  have hname : Grows (t.set { p with valid := true }) t' := by
    apply setAppname_grows _ h
    intro q hq hv
    have hself := find_set_self t { p with valid := true }
    rw [hself] at hq
    cases hq
    exact ⟨hv, rfl⟩
  exact hset.trans hname

theorem leaveParent_grows (h : t.leaveParent p = some t') : Grows t t' := by
  unfold leaveParent at h
  split at h
  · exact removeForkedProcess_grows h
  · cases h
    exact Grows.refl t

theorem tryDisassociateFromParent_grows {name : CString}
    (h : t.tryDisassociateFromParent env pid name = some t') : Grows t t' := by
  simp only [tryDisassociateFromParent, Option.bind_eq_bind, Option.bind_eq_some_iff] at h
  obtain ⟨p, hp, h⟩ := h
  split at h
  · cases h
    exact Grows.refl t
  · simp only [Option.bind_eq_some_iff] at h
    obtain ⟨t₁, h₁, t₂, h₂, t₃, h₃, q, hq, h⟩ := h
    cases h
    have hloop : Grows t₁ t₂ := foldlM_grows (fun _ _ _ hstep => keepOrDropMapping_grows hstep) h₂
    have hend : Grows t₃ (t₃.set { q with parentOfFork := none, forked := false }) :=
      set_update_grows hq rfl fun hv => ⟨hv, rfl⟩
    exact (((setValid_setAppname_grows hp h₁).trans hloop).trans (leaveParent_grows h₃)).trans hend

theorem ensureProcess_grows {name : Option CString} {full : Bool}
    (h : t.ensureProcess env pid name full = some t') : Grows t t' := by
  unfold ensureProcess at h
  split at h
  · cases h
    exact Grows.refl t
  · rename_i hnew
    exact newProcessInfo_grows hnew h

theorem processHypervisorMapping_grows {ip : UInt64}
    (h : t.processHypervisorMapping env pid ip = some t') : Grows t t' := by
  simp only [processHypervisorMapping, Option.bind_eq_bind, Option.bind_eq_some_iff] at h
  obtain ⟨p, hp, ms, -, h⟩ := h
  have hcreate : ∀ {t t' : Processes} {m : OperfMmap},
      (t.newMmap m).processMapping env pid t.nextMmap false = some t' → Grows t t' := by
    intro t t' m h
    refine Grows.trans ?_ (processMapping_grows h)
    exact grows_of_find fun _ => rfl
  split at h
  · exact hcreate h
  · split at h
    · refine Grows.trans ?_ (hcreate h)
      refine Grows.trans ?_ (grows_of_find fun _ => rfl)
      exact set_update_grows hp rfl fun hv => ⟨hv, rfl⟩
    · split at h
      · cases h
        exact grows_of_find fun _ => rfl
      · cases h
        exact Grows.refl t

theorem connectForkedProcessToParent_grows (hp : t.find pid = some p) (hv : p.valid = false)
    (h : t.connectForkedProcessToParent p = some t') : Grows t t' := by
  simp only [connectForkedProcessToParent, Option.bind_eq_bind, Option.bind_eq_some_iff] at h
  obtain ⟨parent, -, q, -, h⟩ := h
  cases h
  refine set_update_grows hp rfl fun hav => ?_
  simp [ProcessInfo.isAppnameValid, hv] at hav

end Processes

end Oprofile.Operf
