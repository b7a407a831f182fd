import Oprofile.Operf.ProcessView

/-! What the records do to the links and the mappings of the processes. -/
namespace Oprofile.Operf

variable {n : Nat} {cfg : Config n} {env : Env} {s s' : OperfState} {t t' t'' : Processes}
  {p q : ProcessInfo} {pid par : UInt32} {V W : View}

namespace Processes

theorem newProcessInfo_becomes {name : Option CString} {full valid : Bool} (hf : Filed t)
    (h : t.newProcessInfo env pid name full valid = some t') :
    Becomes t t' (t.view.create pid valid) :=
  setAppname_becomes hf rfl h

theorem ensureProcess_becomes {name : Option CString} {full : Bool} (hf : Filed t)
    (h : t.ensureProcess env pid name full = some t') : Becomes t t' (t.view.ensure pid) := by
  unfold ensureProcess at h
  split at h
  · rename_i p hp
    cases h
    rw [View.ensure, view_of_find hp]
    exact Becomes.refl hf
  · rename_i hp
    rw [View.ensure, view_eq_none_iff.mpr hp]
    exact newProcessInfo_becomes hf h

theorem processMapping_becomes {mapping : MmapId} {doSelf : Bool} (hf : Filed t)
    (hc : t.view.Consistent) (h : t.processMapping env pid mapping doSelf = some t') :
    ∃ m, t.mmaps mapping = some m ∧ Becomes t t' (t.view.handDown pid m.startAddr mapping doSelf) := by
  simp only [processMapping, Option.bind_eq_bind, Option.bind_eq_some_iff] at h
  obtain ⟨p, hp, m, hm, t₁, h₁, h⟩ := h
  have hname := nameFromMapping_becomes hf hp h₁
  obtain ⟨m', hm', hb⟩ := setNewMappingRecursive_becomes hname.filed (by rwa [hname.view]) h
  rw [hname.mmaps, hm, Option.some_inj] at hm'
  subst hm'
  rw [hname.view] at hb
  exact ⟨m, hm, hname.trans hb⟩

/-- A mapping is handed down to its end only where the links make no circle. -/
theorem processMapping_not_circular {mapping : MmapId} {doSelf : Bool} (hf : Filed t)
    (h : t.processMapping env pid mapping doSelf = some t') : ¬ t.view.StrictlyBelow pid pid := by
  simp only [processMapping, Option.bind_eq_bind, Option.bind_eq_some_iff] at h
  obtain ⟨p, hp, m, hm, t₁, h₁, h⟩ := h
  have hname := nameFromMapping_becomes hf hp h₁
  have hbound := (setNewMappingRecursive_links hname.filed h).2.2
  rw [hname.view] at hbound
  exact hbound.not_cycle

theorem change_becomes {f : Ties → Ties} (hf : Filed t) (hp : t.find pid = some p) (hq : q.pid = p.pid)
    (hties : q.ties = f p.ties) : Becomes t (t.set q) (t.view.change pid f) := by
  rw [View.change_of_some (view_of_find hp), ← hties]
  exact set_becomes hf (hq.trans (hf.keyed pid p hp))

/-- Mappings copied one after the other. -/
theorem copyMappings_fold {kvs : List (UInt64 × MmapId)} (hf : Filed t) (hc : t.view.Consistent)
    (hkv : ∀ kv ∈ kvs, ∃ m, t.mmaps kv.2 = some m ∧ m.startAddr = kv.1)
    (h : kvs.foldlM (fun t kv => t.processMapping env pid kv.2 true) t = some t') :
    Becomes t t' (t.view.handDownAll pid kvs) := by
  induction kvs generalizing t with
  | nil =>
    cases h
    exact Becomes.refl hf
  | cons kv kvs ih =>
    rw [List.foldlM_cons, Option.bind_eq_bind, Option.bind_eq_some_iff] at h
    obtain ⟨t₁, hstep, h⟩ := h
    obtain ⟨m, hm, hb⟩ := processMapping_becomes hf hc hstep
    obtain ⟨m', hm', hstart⟩ := hkv kv List.mem_cons_self
    rw [hm, Option.some_inj] at hm'
    subst hm'
    rw [hstart] at hb
    have hrest := ih hb.filed (by rw [hb.view]; exact View.handDown_sameLinks.consistent hc)
      (fun kv' hkv' => by rw [hb.mmaps]; exact hkv kv' (List.mem_cons_of_mem _ hkv')) h
    rw [hb.view] at hrest
    exact hb.trans hrest

theorem mmappings_of_find (h : t.find pid = some p) : t.view.mmappings pid = p.mmappings := by
  rw [View.mmappings, view_of_find h]
  rfl

theorem setForkInfo_becomes (hf : Filed t) (hok : ViewOk t.view t.mmaps) (hne : pid ≠ par)
    (hfree : t.view.parent pid = none) (h : t.setForkInfo env pid par = some t') :
    Becomes t t' (t.view.attach pid par) := by
  simp only [setForkInfo, copyMappingsToForkedProcess, Option.bind_eq_bind, Option.bind_eq_some_iff] at h
  obtain ⟨p, hp, q, hq, r, hr, h⟩ := h
  have hchild := change_becomes (q := { p with forked := true, parentOfFork := some par })
    (f := fun x => { x with forked := true, parentOfFork := some par }) hf hp rfl rfl
  generalize t.set _ = t₁ at hchild hq hr h
  have hparent := change_becomes (q := { q with forkedProcesses := q.forkedProcesses ++ [pid] })
    (f := fun x => { x with forkedProcesses := x.forkedProcesses ++ [pid] }) hchild.filed hq rfl rfl
  rw [hchild.view] at hparent
  generalize t₁.set _ = t₂ at hparent hr h
  have hlink : Becomes t t₂ (t.view.link pid par) := hchild.trans hparent
  have hq' : t.view par = some q.ties := by
    have hview := view_of_find hq
    rwa [hchild.view, View.change, Function.update_of_ne hne.symm] at hview
  have hmm : t.view.mmappings par = r.mmappings := by
    rw [← mmappings_of_find hr, hlink.view, View.mmappings_link]
  have hcons : (t.view.link pid par).Consistent :=
    View.link_consistent hok.consistent (view_of_find hp) hq' hne hfree
  have hcopy := copyMappings_fold hlink.filed (by rw [hlink.view]; exact hcons)
    (fun kv hkv => by
      rw [hlink.mmaps]
      exact hok.mmappings_stored par kv (by rw [hmm]; exact hkv)) h
  rw [hlink.view] at hcopy
  rw [View.attach, hmm]
  exact hlink.trans hcopy

theorem setForkInfo_not_circular (hf : Filed t)
    (h : t.setForkInfo env pid par = some t') (hmm : t.view.mmappings par ≠ []) :
    ¬ (t.view.link pid par).StrictlyBelow pid pid := by
  simp only [setForkInfo, copyMappingsToForkedProcess, Option.bind_eq_bind, Option.bind_eq_some_iff] at h
  obtain ⟨p, hp, q, hq, r, hr, h⟩ := h
  have hchild := change_becomes (q := { p with forked := true, parentOfFork := some par })
    (f := fun x => { x with forked := true, parentOfFork := some par }) hf hp rfl rfl
  generalize t.set _ = t₁ at hchild hq hr h
  have hparent := change_becomes (q := { q with forkedProcesses := q.forkedProcesses ++ [pid] })
    (f := fun x => { x with forkedProcesses := x.forkedProcesses ++ [pid] }) hchild.filed hq rfl rfl
  rw [hchild.view] at hparent
  generalize t₁.set _ = t₂ at hparent hr h
  have hlink : Becomes t t₂ (t.view.link pid par) := hchild.trans hparent
  rw [← View.mmappings_link t.view pid par par, ← hlink.view, mmappings_of_find hr] at hmm
  cases hkvs : r.mmappings with
  | nil => exact (hmm hkvs).elim
  | cons kv kvs =>
    rw [hkvs, List.foldlM_cons, Option.bind_eq_bind, Option.bind_eq_some_iff] at h
    obtain ⟨t₃, h₃, -⟩ := h
    rw [← hlink.view]
    exact processMapping_not_circular hlink.filed h₃

/-- One mapping in the loop of `try_disassociate_from_parent`. -/
theorem keepOrDropMapping_becomes {kv : UInt64 × MmapId} (hf : Filed t) (hc : t.view.Consistent)
    (hkv : ∃ m, t.mmaps kv.2 = some m ∧ m.startAddr = kv.1)
    (h : keepOrDropMapping env pid t kv = some t') : Becomes t t' (View.keepOrDrop pid t.view kv) := by
  simp only [keepOrDropMapping, Option.bind_eq_bind, Option.bind_eq_some_iff] at h
  obtain ⟨p, hp, cur, hcur, h⟩ := h
  obtain ⟨m, hm, hstart⟩ := hkv
  rw [hcur, Option.some_inj] at hm
  subst hm
  have hflag : t.view.fromParent pid kv.1 = p.mmappingsFromParent kv.1 := by
    rw [View.fromParent, view_of_find hp]
    rfl
  rw [View.keepOrDrop, hflag]
  rw [hstart] at h
  split_ifs at h with hparent
  · cases h
    rw [if_pos hparent]
    exact change_becomes (f := (·.drop kv.1)) hf hp rfl rfl
  · rw [if_neg hparent]
    obtain ⟨m', hm', hb⟩ := processMapping_becomes hf hc h
    rw [hcur, Option.some_inj] at hm'
    subst hm'
    rwa [hstart] at hb

theorem keepOrDrop_fold {kvs : List (UInt64 × MmapId)} (hf : Filed t) (hc : t.view.Consistent)
    (hkv : ∀ kv ∈ kvs, ∃ m, t.mmaps kv.2 = some m ∧ m.startAddr = kv.1)
    (h : kvs.foldlM (keepOrDropMapping env pid) t = some t') :
    Becomes t t' (kvs.foldl (View.keepOrDrop pid) t.view) := by
  induction kvs generalizing t with
  | nil =>
    cases h
    exact Becomes.refl hf
  | cons kv kvs ih =>
    rw [List.foldlM_cons, Option.bind_eq_bind, Option.bind_eq_some_iff] at h
    obtain ⟨t₁, hstep, h⟩ := h
    have hb := keepOrDropMapping_becomes hf hc (hkv kv List.mem_cons_self) hstep
    have hrest := ih hb.filed (by rw [hb.view]; exact View.keepOrDrop_sameLinks.consistent hc)
      (fun kv' hkv' => by rw [hb.mmaps]; exact hkv kv' (List.mem_cons_of_mem _ hkv')) h
    rw [hb.view] at hrest
    exact hb.trans hrest

theorem keepOrDrop_fold_not_circular {kvs : List (UInt64 × MmapId)} (hf : Filed t)
    (hc : t.view.Consistent) (hkv : ∀ kv ∈ kvs, ∃ m, t.mmaps kv.2 = some m ∧ m.startAddr = kv.1)
    (hown : ∃ kv ∈ kvs, t.view.fromParent pid kv.1 = false)
    (h : kvs.foldlM (keepOrDropMapping env pid) t = some t') : ¬ t.view.StrictlyBelow pid pid := by
  induction kvs generalizing t with
  | nil =>
    obtain ⟨kv, hmem, -⟩ := hown
    cases hmem
  | cons kv kvs ih =>
    rw [List.foldlM_cons, Option.bind_eq_bind, Option.bind_eq_some_iff] at h
    obtain ⟨t₁, hstep, h⟩ := h
    have hb := keepOrDropMapping_becomes hf hc (hkv kv List.mem_cons_self) hstep
    cases hflag : t.view.fromParent pid kv.1 with
    | true =>
      have hsame : t₁.view.StrictlyBelow = t.view.StrictlyBelow := by
        rw [View.StrictlyBelow, View.StrictlyBelow, hb.view, View.keepOrDrop_sameLinks.children]
      rw [← hsame]
      refine ih hb.filed (by rw [hb.view]; exact View.keepOrDrop_sameLinks.consistent hc)
        (fun kv' hkv' => by rw [hb.mmaps]; exact hkv kv' (List.mem_cons_of_mem _ hkv')) ?_ h
      obtain ⟨kv', hmem, hfalse⟩ := hown
      rcases List.mem_cons.mp hmem with rfl | hmem
      · rw [hflag] at hfalse
        cases hfalse
      · refine ⟨kv', hmem, ?_⟩
        rw [hb.view, View.keepOrDrop, if_pos hflag, View.fromParent_drop]
        split_ifs
        · rfl
        · exact hfalse
    | false =>
      obtain ⟨m, hm, hstart⟩ := hkv kv List.mem_cons_self
      simp only [keepOrDropMapping, Option.bind_eq_bind, Option.bind_eq_some_iff] at hstep
      obtain ⟨p, hp, cur, hcur, hstep⟩ := hstep
      rw [hm, Option.some_inj] at hcur
      subst hcur
      rw [View.fromParent, view_of_find hp] at hflag
      rw [hstart] at hstep
      have hno : ¬ p.mmappingsFromParent kv.1 = true := by
        rw [Bool.not_eq_true]
        exact hflag
      rw [if_neg hno] at hstep
      exact processMapping_not_circular hf hstep

/-- Marking a process valid and naming it. -/
theorem setValid_becomes {name : Option CString} (hf : Filed t) (hp : t.find pid = some p)
    (h : (t.set { p with valid := true }).setAppname env { p with valid := true } name false = some t') :
    Becomes t t' (t.view.change pid fun x => { x with valid := true }) := by
  have hvalid := change_becomes (q := { p with valid := true })
    (f := fun x => { x with valid := true }) hf hp rfl rfl
  generalize t.set _ = t₁ at hvalid h
  have hname := setAppname_becomes (p := { p with valid := true }) hvalid.filed
    (hf.keyed pid p hp) h
  rw [hvalid.view, View.change, Function.update_idem] at hname
  rw [View.change_of_some (view_of_find hp)]
  exact hvalid.trans hname

theorem leaveParent_becomes (hf : Filed t) (hpid : p.pid = pid) (hpar : p.parentOfFork = some par)
    (h : t.leaveParent p = some t') : Becomes t t' (t.view.change par fun x =>
      { x with forkedProcesses := x.forkedProcesses.erase pid }) := by
  simp only [leaveParent, hpar, removeForkedProcess, Option.bind_eq_bind, Option.bind_eq_some_iff] at h
  obtain ⟨r, hr, h⟩ := h
  cases h
  exact change_becomes hf hr rfl (by rw [hpid]; rfl)

theorem tryDisassociateFromParent_becomes {name : CString} (hf : Filed t)
    (hok : ViewOk t.view t.mmaps) (hparent : t.view.parent pid = some par) (hne : par ≠ pid)
    (h : t.tryDisassociateFromParent env pid name = some t') :
    Becomes t t' (t.view.disassociate pid) := by
  simp only [tryDisassociateFromParent, Option.bind_eq_bind, Option.bind_eq_some_iff] at h
  obtain ⟨p, hp, h⟩ := h
  have hpar : p.parentOfFork = some par := by
    rw [View.parent, view_of_find hp, Option.bind_some] at hparent
    exact hparent
  have hother : p.parentOfFork ≠ some pid := fun heq => hne (Option.some_inj.mp (hpar.symm.trans heq))
  rw [if_neg hother] at h
  simp only [Option.bind_eq_some_iff] at h
  obtain ⟨t₁, h₁, t₂, h₂, t₃, h₃, q, hq, h⟩ := h
  cases h
  have hset := setValid_becomes hf hp h₁
  have hmm : t.view.mmappings pid = p.mmappings := mmappings_of_find hp
  have hloop := keepOrDrop_fold hset.filed
    (by rw [hset.view]; exact View.setValid_sameLinks.consistent hok.consistent)
    (fun kv hkv => by
      rw [hset.mmaps]
      exact hok.mmappings_stored pid kv (by rw [hmm]; exact hkv)) h₂
  rw [hset.view, ← hmm] at hloop
  have hown : Becomes t t₂ (t.view.keepOwn pid) := hset.trans hloop
  have hleave := leaveParent_becomes hown.filed (hf.keyed pid p hp) hpar h₃
  have hclear := change_becomes (q := { q with parentOfFork := none, forked := false })
    (f := fun x => { x with parentOfFork := none, forked := false }) hleave.filed hq rfl rfl
  rw [hleave.view, hown.view] at hclear
  have hunlink : (t.view.keepOwn pid).parent pid = some par := by
    rw [View.keepOwn_sameLinks.parent, hparent]
  rw [View.disassociate, ← View.keepOwn, View.unlink_eq hunlink]
  exact (hown.trans hleave).trans hclear

theorem tryDisassociateFromParent_not_circular {name : CString} (hf : Filed t)
    (hok : ViewOk t.view t.mmaps) (hparent : t.view.parent pid = some par) (hne : par ≠ pid)
    (h : t.tryDisassociateFromParent env pid name = some t')
    (hown : ∃ kv ∈ t.view.mmappings pid, t.view.fromParent pid kv.1 = false) :
    ¬ t.view.StrictlyBelow pid pid := by
  simp only [tryDisassociateFromParent, Option.bind_eq_bind, Option.bind_eq_some_iff] at h
  obtain ⟨p, hp, h⟩ := h
  have hpar : p.parentOfFork = some par := by
    rw [View.parent, view_of_find hp, Option.bind_some] at hparent
    exact hparent
  have hother : p.parentOfFork ≠ some pid := fun heq => hne (Option.some_inj.mp (hpar.symm.trans heq))
  rw [if_neg hother] at h
  simp only [Option.bind_eq_some_iff] at h
  obtain ⟨t₁, h₁, t₂, h₂, -⟩ := h
  have hset := setValid_becomes hf hp h₁
  have hsame : t₁.view.StrictlyBelow = t.view.StrictlyBelow := by
    rw [View.StrictlyBelow, View.StrictlyBelow, hset.view, View.setValid_sameLinks.children]
  rw [mmappings_of_find hp] at hown
  rw [← hsame]
  refine keepOrDrop_fold_not_circular hset.filed
    (by rw [hset.view]; exact View.setValid_sameLinks.consistent hok.consistent)
    (fun kv hkv => by
      rw [hset.mmaps]
      exact hok.mmappings_stored pid kv (by rw [mmappings_of_find hp]; exact hkv)) ?_ h₂
  obtain ⟨kv, hmem, hflag⟩ := hown
  refine ⟨kv, hmem, ?_⟩
  rw [hset.view, View.fromParent, View.change, Function.update_self]
  rw [View.fromParent, view_of_find hp] at hflag
  rw [view_of_find hp]
  exact hflag

end Processes

/-- The processes and their mappings are in order. -/
structure TreeOk (s : OperfState) : Prop where
  filed : Filed s.procs
  view : ViewOk s.procs.view s.procs.mmaps
  noSelf : ∀ pid, s.procs.view.parent pid ≠ some pid
  fresh : ∀ id m, s.procs.mmaps id = some m → id < s.procs.nextMmap

theorem handleForkEvent_becomes {f : ForkEvent} (hs : TreeOk s)
    (h : handleForkEvent cfg env s f = some s') :
    s' = s.setProcs s'.procs ∧ Becomes s.procs s'.procs (s.procs.view.fork f.pid f.ppid) := by
  simp only [handleForkEvent, Option.bind_eq_bind, Option.bind_eq_some_iff] at h
  obtain ⟨t, ht, h⟩ := h
  have hens := Processes.ensureProcess_becomes hs.filed ht
  have hok : ViewOk t.view t.mmaps := by
    rw [hens.view, hens.mmaps]
    exact hs.view.ensure
  simp only [View.fork]
  rw [← hens.view]
  split at h
  · rename_i heq
    cases h
    rw [if_pos heq]
    exact ⟨rfl, hens.view ▸ hens⟩
  · rename_i hne
    rw [if_neg hne]
    split at h
    · rename_i hnew
      simp only [Option.bind_eq_some_iff] at h
      obtain ⟨t₁, h₁, t₂, h₂, h⟩ := h
      cases h
      rw [Processes.view_eq_none_iff.mpr hnew]
      have hmade := Processes.newProcessInfo_becomes hens.filed h₁
      have hok₁ : ViewOk t₁.view t₁.mmaps := by
        rw [hmade.view, hmade.mmaps]
        exact hok.create (Processes.view_eq_none_iff.mpr hnew)
      have hfree : t₁.view.parent f.pid = none := by
        rw [hmade.view, View.parent, View.create, Function.update_self]
        rfl
      have hfork := Processes.setForkInfo_becomes hmade.filed hok₁ hne hfree h₂
      rw [hmade.view] at hfork
      exact ⟨rfl, (hens.trans hmade).trans hfork⟩
    · rename_i p hp
      have hknown : t.view f.pid = some p.ties := Processes.view_of_find hp
      rw [hknown]
      have hflags : (p.ties.valid || p.ties.forked) = (p.valid || p.forked) := rfl
      simp only [hflags]
      split at h
      · rename_i hyes
        cases h
        rw [if_pos hyes]
        exact ⟨rfl, hens.view ▸ hens⟩
      · rename_i hno
        rw [if_neg hno]
        simp only [Option.bind_eq_some_iff] at h
        obtain ⟨t₁, h₁, h⟩ := h
        cases h
        have hforked : p.ties.forked = false := by
          have hforked : p.forked = false := by simp_all
          exact hforked
        have hfork := Processes.setForkInfo_becomes hens.filed hok hne
          ((hok.parent_none_iff hknown).mpr hforked) h₁
        exact ⟨rfl, hens.trans hfork⟩

theorem handleCommEvent_becomes {c : CommEvent} (hs : TreeOk s)
    (h : handleCommEvent cfg env s c = some s') :
    s' = s.setProcs s'.procs ∧
      Becomes s.procs s'.procs (s.procs.view.comm c.pid (c.pid == c.tid)) := by
  unfold handleCommEvent at h
  split at h
  · rename_i hnew
    simp only [Option.map_eq_some_iff] at h
    obtain ⟨t, ht, rfl⟩ := h
    rw [View.comm, Processes.view_eq_none_iff.mpr hnew]
    exact ⟨rfl, Processes.newProcessInfo_becomes hs.filed ht⟩
  · rename_i p hp
    simp only [Option.map_eq_some_iff] at h
    obtain ⟨t, ht, rfl⟩ := h
    refine ⟨rfl, ?_⟩
    have hview := Processes.view_of_find hp
    have hties : p.ties.valid = p.valid ∧ p.ties.forked = p.forked := ⟨rfl, rfl⟩
    rw [View.comm, hview]
    simp only [hties.1, hties.2]
    unfold commKnownProcess at ht
    by_cases hv : p.valid = true
    · rw [if_neg (by simp [hv])] at ht
      rw [if_neg (by simp [hv])]
      split at ht
      · have hname := Processes.setAppname_becomes hs.filed (hs.filed.keyed _ p hp) ht
        rwa [← hview, Function.update_eq_self] at hname
      · cases ht
        exact Becomes.refl hs.filed
    · rw [if_pos (by simp [hv])] at ht
      by_cases hlead : c.pid = c.tid
      · rw [if_pos hlead] at ht
        rw [if_pos (by simp [hv, hlead])]
        by_cases hforked : p.forked = true
        · rw [if_pos hforked] at ht ⊢
          have hsome : s.procs.view.parent c.pid ≠ none := by
            rw [ne_eq, hs.view.parent_none_iff hview, hties.2, hforked]
            exact Bool.noConfusion
          obtain ⟨par, hpar⟩ := Option.ne_none_iff_exists'.mp hsome
          exact Processes.tryDisassociateFromParent_becomes hs.filed hs.view hpar
            (fun heq => hs.noSelf c.pid (heq ▸ hpar)) ht
        · rw [if_neg hforked] at ht ⊢
          exact Processes.setValid_becomes hs.filed hp ht
      · rw [if_neg hlead] at ht
        cases ht
        rw [if_neg (by simp [hlead])]
        exact Becomes.refl hs.filed

theorem ViewOk.mono {mmaps mmaps' : MmapId → Option OperfMmap} (h : ViewOk V mmaps)
    (hmm : ∀ id m, mmaps id = some m → mmaps' id = some m) : ViewOk V mmaps' := by
  refine ⟨h.consistent, fun pid x kv hx hkv => ?_, h.sorted, h.forked⟩
  obtain ⟨m, hm, hstart⟩ := h.stored pid x kv hx hkv
  exact ⟨m, hmm _ _ hm, hstart⟩

/-- The mappings of a parent can be copied only where the new link makes no circle. -/
theorem handleForkEvent_not_circular {f : ForkEvent} (hs : TreeOk s)
    (h : handleForkEvent cfg env s f = some s') (hatt : s.procs.view.Attaches f.pid f.ppid)
    (hmm : (s.procs.view.known f.pid f.ppid).mmappings f.ppid ≠ []) :
    ¬ ((s.procs.view.known f.pid f.ppid).link f.pid f.ppid).StrictlyBelow f.pid f.pid := by
  simp only [handleForkEvent, Option.bind_eq_bind, Option.bind_eq_some_iff, if_neg hatt.1] at h
  obtain ⟨t, ht, h⟩ := h
  have hens := Processes.ensureProcess_becomes hs.filed ht
  split at h
  · rename_i hnew
    simp only [Option.bind_eq_some_iff] at h
    obtain ⟨t₁, h₁, t₂, h₂, -⟩ := h
    have hmade := Processes.newProcessInfo_becomes hens.filed h₁
    have hnew := Processes.view_eq_none_iff.mpr hnew
    have hknown : t₁.view = s.procs.view.known f.pid f.ppid := by
      rw [hens.view] at hnew
      rw [hmade.view, hens.view, View.known, View.ensure_of_none hnew]
    rw [← hknown] at hmm ⊢
    exact Processes.setForkInfo_not_circular hmade.filed h₂ hmm
  · rename_i p hp
    have hview := Processes.view_of_find hp
    have hknown : t.view = s.procs.view.known f.pid f.ppid := by
      rw [hens.view] at hview
      rw [hens.view, View.known, View.ensure_of_some hview]
    have hother : s.procs.view f.pid = some p.ties := by
      have hsame := View.ensure_other (V := s.procs.view) hatt.1
      rw [← hsame, ← hens.view, hview]
    have hflags : p.valid = false ∧ p.forked = false := hatt.2 _ hother
    rw [hflags.1, hflags.2] at h
    simp only [Bool.or_self, Bool.false_eq_true, if_false, Option.bind_eq_some_iff] at h
    obtain ⟨t₁, h₁, -⟩ := h
    rw [← hknown] at hmm ⊢
    exact Processes.setForkInfo_not_circular hens.filed h₁ hmm

/-- A COMM record that makes a process leave its parent. -/
def View.Leaves (V : View) (pid : UInt32) (leader : Bool) : Prop :=
  leader = true ∧ ∃ x, V pid = some x ∧ x.valid = false ∧ x.forked = true

theorem handleCommEvent_not_circular {c : CommEvent} (hs : TreeOk s)
    (h : handleCommEvent cfg env s c = some s')
    (hleave : s.procs.view.Leaves c.pid (c.pid == c.tid))
    (hown : ∃ kv ∈ s.procs.view.mmappings c.pid, s.procs.view.fromParent c.pid kv.1 = false) :
    ¬ s.procs.view.StrictlyBelow c.pid c.pid := by
  obtain ⟨hlead, x, hx, hvalid, hforked⟩ := hleave
  obtain ⟨p, hp, rfl⟩ := Processes.view_eq_some_iff.mp hx
  have hvalid : p.valid = false := hvalid
  have hforked' : p.forked = true := hforked
  have hlead : c.pid = c.tid := by simpa using hlead
  unfold handleCommEvent at h
  rw [hp] at h
  simp only [commKnownProcess, hvalid, hforked', if_pos hlead, Bool.not_false, if_true,
    Option.map_eq_some_iff] at h
  obtain ⟨t, ht, -⟩ := h
  have hsome : s.procs.view.parent c.pid ≠ none := by
    rw [ne_eq, hs.view.parent_none_iff hx, hforked]
    exact Bool.noConfusion
  obtain ⟨par, hpar⟩ := Option.ne_none_iff_exists'.mp hsome
  exact Processes.tryDisassociateFromParent_not_circular hs.filed hs.view hpar
    (fun heq => hs.noSelf c.pid (heq ▸ hpar)) ht hown

/-- The mapping of a record is on the heap, and nothing else has changed there. -/
structure MappingMade (s s₁ : OperfState) (e : MmapEvent) (id : MmapId) : Prop where
  made : ∃ m, s₁.procs.mmaps id = some m ∧ m.startAddr = e.start
  kept : ∀ i m, s.procs.mmaps i = some m → s₁.procs.mmaps i = some m
  fresh : ∀ i m, s₁.procs.mmaps i = some m → i < s₁.procs.nextMmap
  view : s₁.procs.view = s.procs.view
  processMap : s₁.procs.processMap = s.procs.processMap

theorem knownMapping_some {name : CString} {start : UInt64} {id : MmapId}
    (h : knownMapping s name start = some id) :
    ∃ m, s.procs.mmaps id = some m ∧ m.filename = name ∧ m.startAddr = start := by
  simp only [knownMapping, Option.map_eq_some_iff] at h
  obtain ⟨x, hx, rfl⟩ := h
  have hx := List.find?_some hx
  split at hx
  · rename_i m hm
    simp only [Bool.and_eq_true, beq_iff_eq] at hx
    exact ⟨m, hm, hx.1, hx.2⟩
  · cases hx

theorem newMmap_made (hs : ∀ i m, s.procs.mmaps i = some m → i < s.procs.nextMmap) (e : MmapEvent)
    (images : List (CString × MmapId)) :
    MappingMade s { s.setProcs (s.procs.newMmap (mmapOf e)) with allImagesMap := images } e
      s.procs.nextMmap := by
  refine ⟨⟨mmapOf e, by simp [OperfState.setProcs, Processes.newMmap], rfl⟩, fun i m hm => ?_,
    fun i m hm => ?_, rfl, rfl⟩
  · have hne : i ≠ s.procs.nextMmap := Nat.ne_of_lt (hs i m hm)
    simpa [OperfState.setProcs, Processes.newMmap, hne] using hm
  · by_cases heq : i = s.procs.nextMmap
    · rw [heq]
      exact Nat.lt_succ_self _
    · simp only [OperfState.setProcs, Processes.newMmap, heq, if_false] at hm
      exact Nat.lt_succ_of_lt (hs i m hm)

theorem eventMapping_made (hs : ∀ i m, s.procs.mmaps i = some m → i < s.procs.nextMmap)
    (e : MmapEvent) : MappingMade s (eventMapping s e).1 e (eventMapping s e).2 := by
  cases hknown : knownMapping s (opBasename e.filename) e.start with
  | some id =>
    obtain ⟨m, hm, -, hstart⟩ := knownMapping_some hknown
    rw [eventMapping_known hknown]
    exact ⟨⟨m, hm, hstart⟩, fun _ _ h => h, hs, rfl, rfl⟩
  | none =>
    obtain ⟨images, heq⟩ := eventMapping_new hknown
    rw [heq]
    exact newMmap_made hs e images

theorem TreeOk.mappingMade {s₁ : OperfState} {e : MmapEvent} {id : MmapId} (hs : TreeOk s)
    (h : MappingMade s s₁ e id) : TreeOk s₁ where
  filed := by
    refine ⟨fun pid p hp => hs.filed.keyed pid p ?_, ?_⟩
    · rwa [Processes.find, h.processMap] at hp
    · rw [h.processMap]
      exact hs.filed.sorted
  view := by
    rw [h.view]
    exact hs.view.mono h.kept
  noSelf := by
    rw [h.view]
    exact hs.noSelf
  fresh := h.fresh

/-- A MMAP record of a process. -/
theorem handleMmapEvent_becomes {e : MmapEvent} (hs : TreeOk s)
    (hu : e.misc &&& perfRecordMiscKernel = 0) (h : handleMmapEvent cfg env s e = some s') :
    s' = (eventMapping s e).1.setProcs s'.procs ∧ Becomes (eventMapping s e).1.procs s'.procs
      (s.procs.view.mmap e.pid e.start (eventMapping s e).2) := by
  have hmade := eventMapping_made hs.fresh e
  have hs₁ := hs.mappingMade hmade
  obtain ⟨m, hm, hstart⟩ := hmade.made
  simp only [handleMmapEvent, Option.bind_eq_bind, Option.bind_eq_some_iff, hu, ne_eq, not_true_eq_false,
    if_false] at h
  obtain ⟨m', -, t, ht, t', ht', h⟩ := h
  cases h
  have hens := Processes.ensureProcess_becomes hs₁.filed ht
  have hcons : t.view.Consistent := by
    rw [hens.view]
    exact hs₁.view.ensure.consistent
  obtain ⟨m'', hm'', hdown⟩ := Processes.processMapping_becomes hens.filed hcons ht'
  rw [hens.mmaps, hm, Option.some_inj] at hm''
  subst hm''
  rw [hens.view, hmade.view, hstart] at hdown
  exact ⟨rfl, hens.trans hdown⟩

theorem handleMmapEvent_not_circular {e : MmapEvent} (hs : TreeOk s)
    (hu : e.misc &&& perfRecordMiscKernel = 0) (h : handleMmapEvent cfg env s e = some s') :
    ¬ s.procs.view.StrictlyBelow e.pid e.pid := by
  have hmade := eventMapping_made hs.fresh e
  have hs₁ := hs.mappingMade hmade
  simp only [handleMmapEvent, Option.bind_eq_bind, Option.bind_eq_some_iff, hu, ne_eq, not_true_eq_false,
    if_false] at h
  obtain ⟨m', -, t, ht, t', ht', -⟩ := h
  have hens := Processes.ensureProcess_becomes hs₁.filed ht
  have hsame : t.view.StrictlyBelow = s.procs.view.StrictlyBelow := by
    rw [View.StrictlyBelow, View.StrictlyBelow, hens.view, View.ensure_sameLinks.children, hmade.view]
  rw [← hsame]
  exact Processes.processMapping_not_circular hens.filed ht'

/-- A MMAP record of the kernel leaves the processes alone. -/
theorem handleMmapEvent_kernel_procs {e : MmapEvent} (hk : e.misc &&& perfRecordMiscKernel ≠ 0)
    (h : handleMmapEvent cfg env s e = some s') : s'.procs = (eventMapping s e).1.procs := by
  simp only [handleMmapEvent, Option.bind_eq_bind, Option.bind_eq_some_iff, if_pos hk] at h
  obtain ⟨m, -, h⟩ := h
  cases h
  unfold handleKernelMmap
  split_ifs <;> rfl

/-- The records that are about processes and mappings. -/
def ProcessRecord : Event → Prop
  | .comm _ | .fork _ | .mmap _ => True
  | _ => False

/-- The links and mappings after such a record. -/
noncomputable def recordView (s : OperfState) : Event → View
  | .fork f => s.procs.view.fork f.pid f.ppid
  | .comm c => s.procs.view.comm c.pid (c.pid == c.tid)
  | .mmap m =>
    if m.misc &&& perfRecordMiscKernel = 0 then s.procs.view.mmap m.pid m.start (eventMapping s m).2
    else s.procs.view
  | _ => s.procs.view

/-- The mappings on the heap after such a record. -/
def recordMmaps (s : OperfState) : Event → MmapId → Option OperfMmap
  | .mmap m => (eventMapping s m).1.procs.mmaps
  | _ => s.procs.mmaps

/-- What such a record does. -/
structure RecordStep (s s' : OperfState) (e : Event) : Prop where
  ok : TreeOk s'
  view : s'.procs.view = recordView s e
  mmaps : s'.procs.mmaps = recordMmaps s e
  kept : ∀ i m, s.procs.mmaps i = some m → s'.procs.mmaps i = some m

theorem TreeOk.of_becomes (hs : TreeOk s) (hb : Becomes s.procs s'.procs V)
    (hV : ViewOk V s.procs.mmaps) (hself : ∀ pid, V.parent pid ≠ some pid) : TreeOk s' where
  filed := hb.filed
  view := by
    rw [hb.view, hb.mmaps]
    exact hV
  noSelf := by
    rw [hb.view]
    exact hself
  fresh := by
    rw [hb.mmaps, hb.nextMmap]
    exact hs.fresh

theorem handleForkEvent_step {f : ForkEvent} (hs : TreeOk s)
    (h : handleForkEvent cfg env s f = some s') : RecordStep s s' (.fork f) := by
  have hb := (handleForkEvent_becomes hs h).2
  refine ⟨hs.of_becomes hb hs.view.fork fun pid => ?_, hb.view, hb.mmaps, fun i m hm => by rwa [hb.mmaps]⟩
  by_cases hatt : s.procs.view.Attaches f.pid f.ppid
  · rw [View.fork_parent hatt]
    split_ifs with hpid
    · rw [hpid]
      exact fun heq => hatt.1 (Option.some_inj.mp heq).symm
    · exact hs.noSelf pid
  · rw [View.fork_parent_of_not hatt]
    exact hs.noSelf pid

theorem handleCommEvent_step {c : CommEvent} (hs : TreeOk s)
    (h : handleCommEvent cfg env s c = some s') : RecordStep s s' (.comm c) := by
  have hb := (handleCommEvent_becomes hs h).2
  refine ⟨hs.of_becomes hb hs.view.comm fun pid => ?_, hb.view, hb.mmaps, fun i m hm => by rwa [hb.mmaps]⟩
  rcases View.comm_parent hs.view c.pid (c.pid == c.tid) pid with heq | heq
  · rw [heq]
    exact hs.noSelf pid
  · rw [heq]
    exact fun h => by cases h

theorem handleMmapEvent_step {m : MmapEvent} (hs : TreeOk s)
    (h : handleMmapEvent cfg env s m = some s') : RecordStep s s' (.mmap m) := by
  have hmade := eventMapping_made hs.fresh m
  have hs₁ := hs.mappingMade hmade
  by_cases hu : m.misc &&& perfRecordMiscKernel = 0
  · obtain ⟨-, hb⟩ := handleMmapEvent_becomes hs hu h
    obtain ⟨m', hm', hstart⟩ := hmade.made
    have hok := hs₁.view
    rw [hmade.view] at hok
    refine ⟨hs₁.of_becomes hb (hok.mmap hm' hstart) fun pid => ?_, ?_, hb.mmaps, fun i m hm => ?_⟩
    · rw [View.mmap_sameLinks.parent]
      exact hs.noSelf pid
    · rw [hb.view, recordView, if_pos hu]
    · rw [hb.mmaps]
      exact hmade.kept i m hm
  · have hprocs := handleMmapEvent_kernel_procs hu h
    refine ⟨⟨?_, ?_, ?_, ?_⟩, ?_, ?_, ?_⟩
    all_goals rw [hprocs]
    · exact hs₁.filed
    · exact hs₁.view
    · exact hs₁.noSelf
    · exact hs₁.fresh
    · rw [hmade.view, recordView, if_neg hu]
    · rfl
    · exact hmade.kept

theorem processRecord_step {e : Event} {rc : Int} (he : ProcessRecord e) (hs : TreeOk s)
    (h : opWriteEvent cfg env s e = some (rc, s')) : rc = 0 ∧ RecordStep s s' e := by
  cases e with
  | fork f =>
    simp only [opWriteEvent, Option.map_eq_some_iff, Prod.mk.injEq] at h
    obtain ⟨s₁, h, rfl, rfl⟩ := h
    exact ⟨rfl, handleForkEvent_step hs h⟩
  | comm c =>
    simp only [opWriteEvent, Option.map_eq_some_iff, Prod.mk.injEq] at h
    obtain ⟨s₁, h, rfl, rfl⟩ := h
    have hs' : TreeOk { s with sfileInitDone := true } := ⟨hs.filed, hs.view, hs.noSelf, hs.fresh⟩
    have hstep := handleCommEvent_step hs' h
    exact ⟨rfl, hstep.ok, hstep.view, hstep.mmaps, hstep.kept⟩
  | mmap m =>
    simp only [opWriteEvent, Option.map_eq_some_iff, Prod.mk.injEq] at h
    obtain ⟨s₁, h, rfl, rfl⟩ := h
    exact ⟨rfl, handleMmapEvent_step hs h⟩
  | sample _ => exact he.elim
  | throttle _ => exact he.elim
  | lost _ => exact he.elim
  | exit => exact he.elim
  | other _ => exact he.elim

theorem treeOk_init (images : KernelImages) : TreeOk (initialState images) where
  filed := ⟨fun pid p hp => (by cases hp), KeyMap.sorted_nil⟩
  view := ⟨⟨fun a b => by simp [View.children, View.parent, Processes.view, Processes.find, KeyMap.find, initialState],
    fun a => by simp [View.children, Processes.view, Processes.find, KeyMap.find, initialState]⟩,
    fun pid x kv hx => (by cases hx), fun pid x hx => (by cases hx), fun pid x hx => (by cases hx)⟩
  noSelf := fun pid h => by cases h
  fresh := fun id m h => by cases h

end Oprofile.Operf
