import Mathlib.Logic.Function.Basic
import Oprofile.Library.Links
import Oprofile.Operf.ProcessNames
import Oprofile.Operf.Events

/-! Which processes a mapping reaches: the tree of forked processes. -/
namespace Oprofile.Operf

open Relation

/-- What relates a process to others, and its mappings: all but its names. -/
structure Ties where
  valid : Bool
  forked : Bool
  parentOfFork : Option UInt32
  forkedProcesses : List UInt32
  mmappings : List (UInt64 × MmapId)
  mmappingsFromParent : UInt64 → Bool

def ProcessInfo.ties (p : ProcessInfo) : Ties where
  valid := p.valid
  forked := p.forked
  parentOfFork := p.parentOfFork
  forkedProcesses := p.forkedProcesses
  mmappings := p.mmappings
  mmappingsFromParent := p.mmappingsFromParent

/-- The ties of all processes. -/
abbrev View := UInt32 → Option Ties

def Processes.view (t : Processes) : View := fun pid => (t.find pid).map ProcessInfo.ties

/-- A mapping is filed under its start, as the parent's only when it is handed down and there was
none. -/
def Ties.install (x : Ties) (start : UInt64) (id : MmapId) (doSelf : Bool) : Ties :=
  { x with
    mmappingsFromParent := fun a =>
      if a = start then doSelf && (KeyMap.find start x.mmappings).isNone else x.mmappingsFromParent a
    mmappings := KeyMap.insert addrLt start id x.mmappings }

namespace View

def children (V : View) (pid : UInt32) : List UInt32 := ((V pid).map (·.forkedProcesses)).getD []

def parent (V : View) (pid : UInt32) : Option UInt32 := (V pid).bind (·.parentOfFork)

/-- A process and those forked from it. -/
def Below (V : View) : UInt32 → UInt32 → Prop := ReflTransGen (Links.Child V.children)

/-- Those forked from a process. -/
def StrictlyBelow (V : View) : UInt32 → UInt32 → Prop := TransGen (Links.Child V.children)

def installAt (V : View) (pid : UInt32) (start : UInt64) (id : MmapId) (doSelf : Bool) : View :=
  Function.update V pid ((V pid).map (·.install start id doSelf))

open Classical in
/-- The mapping is handed down to all of a set of processes. -/
noncomputable def installOn (V : View) (S : UInt32 → Prop) (start : UInt64) (id : MmapId) : View :=
  fun j => if S j then (V j).map (·.install start id true) else V j

/-- Both ends of every link are known processes. -/
abbrev Consistent (V : View) : Prop := Links.Consistent V.children V.parent

variable {V W : View} {S S' : UInt32 → Prop} {pid j : UInt32} {start : UInt64} {id : MmapId}
  {doSelf : Bool}

/-- Two views with the same links. -/
structure SameLinks (V W : View) : Prop where
  children : W.children = V.children
  parent : W.parent = V.parent

theorem SameLinks.refl (V : View) : SameLinks V V := ⟨rfl, rfl⟩

theorem SameLinks.trans {U : View} (h : SameLinks U V) (h' : SameLinks V W) : SameLinks U W :=
  ⟨h'.children.trans h.children, h'.parent.trans h.parent⟩

theorem sameLinks_of_forall (h : ∀ j, (W j).map (fun x => (x.forkedProcesses, x.parentOfFork)) =
    (V j).map fun x => (x.forkedProcesses, x.parentOfFork)) : SameLinks V W := by
  constructor
  · funext j
    have hj := congrArg (Option.map Prod.fst) (h j)
    rw [Option.map_map, Option.map_map] at hj
    simpa [children, Function.comp_def] using congrArg (Option.getD · []) hj
  · funext j
    have hj := h j
    cases hV : V j <;> cases hW : W j <;> simp_all [parent]

theorem installAt_sameLinks : SameLinks V (V.installAt pid start id doSelf) := by
  apply sameLinks_of_forall
  intro j
  by_cases hj : j = pid
  · subst hj
    simp [installAt, Ties.install, Function.comp_def]
  · simp [installAt, hj]

theorem installOn_sameLinks : SameLinks V (V.installOn S start id) := by
  apply sameLinks_of_forall
  intro j
  by_cases hj : S j
  · simp [installOn, hj, Ties.install, Function.comp_def]
  · simp [installOn, hj]

theorem installOn_installOn (h : ∀ j, S j → ¬ S' j) : (V.installOn S start id).installOn S' start id =
    V.installOn (fun j => S j ∨ S' j) start id := by
  funext j
  by_cases hj : S j
  · simp [installOn, hj, h j hj]
  · by_cases hj' : S' j <;> simp [installOn, hj, hj']

theorem installAt_installOn (h : ¬ S pid) : (V.installAt pid start id true).installOn S start id =
    V.installOn (fun j => j = pid ∨ S j) start id := by
  funext j
  by_cases hj : j = pid
  · subst hj
    simp [installOn, installAt, h]
  · by_cases hS : S j <;> simp [installOn, installAt, hj, hS]

theorem installOn_congr (h : ∀ j, S j ↔ S' j) : V.installOn S start id = V.installOn S' start id := by
  have hS : S = S' := funext fun j => propext (h j)
  rw [hS]

theorem installOn_empty (h : ∀ j, ¬ S j) : V.installOn S start id = V := by
  funext j
  simp [installOn, h j]

theorem SameLinks.consistent (h : SameLinks V W) (hc : V.Consistent) : W.Consistent := by
  rw [Consistent, h.children, h.parent]
  exact hc

theorem below_iff : V.Below pid j ↔ j = pid ∨ V.StrictlyBelow pid j :=
  reflTransGen_iff_eq_or_transGen

theorem strictlyBelow_iff : V.StrictlyBelow pid j ↔ ∃ c ∈ V.children pid, V.Below c j :=
  TransGen.head'_iff

/-- The whole effect of `set_new_mapping_recursive`. -/
noncomputable def handDown (V : View) (pid : UInt32) (start : UInt64) (id : MmapId) (doSelf : Bool) :
    View :=
  (V.installAt pid start id doSelf).installOn (V.StrictlyBelow pid) start id

/-- On a child it is the same for the child itself and for what is below. -/
theorem handDown_true (h : ¬ V.StrictlyBelow pid pid) :
    V.handDown pid start id true = V.installOn (V.Below pid) start id := by
  rw [handDown, installAt_installOn h]
  exact installOn_congr fun j => below_iff.symm

theorem handDown_sameLinks : SameLinks V (V.handDown pid start id doSelf) :=
  installAt_sameLinks.trans installOn_sameLinks

end View

/-- Processes are filed under their own pids, in the order of these. -/
structure Filed (t : Processes) : Prop where
  keyed : Keyed t
  sorted : KeyMap.Sorted pidLt t.processMap

/-- An operation on the processes that leaves the mappings on the heap alone. -/
structure Becomes (t t' : Processes) (V : View) : Prop where
  view : t'.view = V
  mmaps : t'.mmaps = t.mmaps
  nextMmap : t'.nextMmap = t.nextMmap
  filed : Filed t'

variable {env : Env} {t t' t'' : Processes} {p q : ProcessInfo} {pid : UInt32} {V W : View}

theorem Becomes.refl (h : Filed t) : Becomes t t t.view := ⟨rfl, rfl, rfl, h⟩

theorem Becomes.trans (h : Becomes t t' V) (h' : Becomes t' t'' W) : Becomes t t'' W :=
  ⟨h'.view, h'.mmaps.trans h.mmaps, h'.nextMmap.trans h.nextMmap, h'.filed⟩

theorem Processes.view_of_find (h : t.find pid = some p) : t.view pid = some p.ties := by
  rw [Processes.view, h, Option.map_some]

theorem Processes.view_eq_none_iff : t.view pid = none ↔ t.find pid = none := by
  rw [Processes.view, Option.map_eq_none_iff]

theorem Processes.view_eq_some_iff {x : Ties} :
    t.view pid = some x ↔ ∃ p, t.find pid = some p ∧ p.ties = x := by
  rw [Processes.view, Option.map_eq_some_iff]

theorem set_becomes (h : Filed t) (hpid : p.pid = pid) :
    Becomes t (t.set p) (Function.update t.view pid (some p.ties)) := by
  refine ⟨funext fun j => ?_, rfl, rfl, keyed_set h.keyed p, KeyMap.sorted_insert pidLt_strictOrder h.sorted⟩
  by_cases hj : j = pid
  · subst hj
    rw [Processes.view_of_find (find_set_of_pid t hpid), Function.update_self]
  · rw [Function.update_of_ne hj, Processes.view, find_set_of_ne t hpid hj, Processes.view]

/-- Filing a process again with other names only. -/
theorem set_becomes_same (h : Filed t) (hp : t.find pid = some p) (hq : q.pid = pid)
    (hties : q.ties = p.ties) : Becomes t (t.set q) t.view := by
  have hset := set_becomes h hq
  rwa [hties, ← Processes.view_of_find hp, Function.update_eq_self] at hset

namespace ProcessInfo

@[simp] theorem checkMappingForAppname_ties (p : ProcessInfo) (m : OperfMmap) :
    (p.checkMappingForAppname m).ties = p.ties := by
  simp only [checkMappingForAppname]
  split_ifs <;> rfl

@[simp] theorem findBestMatchAppnameAllMappings_ties (p : ProcessInfo) (ms : List OperfMmap) :
    (p.findBestMatchAppnameAllMappings ms).ties = p.ties := by
  have hfold : ∀ (ms : List OperfMmap) (p : ProcessInfo),
      (ms.foldl checkMappingForAppname p).ties = p.ties := by
    intro ms
    induction ms with
    | nil => exact fun _ => rfl
    | cons m ms ih =>
      intro p
      rw [List.foldl_cons, ih, checkMappingForAppname_ties]
  simp only [findBestMatchAppnameAllMappings]
  split_ifs
  · rfl
  · exact hfold ms p

@[simp] theorem nameFrom_ties (p : ProcessInfo) (link name : Option CString) (full : Bool) :
    (p.nameFrom link name full).ties = p.ties := by
  unfold nameFrom
  cases link with
  | some exe =>
    simp only
    split_ifs <;> rfl
  | none =>
    cases name with
    | none => rfl
    | some name =>
      simp only
      split_ifs <;> rfl

@[simp] theorem setAppname_ties (p : ProcessInfo) (link : Option CString) (ms : List OperfMmap)
    (name : Option CString) (full : Bool) : (p.setAppname link ms name full).ties = p.ties := by
  simp only [setAppname]
  split_ifs <;> simp

end ProcessInfo

namespace Processes

theorem setAppname_becomes {name : Option CString} {full : Bool} (hf : Filed t) (hpid : p.pid = pid)
    (h : t.setAppname env p name full = some t') :
    Becomes t t' (Function.update t.view pid (some p.ties)) := by
  simp only [Processes.setAppname, Option.bind_eq_bind, Option.bind_eq_some_iff] at h
  obtain ⟨ms, -, h⟩ := h
  cases h
  have hkey : (p.setAppname (env.readlink t.readlinkCalls p.pid) ms name full).pid = pid := by
    rw [ProcessInfo.setAppname_pid, hpid]
  have hset := set_becomes hf hkey
  rw [ProcessInfo.setAppname_ties] at hset
  exact ⟨hset.view, hset.mmaps, hset.nextMmap, hset.filed.keyed, hset.filed.sorted⟩

theorem nameFromMapping_becomes {m : OperfMmap} (hf : Filed t) (hp : t.find pid = some p)
    (h : t.nameFromMapping env p m = some t') : Becomes t t' t.view := by
  have hpid := hf.keyed pid p hp
  unfold nameFromMapping at h
  split at h
  · split at h
    · cases h
      exact set_becomes_same hf hp (by simp [hpid]) (by simp)
    · have hname := setAppname_becomes hf hpid h
      rwa [← view_of_find hp, Function.update_eq_self] at hname
  · cases h
    exact Becomes.refl hf

/-- The first thing `set_new_mapping_recursive` does. -/
theorem install_becomes (hf : Filed t) (hp : t.find pid = some p) (m : OperfMmap) (mapping : MmapId)
    (doSelf : Bool) :
    Becomes t (t.set { p with
      mmappingsFromParent := fun a => if a = m.startAddr then
        doSelf && (KeyMap.find m.startAddr p.mmappings).isNone else p.mmappingsFromParent a
      mmappings := KeyMap.insert addrLt m.startAddr mapping p.mmappings })
      (t.view.installAt pid m.startAddr mapping doSelf) := by
  have hset := set_becomes hf (p := { p with
      mmappingsFromParent := fun a => if a = m.startAddr then
        doSelf && (KeyMap.find m.startAddr p.mmappings).isNone else p.mmappingsFromParent a
      mmappings := KeyMap.insert addrLt m.startAddr mapping p.mmappings }) (hf.keyed pid p hp)
  rw [View.installAt, view_of_find hp]
  exact hset

/-- The recursion leaves the links alone, and ends only where these do. -/
theorem setNewMappingRecursive_links {fuel : Nat} {mapping : MmapId} {doSelf : Bool} (hf : Filed t)
    (h : t.setNewMappingRecursive fuel pid mapping doSelf = some t') :
    Becomes t t' t'.view ∧ View.SameLinks t.view t'.view ∧
      Links.Bounded t.view.children fuel pid := by
  induction fuel generalizing t t' pid doSelf with
  | zero => cases h
  | succ fuel ih =>
    simp only [setNewMappingRecursive, Option.bind_eq_bind, Option.bind_eq_some_iff] at h
    obtain ⟨p, hp, m, -, h⟩ := h
    have hset := install_becomes hf hp m mapping doSelf
    generalize htset : t.set _ = t₁ at h hset
    have hlinks : View.SameLinks t.view t₁.view := by
      rw [hset.view]
      exact View.installAt_sameLinks
    have hfold : ∀ (cs : List UInt32) (t₁ t₂ : Processes), Filed t₁ →
        cs.foldlM (fun t fp => setNewMappingRecursive fuel t fp mapping true) t₁ = some t₂ →
        Becomes t₁ t₂ t₂.view ∧ View.SameLinks t₁.view t₂.view ∧
          ∀ c ∈ cs, Links.Bounded t₁.view.children fuel c := by
      intro cs
      induction cs with
      | nil =>
        intro t₁ t₂ hf₁ h
        cases h
        exact ⟨Becomes.refl hf₁, View.SameLinks.refl _, by simp⟩
      | cons c cs ihcs =>
        intro t₁ t₂ hf₁ h
        rw [List.foldlM_cons, Option.bind_eq_bind, Option.bind_eq_some_iff] at h
        obtain ⟨t₃, hc, h⟩ := h
        obtain ⟨hb, hl, hbound⟩ := ih hf₁ hc
        obtain ⟨hb', hl', hbound'⟩ := ihcs t₃ t₂ hb.filed h
        refine ⟨hb.trans hb', hl.trans hl', fun d hd => ?_⟩
        rcases List.mem_cons.mp hd with rfl | hd
        · exact hbound
        · rw [← hl.children]
          exact hbound' d hd
    obtain ⟨hb, hl, hbound⟩ := hfold _ _ _ hset.filed h
    refine ⟨hset.trans hb, hlinks.trans hl, .node fun c hc => ?_⟩
    rw [← hlinks.children]
    apply hbound c
    rwa [View.children, view_of_find hp] at hc

/-- The mapping reaches the process and all that are forked from it, each of them once. -/
theorem setNewMappingRecursive_becomes {fuel : Nat} {mapping : MmapId} {doSelf : Bool} (hf : Filed t)
    (hc : t.view.Consistent) (h : t.setNewMappingRecursive fuel pid mapping doSelf = some t') :
    ∃ m, t.mmaps mapping = some m ∧ Becomes t t' (t.view.handDown pid m.startAddr mapping doSelf) := by
  induction fuel generalizing t t' pid doSelf with
  | zero => cases h
  | succ fuel ih =>
    have hbound := (setNewMappingRecursive_links hf h).2.2
    simp only [setNewMappingRecursive, Option.bind_eq_bind, Option.bind_eq_some_iff] at h
    obtain ⟨p, hp, m, hm, h⟩ := h
    have hset := install_becomes hf hp m mapping doSelf
    generalize htset : t.set _ = t₁ at h hset
    -- the children are done one after the other, and what is below one is not below the others
    have hfold : ∀ (cs : List UInt32) (t₁ t₂ : Processes), Filed t₁ → View.SameLinks t.view t₁.view →
        t₁.mmaps = t.mmaps → (∀ c ∈ cs, c ∈ t.view.children pid) → cs.Nodup →
        cs.foldlM (fun t fp => setNewMappingRecursive fuel t fp mapping true) t₁ = some t₂ →
        Becomes t₁ t₂ (t₁.view.installOn (fun j => ∃ c ∈ cs, t.view.Below c j) m.startAddr mapping) := by
      intro cs
      induction cs with
      | nil =>
        intro t₁ t₂ hf₁ _ _ _ _ h
        cases h
        rw [View.installOn_empty (by simp)]
        exact Becomes.refl hf₁
      | cons c cs ihcs =>
        intro t₁ t₂ hf₁ hl hmm hsub hnodup h
        rw [List.foldlM_cons, Option.bind_eq_bind, Option.bind_eq_some_iff] at h
        obtain ⟨t₃, hstep, h⟩ := h
        obtain ⟨hc_notin, hnodup⟩ := List.nodup_cons.mp hnodup
        have hchild := hsub c List.mem_cons_self
        have hbelow : t₁.view.Below = t.view.Below := by rw [View.Below, View.Below, hl.children]
        have hstrict : ¬ t₁.view.StrictlyBelow c c := by
          rw [View.StrictlyBelow, hl.children]
          exact (Links.bounded_child hbound hchild).not_cycle
        obtain ⟨m', hm', hb⟩ := ih hf₁ (hl.consistent hc) hstep
        rw [hmm, hm, Option.some_inj] at hm'
        subst hm'
        rw [View.handDown_true hstrict, hbelow] at hb
        have hl₃ : View.SameLinks t.view t₃.view := by
          rw [hb.view]
          exact hl.trans View.installOn_sameLinks
        have hb' := ihcs t₃ t₂ hb.filed hl₃ (hb.mmaps.trans hmm)
          (fun d hd => hsub d (List.mem_cons_of_mem _ hd)) hnodup h
        rw [hb.view, View.installOn_installOn] at hb'
        · refine ⟨hb'.view.trans (View.installOn_congr fun j => ?_), (hb.trans hb').mmaps,
            (hb.trans hb').nextMmap, hb'.filed⟩
          simp
        · rintro j hj ⟨d, hd, hdj⟩
          have hne : c ≠ d := fun heq => hc_notin (heq ▸ hd)
          exact hc.siblings_disjoint hbound hchild (hsub d (List.mem_cons_of_mem _ hd)) hne hj hdj
    have hchildren : t.view.children pid = p.forkedProcesses := by
      rw [View.children, view_of_find hp]
      rfl
    have hl : View.SameLinks t.view t₁.view := by
      rw [hset.view]
      exact View.installAt_sameLinks
    have hb := hfold _ _ _ hset.filed hl hset.mmaps (fun c hc => by rwa [hchildren])
      (hchildren ▸ hc.nodup pid) h
    refine ⟨m, hm, hb.view.trans ?_, (hset.trans hb).mmaps, (hset.trans hb).nextMmap, hb.filed⟩
    rw [hset.view, View.handDown]
    exact View.installOn_congr fun j => by rw [View.strictlyBelow_iff, hchildren]

end Processes

end Oprofile.Operf
