import Mathlib.Data.List.Induction
import Oprofile.Operf.EventIds
import Oprofile.Operf.TreeSteps

/-! Whether the links from forked processes to their parents stay without circles. -/
namespace Oprofile.Operf

open Relation

variable {n : Nat} {cfg : Config n} {env : Env} {images : KernelImages} {s s' : OperfState}
  {t t' : Processes} {p : ProcessInfo} {pid par : UInt32} {V : View} {es : List Event} {rc : Int}

/-- Following the links to the parents never returns. -/
def View.NoCircle (V : View) : Prop := Links.Acyclic (Links.Parent V.parent)

theorem View.child_iff (hc : V.Consistent) (a b : UInt32) :
    Links.Child V.children a b ↔ Links.Parent V.parent b a := hc.mem_iff a b

/-- The lists of forked processes have no circle either. -/
theorem View.NoCircle.children (h : V.NoCircle) (hc : V.Consistent) :
    Links.Acyclic (Links.Child V.children) := by
  intro a hcycle
  refine h a (transGen_swap.mp ?_)
  exact TransGen.mono (fun x y hxy => (View.child_iff hc x y).mp hxy) a a hcycle

/-- A FORK record makes a circle exactly when it gives a process one of its own descendants for a
parent. -/
theorem View.fork_noCircle_iff (hok : ∀ x, V pid = some x → x.forked = false → V.parent pid = none)
    (h : V.NoCircle) (hatt : V.Attaches pid par) :
    (V.fork pid par).NoCircle ↔ ¬ ReflTransGen (Links.Parent V.parent) par pid := by
  have hnone : V.parent pid = none := by
    cases hx : V pid with
    | none => rw [View.parent, hx, Option.bind_none]
    | some x => exact hok x hx (hatt.2 x hx).2
  have hlink : ∀ a b, Links.Parent (V.fork pid par).parent a b ↔
      Links.Parent V.parent a b ∨ (a = pid ∧ b = par) := by
    intro a b
    rw [Links.Parent, View.fork_parent hatt, Links.Parent]
    split_ifs with ha
    · subst ha
      rw [hnone, Option.some_inj]
      exact ⟨fun heq => Or.inr ⟨rfl, heq.symm⟩, fun hor => (hor.resolve_left fun h => by cases h).2.symm⟩
    · exact ⟨Or.inl, fun hor => hor.resolve_right fun h => ha h.1⟩
  constructor
  · intro hno hback
    have hback' : ReflTransGen (Links.Parent (V.fork pid par).parent) par pid :=
      ReflTransGen.mono (fun a b hab => (hlink a b).mpr (Or.inl hab)) par pid hback
    exact hno pid (TransGen.head' ((hlink pid par).mpr (Or.inr ⟨rfl, rfl⟩)) hback')
  · exact fun hno => Links.acyclic_insert h (fun a b hab => (hlink a b).mp hab) hno

theorem foldlM_some {α β : Type} {P : β → Prop} {f : β → α → Option β} {l : List α}
    (hf : ∀ b x, x ∈ l → P b → ∃ b', f b x = some b' ∧ P b') {b : β} (hb : P b) :
    ∃ b', l.foldlM f b = some b' ∧ P b' := by
  induction l generalizing b with
  | nil => exact ⟨b, rfl, hb⟩
  | cons x l ih =>
    obtain ⟨c, hc, hP⟩ := hf b x List.mem_cons_self hb
    obtain ⟨b', hfold, hP'⟩ := ih (fun b y hy => hf b y (List.mem_cons_of_mem _ hy)) hP
    refine ⟨b', ?_, hP'⟩
    simp [List.foldlM_cons, hc, hfold]

theorem mapM_some {A B : Type} {f : A → Option B} {xs : List A} (h : ∀ x ∈ xs, ∃ y, f x = some y) :
    ∃ ys, xs.mapM f = some ys := by
  induction xs with
  | nil => exact ⟨[], rfl⟩
  | cons x xs ih =>
    obtain ⟨y, hy⟩ := h x List.mem_cons_self
    obtain ⟨ys, hys⟩ := ih fun x' hx' => h x' (List.mem_cons_of_mem _ hx')
    exact ⟨y :: ys, by simp [List.mapM_cons, hy, hys]⟩

/-- What the operations on the processes need to come to an end. -/
structure Sound (t : Processes) : Prop where
  filed : Filed t
  view : ViewOk t.view t.mmaps
  noCircle : t.view.NoCircle

namespace Sound

theorem of_becomes (h : Sound t) (hb : Becomes t t' V) (hV : ViewOk V t.mmaps)
    (hl : View.SameLinks t.view V) : Sound t' where
  filed := hb.filed
  view := by rwa [hb.view, hb.mmaps]
  noCircle := by
    rw [hb.view, View.NoCircle, hl.parent]
    exact h.noCircle

theorem mem_keys (h : t.find pid = some p) : pid ∈ t.processMap.map Prod.fst :=
  List.mem_map_of_mem (KeyMap.mem_of_find h)

theorem child_known (h : Sound t) {c : UInt32} (hc : c ∈ t.view.children pid) :
    ∃ p, t.find c = some p := by
  rw [h.view.consistent.mem_iff] at hc
  cases hp : t.find c with
  | none =>
    rw [View.parent, Processes.view_eq_none_iff.mpr hp] at hc
    cases hc
  | some p => exact ⟨p, rfl⟩

/-- No chain of forked processes is as long as `depth`. -/
theorem bounded (h : Sound t) (hp : t.find pid = some p) :
    Links.Bounded t.view.children t.depth pid := by
  have hb := Links.bounded_of_acyclic (t.processMap.map Prod.fst)
    (h.noCircle.children h.view.consistent)
    (fun a c hc => by
      obtain ⟨q, hq⟩ := h.child_known hc
      exact mem_keys hq) (mem_keys hp)
  rwa [List.length_map] at hb

theorem setNewMappingRecursive {mapping : MmapId} {m : OperfMmap} (hm : t.mmaps mapping = some m)
    {fuel : Nat} (doSelf : Bool) (h : Sound t) (hp : ∃ p, t.find pid = some p)
    (hb : Links.Bounded t.view.children fuel pid) :
    ∃ t', t.setNewMappingRecursive fuel pid mapping doSelf = some t' := by
  induction fuel generalizing t pid doSelf with
  | zero => cases hb
  | succ fuel ih =>
    obtain ⟨p, hp⟩ := hp
    have hset := Processes.install_becomes h.filed hp m mapping doSelf
    simp only [Processes.setNewMappingRecursive, hp, hm, Option.bind_eq_bind, Option.bind_some]
    generalize t.set _ = t₁ at hset ⊢
    have hsound : Sound t₁ := by
      refine h.of_becomes hset ?_ View.installAt_sameLinks
      refine h.view.update (View.installAt_sameLinks.consistent h.view.consistent) fun y hy => ?_
      obtain ⟨x, hx, rfl⟩ := Option.map_eq_some_iff.mp hy
      exact (h.view.entry hx).install hm rfl
    have hchildren : t₁.view.children = t.view.children := by
      rw [hset.view, View.installAt_sameLinks.children]
    have hlist : t.view.children pid = p.forkedProcesses := by
      rw [View.children, Processes.view_of_find hp]
      rfl
    obtain ⟨t', hfold, -⟩ := foldlM_some (l := p.forkedProcesses)
      (P := fun u => Sound u ∧ u.view.children = t.view.children ∧ u.mmaps = t.mmaps)
      (f := fun t fp => Processes.setNewMappingRecursive fuel t fp mapping true)
      (fun u c hc hu => by
        obtain ⟨hu, hch, hmm⟩ := hu
        have hchild : c ∈ u.view.children pid := by rw [hch, hlist]; exact hc
        have hbound : Links.Bounded u.view.children fuel c := by
          rw [hch]
          exact Links.bounded_child hb (by rwa [hlist])
        obtain ⟨u', hu'⟩ := ih (by rw [hmm, hm]) true hu (hu.child_known hchild) hbound
        obtain ⟨m', hm', hbec⟩ :=
          Processes.setNewMappingRecursive_becomes hu.filed hu.view.consistent hu'
        refine ⟨u', hu', hu.of_becomes hbec (hu.view.handDown hm' rfl) View.handDown_sameLinks, ?_,
          hbec.mmaps.trans hmm⟩
        rw [hbec.view, View.handDown_sameLinks.children, hch])
      ⟨hsound, hchildren, hset.mmaps⟩
    exact ⟨t', hfold⟩

theorem setAppname {name : Option CString} {full : Bool}
    (hp : ∀ kv ∈ p.mmappings, ∃ m, t.mmaps kv.2 = some m) :
    ∃ t', t.setAppname env p name full = some t' := by
  obtain ⟨ms, hms⟩ := mapM_some hp
  exact ⟨_, by rw [Processes.setAppname, Processes.mappingsOf, hms]; rfl⟩

theorem stored (h : Sound t) (hp : t.find pid = some p) :
    ∀ kv ∈ p.mmappings, ∃ m, t.mmaps kv.2 = some m := by
  intro kv hkv
  obtain ⟨m, hm, -⟩ := h.view.stored pid p.ties kv (Processes.view_of_find hp) hkv
  exact ⟨m, hm⟩

theorem known_iff : (∃ p, t.find pid = some p) ↔ (t.view pid).isSome = true := by
  rw [Processes.view, Option.isSome_map, Option.isSome_iff_exists]

theorem processMapping {mapping : MmapId} {m : OperfMmap} (doSelf : Bool) (env : Env) (h : Sound t)
    (hp : ∃ p, t.find pid = some p) (hm : t.mmaps mapping = some m) :
    ∃ t', t.processMapping env pid mapping doSelf = some t' ∧
      Becomes t t' (t.view.handDown pid m.startAddr mapping doSelf) ∧ Sound t' := by
  obtain ⟨p, hp⟩ := hp
  have hname : ∃ t₁, t.nameFromMapping env p m = some t₁ := by
    unfold Processes.nameFromMapping
    split_ifs
    · exact ⟨_, rfl⟩
    · exact setAppname (h.stored hp)
    · exact ⟨t, rfl⟩
  obtain ⟨t₁, h₁⟩ := hname
  have hb₁ := Processes.nameFromMapping_becomes h.filed hp h₁
  have hsound₁ := h.of_becomes hb₁ h.view (View.SameLinks.refl _)
  have hknown : ∃ p, t₁.find pid = some p := by
    rw [known_iff, hb₁.view, ← known_iff]
    exact ⟨p, hp⟩
  obtain ⟨q, hq⟩ := hknown
  obtain ⟨t', ht'⟩ := setNewMappingRecursive (hb₁.mmaps ▸ hm) doSelf hsound₁ ⟨q, hq⟩
    (hsound₁.bounded hq)
  have hrun : t.processMapping env pid mapping doSelf = some t' := by
    simp [Processes.processMapping, hp, hm, h₁, ht']
  obtain ⟨m', hm', hb⟩ := Processes.processMapping_becomes h.filed h.view.consistent hrun
  rw [hm, Option.some_inj] at hm'
  subst hm'
  exact ⟨t', hrun, hb, h.of_becomes hb (h.view.handDown hm rfl) View.handDown_sameLinks⟩

end Sound

theorem View.handDown_isSome (V : View) (pid : UInt32) (start : UInt64) (id : MmapId) (doSelf : Bool)
    (j : UInt32) :
    (V.handDown pid start id doSelf j).isSome = (V j).isSome := by
  have hat : (V.installAt pid start id doSelf j).isSome = (V j).isSome := by
    by_cases hj : j = pid
    · subst hj
      simp [View.installAt]
    · simp [View.installAt, hj]
  rw [View.handDown, View.installOn]
  split_ifs
  · rw [Option.isSome_map, hat]
  · exact hat

theorem View.keepOrDrop_isSome {kv : UInt64 × MmapId} (j : UInt32) :
    (View.keepOrDrop pid V kv j).isSome = (V j).isSome := by
  unfold View.keepOrDrop
  split_ifs
  · by_cases hj : j = pid
    · subst hj
      simp [View.change]
    · simp [View.change, hj]
  · exact View.handDown_isSome V pid kv.1 kv.2 false j

namespace Sound

theorem copyMappings {kvs : List (UInt64 × MmapId)} (env : Env) (h : Sound t)
    (hp : ∃ p, t.find pid = some p) (hkv : ∀ kv ∈ kvs, ∃ m, t.mmaps kv.2 = some m) :
    ∃ t', kvs.foldlM (fun t kv => t.processMapping env pid kv.2 true) t = some t' := by
  obtain ⟨t', hfold, -⟩ := foldlM_some (l := kvs)
    (P := fun u => Sound u ∧ u.mmaps = t.mmaps ∧ ∃ p, u.find pid = some p)
    (f := fun t kv => Processes.processMapping env t pid kv.2 true)
    (fun u kv hmem hu => by
      obtain ⟨hu, hmm, hknown⟩ := hu
      obtain ⟨m, hm⟩ := hkv kv hmem
      obtain ⟨u', hrun, hb, hu'⟩ := processMapping true env hu hknown (hmm ▸ hm)
      refine ⟨u', hrun, hu', hb.mmaps.trans hmm, ?_⟩
      rw [known_iff, hb.view, View.handDown_isSome, ← known_iff]
      exact hknown)
    ⟨h, rfl, hp⟩
  exact ⟨t', hfold⟩

theorem setForkInfo {q : ProcessInfo} (env : Env) (h : Sound t) (hp : t.find pid = some p)
    (hq : t.find par = some q) (hne : pid ≠ par) (hfree : t.view.parent pid = none)
    (hno : ¬ ReflTransGen (Links.Parent t.view.parent) par pid) :
    ∃ t', t.setForkInfo env pid par = some t' := by
  have hchild := Processes.change_becomes (q := { p with forked := true, parentOfFork := some par })
    (f := fun x => { x with forked := true, parentOfFork := some par }) h.filed hp rfl rfl
  have hother : (t.set { p with forked := true, parentOfFork := some par }).find par = some q := by
    rw [find_set_of_ne t _ hne.symm, hq]
    exact h.filed.keyed pid p hp
  simp only [Processes.setForkInfo, Processes.copyMappingsToForkedProcess, hp, Option.bind_eq_bind,
    Option.bind_some]
  generalize t.set _ = t₁ at hchild hother ⊢
  have hparent := Processes.change_becomes (q := { q with forkedProcesses := q.forkedProcesses ++ [pid] })
    (f := fun x => { x with forkedProcesses := x.forkedProcesses ++ [pid] }) hchild.filed hother rfl rfl
  have hself : (t₁.set { q with forkedProcesses := q.forkedProcesses ++ [pid] }).find par =
      some { q with forkedProcesses := q.forkedProcesses ++ [pid] } :=
    find_set_of_pid t₁ (hchild.filed.keyed par q hother)
  simp only [hother, Option.bind_some]
  generalize t₁.set _ = t₂ at hparent hself ⊢
  rw [hself, Option.bind_some]
  rw [hchild.view] at hparent
  have hlink : Becomes t t₂ (t.view.link pid par) := hchild.trans hparent
  have hvp := Processes.view_of_find hp
  have hvq := Processes.view_of_find hq
  have hsound : Sound t₂ := by
    refine ⟨hlink.filed, ?_, ?_⟩
    · rw [hlink.view, hlink.mmaps]
      exact h.view.link hvp hvq hne hfree
    · rw [hlink.view, View.NoCircle]
      refine Links.acyclic_insert h.noCircle (fun a b hab => ?_) hno
      rw [Links.Parent, View.parent_link hvp hne] at hab
      split_ifs at hab with ha
      · exact Or.inr ⟨ha, (Option.some_inj.mp hab).symm⟩
      · exact Or.inl hab
  have hknown : ∃ p, t₂.find pid = some p := by
    rw [known_iff, hlink.view, View.link, View.change, Function.update_of_ne hne, View.change,
      Function.update_self, hvp]
    rfl
  refine copyMappings env hsound hknown fun kv hkv => ?_
  rw [hlink.mmaps]
  exact h.stored hq kv hkv

theorem tryDisassociate (env : Env) (name : CString) (h : Sound t) (hp : t.find pid = some p)
    (hparent : t.view.parent pid = some par) (hne : par ≠ pid) :
    ∃ t', t.tryDisassociateFromParent env pid name = some t' := by
  have hpar : p.parentOfFork = some par := by
    rw [View.parent, Processes.view_of_find hp, Option.bind_some] at hparent
    exact hparent
  have hother : p.parentOfFork ≠ some pid := fun heq => hne (Option.some_inj.mp (hpar.symm.trans heq))
  have hname : ∃ t₁, (t.set { p with valid := true }).setAppname env { p with valid := true } name false =
      some t₁ :=
    setAppname (p := { p with valid := true }) fun kv hkv => h.stored hp kv hkv
  obtain ⟨t₁, h₁⟩ := hname
  have hset := Processes.setValid_becomes h.filed hp h₁
  have hsound₁ := h.of_becomes hset h.view.setValid View.setValid_sameLinks
  have hknown : ∃ p, t₁.find pid = some p := by
    rw [known_iff, hset.view, View.change, Function.update_self, Option.isSome_map, ← known_iff]
    exact ⟨p, hp⟩
  obtain ⟨t₂, h₂, hsound₂, hparent₂, hknown₂⟩ := foldlM_some (l := p.mmappings)
    (P := fun u => Sound u ∧ (u.mmaps = t.mmaps ∧ u.view.parent = t.view.parent) ∧
      (∀ j, (u.view j).isSome = (t₁.view j).isSome))
    (f := Processes.keepOrDropMapping env pid)
    (fun u kv hmem hu => by
      obtain ⟨hu, ⟨hmm, hpars⟩, hknown'⟩ := hu
      obtain ⟨m, hm, hstart⟩ := h.view.stored pid p.ties kv (Processes.view_of_find hp) hmem
      rw [← hmm] at hm
      have hfind : ∃ r, u.find pid = some r := by
        rw [known_iff, hknown', ← known_iff]
        exact hknown
      obtain ⟨r, hr⟩ := hfind
      have hrun : ∃ u', Processes.keepOrDropMapping env pid u kv = some u' := by
        simp only [Processes.keepOrDropMapping, hr, hm, Option.bind_eq_bind, Option.bind_some]
        split_ifs
        · exact ⟨_, rfl⟩
        · obtain ⟨u', hrun, -, -⟩ := processMapping false env hu ⟨r, hr⟩ hm
          exact ⟨u', hrun⟩
      obtain ⟨u', hrun⟩ := hrun
      have hb := Processes.keepOrDropMapping_becomes hu.filed hu.view.consistent ⟨m, hm, hstart⟩ hrun
      refine ⟨u', hrun, hu.of_becomes hb (hu.view.keepOrDrop ⟨m, hm, hstart⟩)
        View.keepOrDrop_sameLinks, ⟨hb.mmaps.trans hmm, ?_⟩, fun j => ?_⟩
      · rw [hb.view, View.keepOrDrop_sameLinks.parent, hpars]
      · rw [hb.view, View.keepOrDrop_isSome, hknown'])
    ⟨hsound₁, ⟨hset.mmaps, by rw [hset.view, View.setValid_sameLinks.parent]⟩, fun _ => rfl⟩
  have hmem : pid ∈ t₂.view.children par := by
    rw [hsound₂.view.consistent.mem_iff, hparent₂.2, hparent]
  have hleave : ∃ t₃, t₂.leaveParent p = some t₃ := by
    cases hr : t₂.find par with
    | none =>
      rw [View.children, Processes.view_eq_none_iff.mpr hr] at hmem
      cases hmem
    | some r =>
      apply Option.isSome_iff_exists.mp
      simp only [Processes.leaveParent, hpar, Processes.removeForkedProcess, hr, Option.bind_eq_bind,
        Option.bind_some]
      rfl
  obtain ⟨t₃, h₃⟩ := hleave
  have hb₃ := Processes.leaveParent_becomes hsound₂.filed (h.filed.keyed pid p hp) hpar h₃
  have hfind : ∃ r, t₃.find pid = some r := by
    rw [known_iff, hb₃.view, View.change, Function.update_of_ne hne.symm, hknown₂, ← known_iff]
    exact hknown
  obtain ⟨r, hr⟩ := hfind
  apply Option.isSome_iff_exists.mp
  simp only [Processes.tryDisassociateFromParent, hp, Option.bind_eq_bind, Option.bind_some,
    if_neg hother, h₁, h₂, h₃, hr]
  rfl

theorem newProcessInfo (env : Env) (t : Processes) (pid : UInt32) (name : Option CString)
    (full valid : Bool) : ∃ t', t.newProcessInfo env pid name full valid = some t' :=
  setAppname fun kv hkv => by cases hkv

theorem ensureProcess (env : Env) (name : Option CString) (full : Bool) (h : Sound t) (pid : UInt32) :
    ∃ t', t.ensureProcess env pid name full = some t' ∧ Becomes t t' (t.view.ensure pid) ∧ Sound t' := by
  have hrun : ∃ t', t.ensureProcess env pid name full = some t' := by
    unfold Processes.ensureProcess
    split
    · exact ⟨t, rfl⟩
    · exact newProcessInfo env t pid name full false
  obtain ⟨t', hrun⟩ := hrun
  have hb := Processes.ensureProcess_becomes h.filed hrun
  exact ⟨t', hrun, hb, h.of_becomes hb h.view.ensure View.ensure_sameLinks⟩

end Sound

theorem TreeOk.sound (hs : TreeOk s) (hno : s.procs.view.NoCircle) : Sound s.procs :=
  ⟨hs.filed, hs.view, hno⟩

/-- A FORK record does not give a process one of its own descendants for a parent. -/
def JoinsForest (s : OperfState) : Event → Prop
  | .fork f => s.procs.view.Attaches f.pid f.ppid →
      ¬ ReflTransGen (Links.Parent s.procs.view.parent) f.ppid f.pid
  | _ => True

theorem handleForkEvent_some {f : ForkEvent} (cfg : Config n) (env : Env) (hs : Sound s.procs)
    (hjoin : JoinsForest s (.fork f)) : ∃ s', handleForkEvent cfg env s f = some s' := by
  obtain ⟨t, ht, hb, hsound⟩ := Sound.ensureProcess env cfg.appName cfg.appName.isSome hs f.ppid
  have hparents : t.view.parent = s.procs.view.parent := by
    rw [hb.view, View.ensure_sameLinks.parent]
  obtain ⟨y, hy⟩ := View.ensure_some s.procs.view f.ppid
  rw [← hb.view] at hy
  obtain ⟨q, hq, -⟩ := Processes.view_eq_some_iff.mp hy
  simp only [handleForkEvent, ht, Option.bind_eq_bind, Option.bind_some]
  split_ifs with heq
  · exact ⟨_, rfl⟩
  · have hother : t.view f.pid = s.procs.view f.pid := by rw [hb.view, View.ensure_other heq]
    split
    · rename_i hnew
      have hnew' := Processes.view_eq_none_iff.mpr hnew
      obtain ⟨t₁, h₁⟩ := Sound.newProcessInfo env t f.pid none false false
      have hmade := Processes.newProcessInfo_becomes hsound.filed h₁
      have hsound₁ := hsound.of_becomes hmade (hsound.view.create hnew') (View.create_sameLinks hnew')
      have hself : t₁.view f.pid = some (Ties.fresh false) := by
        rw [hmade.view, View.create, Function.update_self]
      have hpar : t₁.view f.ppid = some y := by
        rw [hmade.view, View.create, Function.update_of_ne (Ne.symm heq), hy]
      obtain ⟨p₁, hp₁, -⟩ := Processes.view_eq_some_iff.mp hself
      obtain ⟨q₁, hq₁, -⟩ := Processes.view_eq_some_iff.mp hpar
      have hlinks : t₁.view.parent = s.procs.view.parent := by
        rw [hmade.view, (View.create_sameLinks hnew').parent, hparents]
      have hno : ¬ ReflTransGen (Links.Parent t₁.view.parent) f.ppid f.pid := by
        rw [hlinks]
        exact hjoin ⟨heq, fun x hx => by rw [← hother, hnew'] at hx; cases hx⟩
      obtain ⟨t₂, h₂⟩ := hsound₁.setForkInfo env hp₁ hq₁ heq
        (by rw [View.parent, hself]; rfl) hno
      exact ⟨_, by rw [h₁, Option.bind_some, h₂]; rfl⟩
    · rename_i p hp
      have hview := Processes.view_of_find hp
      split_ifs with hknown
      · exact ⟨_, rfl⟩
      · have hforked : p.ties.forked = false := by
          have hforked : p.forked = false := by simp_all
          exact hforked
        have hno : ¬ ReflTransGen (Links.Parent t.view.parent) f.ppid f.pid := by
          rw [hparents]
          refine hjoin ⟨heq, fun x hx => ?_⟩
          rw [← hother, hview] at hx
          cases hx
          have hvalid : p.valid = false := by simp_all
          exact ⟨hvalid, hforked⟩
        obtain ⟨t₁, h₁⟩ := hsound.setForkInfo env hp hq heq
          ((hsound.view.parent_none_iff hview).mpr hforked) hno
        exact ⟨_, by rw [h₁]; rfl⟩

theorem handleCommEvent_some {c : CommEvent} (cfg : Config n) (env : Env) (hs : Sound s.procs)
    (hself : ∀ pid, s.procs.view.parent pid ≠ some pid) :
    ∃ s', handleCommEvent cfg env s c = some s' := by
  unfold handleCommEvent
  split
  · obtain ⟨t, ht⟩ := Sound.newProcessInfo env s.procs c.pid (knownAppname cfg c.pid (some c.comm)).1
      (knownAppname cfg c.pid (some c.comm)).2 (c.pid == c.tid)
    refine ⟨s.setProcs t, ?_⟩
    simp only [ht, Option.map_some]
  · rename_i p hp
    have hview := Processes.view_of_find hp
    have hrun : ∃ t, commKnownProcess env s.procs p c = some t := by
      unfold commKnownProcess
      split_ifs with _ _ hforked
      · have hsome : s.procs.view.parent c.pid ≠ none := by
          rw [ne_eq, hs.view.parent_none_iff hview]
          exact fun hf => absurd (hf.symm.trans hforked) Bool.false_ne_true
        obtain ⟨par, hpar⟩ := Option.ne_none_iff_exists'.mp hsome
        exact hs.tryDisassociate env c.comm hp hpar fun heq => hself c.pid (heq ▸ hpar)
      · exact Sound.setAppname (p := { p with valid := true }) fun kv hkv => hs.stored hp kv hkv
      · exact ⟨_, rfl⟩
      · exact Sound.setAppname (hs.stored hp)
      · exact ⟨_, rfl⟩
    obtain ⟨t, ht⟩ := hrun
    exact ⟨_, by rw [ht]; rfl⟩

theorem handleMmapEvent_some {m : MmapEvent} (cfg : Config n) (env : Env) (hs : TreeOk s)
    (hno : s.procs.view.NoCircle) : ∃ s', handleMmapEvent cfg env s m = some s' := by
  have hmade := eventMapping_made hs.fresh m
  have hsound := (hs.mappingMade hmade).sound (by rwa [hmade.view])
  obtain ⟨m', hm', hstart⟩ := hmade.made
  simp only [handleMmapEvent, hm', Option.bind_eq_bind, Option.bind_some]
  split_ifs
  · exact ⟨_, rfl⟩
  · obtain ⟨t, ht, hb, hsound₁⟩ := Sound.ensureProcess env (knownAppname cfg m.pid none).1
      (knownAppname cfg m.pid none).2 hsound m.pid
    obtain ⟨y, hy⟩ := View.ensure_some (eventMapping s m).1.procs.view m.pid
    rw [← hb.view] at hy
    obtain ⟨q, hq, -⟩ := Processes.view_eq_some_iff.mp hy
    have hheap : t.mmaps (eventMapping s m).2 = some m' := by rw [hb.mmaps, hm']
    obtain ⟨t', ht', -, -⟩ := hsound₁.processMapping false env ⟨q, hq⟩ hheap
    exact ⟨_, by rw [ht, Option.bind_some, ht']; rfl⟩

/-- A record that joins no circle is handled, and leaves no circle. -/
theorem processRecord_some {e : Event} (cfg : Config n) (env : Env) (he : ProcessRecord e)
    (hs : TreeOk s) (hno : s.procs.view.NoCircle) (hjoin : JoinsForest s e) :
    ∃ s', opWriteEvent cfg env s e = some (0, s') ∧ TreeOk s' ∧ s'.procs.view.NoCircle := by
  have hrun : ∃ rc s', opWriteEvent cfg env s e = some (rc, s') := by
    cases e with
    | fork f =>
      obtain ⟨s', h⟩ := handleForkEvent_some cfg env (hs.sound hno) hjoin
      exact ⟨0, s', by rw [opWriteEvent, h]; rfl⟩
    | comm c =>
      obtain ⟨s', h⟩ := handleCommEvent_some (s := { s with sfileInitDone := true }) (c := c) cfg env
        (hs.sound hno) hs.noSelf
      exact ⟨0, s', by rw [opWriteEvent, h]; rfl⟩
    | mmap m =>
      obtain ⟨s', h⟩ := handleMmapEvent_some cfg env hs hno
      exact ⟨0, s', by rw [opWriteEvent, h]; rfl⟩
    | sample _ => exact he.elim
    | throttle _ => exact he.elim
    | lost _ => exact he.elim
    | exit => exact he.elim
    | other _ => exact he.elim
  obtain ⟨rc, s', hrun⟩ := hrun
  obtain ⟨rfl, hstep⟩ := processRecord_step he hs hrun
  refine ⟨s', hrun, hstep.ok, ?_⟩
  rw [hstep.view]
  cases e with
  | fork f =>
    by_cases hatt : s.procs.view.Attaches f.pid f.ppid
    · exact (View.fork_noCircle_iff (fun x hx hf => (hs.view.parent_none_iff hx).mpr hf) hno hatt).mpr
        (hjoin hatt)
    · rw [recordView, View.NoCircle, View.fork_parent_of_not hatt]
      exact hno
  | comm c =>
    refine Links.acyclic_mono hno fun a b hab => ?_
    rcases View.comm_parent hs.view c.pid (c.pid == c.tid) a with heq | heq
    · rw [Links.Parent, recordView, heq] at hab
      exact hab
    · rw [Links.Parent, recordView, heq] at hab
      cases hab
  | mmap m =>
    rw [recordView]
    split_ifs
    · rw [View.NoCircle, View.mmap_sameLinks.parent]
      exact hno
    · exact hno
  | sample _ => exact he.elim
  | throttle _ => exact he.elim
  | lost _ => exact he.elim
  | exit => exact he.elim
  | other _ => exact he.elim

/-- Records handled one after the other. -/
theorem writeEvents_append {xs ys : List Event} (h : writeEvents cfg env xs s = some (0, s')) :
    writeEvents cfg env (xs ++ ys) s = writeEvents cfg env ys s' := by
  induction xs generalizing s with
  | nil =>
    cases h
    rfl
  | cons x xs ih =>
    simp only [writeEvents, Option.bind_eq_bind, Option.bind_eq_some_iff] at h
    obtain ⟨⟨rc, s₁⟩, hstep, h⟩ := h
    simp only at h
    split at h
    · rename_i hneg
      cases h
      exact absurd hneg (by decide)
    · rename_i hok
      rw [List.cons_append, writeEvents, hstep, Option.bind_eq_bind, Option.bind_some]
      simp only
      rw [if_neg hok, ih h]

theorem writeEvents_singleton {e : Event} (h : opWriteEvent cfg env s e = some (0, s')) :
    writeEvents cfg env [e] s = some (0, s') := by
  simp [writeEvents, h]

/-- A run over records of processes keeps the processes in order. -/
theorem writeEvents_treeOk (hes : ∀ e ∈ es, ProcessRecord e) (hs : TreeOk s)
    (h : writeEvents cfg env es s = some (rc, s')) : rc = 0 ∧ TreeOk s' := by
  induction es generalizing s with
  | nil =>
    cases h
    exact ⟨rfl, hs⟩
  | cons e es ih =>
    simp only [writeEvents, Option.bind_eq_bind, Option.bind_eq_some_iff] at h
    obtain ⟨⟨rc₁, s₁⟩, hstep, h⟩ := h
    obtain ⟨rfl, hok⟩ := processRecord_step (hes e List.mem_cons_self) hs hstep
    simp only [lt_self_iff_false, if_false] at h
    exact ih (fun e' he' => hes e' (List.mem_cons_of_mem _ he')) hok.ok h

/-- The process graph is a forest, and a mapping can be handed down from each of its processes. -/
structure IsForest (s : OperfState) : Prop where
  noCircle : ∀ pid, ¬ TransGen (Links.Parent s.procs.view.parent) pid pid
  once : ∀ a b pid, pid ∈ s.procs.view.children a → pid ∈ s.procs.view.children b → a = b
  nodup : ∀ a, (s.procs.view.children a).Nodup
  ends : ∀ pid p mapping m doSelf, s.procs.find pid = some p → s.procs.mmaps mapping = some m →
    ∃ t, s.procs.setNewMappingRecursive s.procs.depth pid mapping doSelf = some t

theorem TreeOk.isForest (hs : TreeOk s) (hno : s.procs.view.NoCircle) : IsForest s where
  noCircle := hno
  once := fun _ _ _ => hs.view.consistent.parent_unique
  nodup := hs.view.consistent.nodup
  ends := fun _ p _ _ doSelf hp hm =>
    (hs.sound hno).setNewMappingRecursive hm doSelf ⟨p, hp⟩ ((hs.sound hno).bounded hp)

/-- A run in which no FORK record makes a circle is handled to its end. -/
theorem joining_run {pre : List Event} (cfg : Config n) (env : Env) (hes : ∀ e ∈ es, ProcessRecord e)
    (hjoin : ∀ pre e, pre ++ [e] <+: es → ∀ s,
      writeEvents cfg env pre (initialState images) = some (0, s) → JoinsForest s e) (hpre : pre <+: es) :
    ∃ s, writeEvents cfg env pre (initialState images) = some (0, s) ∧ TreeOk s ∧
      s.procs.view.NoCircle := by
  induction pre using List.reverseRecOn with
  | nil =>
    refine ⟨_, rfl, treeOk_init images, fun pid hcycle => ?_⟩
    obtain ⟨c, hc, -⟩ := TransGen.head'_iff.mp hcycle
    cases hc
  | append_singleton pre e ih =>
    obtain ⟨s, hrun, hok, hno⟩ := ih ((List.prefix_append pre [e]).trans hpre)
    have he : ProcessRecord e := hes e (hpre.subset (by simp))
    obtain ⟨s', hstep, hok', hno'⟩ := processRecord_some cfg env he hok hno (hjoin pre e hpre s hrun)
    exact ⟨s', (writeEvents_append hrun).trans (writeEvents_singleton hstep), hok', hno'⟩

/-- Every state of a run over COMM, FORK and MMAP records is a forest exactly when no FORK record
gives a process one of its own descendants for a parent. -/
theorem forks_stay_forest (cfg : Config n) (env : Env) (images : KernelImages) (es : List Event)
    (hes : ∀ e ∈ es, ProcessRecord e) :
    (∀ pre, pre <+: es →
      ∃ s, writeEvents cfg env pre (initialState images) = some (0, s) ∧ IsForest s) ↔
    ∀ pre e, pre ++ [e] <+: es →
      ∀ s, writeEvents cfg env pre (initialState images) = some (0, s) → JoinsForest s e := by
  constructor
  · intro hforest pre e hpre s hrun
    have hesPre : ∀ e' ∈ pre, ProcessRecord e' := fun e' he' => hes e' (hpre.subset (by simp [he']))
    obtain ⟨-, hok⟩ := writeEvents_treeOk hesPre (treeOk_init images) hrun
    obtain ⟨s₀, hrun₀, hbefore⟩ := hforest pre ((List.prefix_append pre [e]).trans hpre)
    rw [hrun, Option.some_inj, Prod.mk.injEq] at hrun₀
    obtain ⟨-, rfl⟩ := hrun₀
    obtain ⟨s', hrun', hafter⟩ := hforest (pre ++ [e]) hpre
    rw [writeEvents_append hrun] at hrun'
    cases e with
    | fork f =>
      intro hatt
      simp only [writeEvents, Option.bind_eq_bind, Option.bind_eq_some_iff] at hrun'
      obtain ⟨⟨rc, s₁⟩, hstep, hrun'⟩ := hrun'
      obtain ⟨rfl, hrec⟩ := processRecord_step (show ProcessRecord (.fork f) from trivial) hok hstep
      simp only [lt_self_iff_false, if_false, Option.some.injEq, Prod.mk.injEq] at hrun'
      obtain ⟨-, rfl⟩ := hrun'
      have hno' : (s.procs.view.fork f.pid f.ppid).NoCircle := by
        have hview := hrec.view
        rw [recordView] at hview
        rw [← hview]
        exact hafter.noCircle
      exact (View.fork_noCircle_iff (fun x hx hf => (hok.view.parent_none_iff hx).mpr hf)
        hbefore.noCircle hatt).mp hno'
    | _ => trivial
  · intro hjoin pre hpre
    obtain ⟨s, hrun, hok, hno⟩ := joining_run cfg env hes hjoin hpre
    exact ⟨s, hrun, hok.isForest hno⟩

/-- A process forked from another, and a mapping of the parent. -/
def forkThenMap : List Event :=
  [.fork ⟨20, 10⟩, .mmap ⟨perfRecordMiscUser, 10, 0x1000, 0x1000, 0, ['/', 'b']⟩]

theorem forks_stay_forest_mapped : ∃ s,
    writeEvents twoEvents quietEnv forkThenMap (initialState noVmlinux) = some (0, s) ∧ IsForest s := by
  have hes : ∀ e ∈ forkThenMap, ProcessRecord e := by
    simp only [forkThenMap, List.mem_cons, List.not_mem_nil, or_false]
    rintro e (rfl | rfl) <;> trivial
  refine (forks_stay_forest twoEvents quietEnv noVmlinux forkThenMap hes).mpr ?_ _ (List.prefix_refl _)
  intro pre e hpre s hrun
  cases pre with
  | nil =>
    cases hrun
    obtain ⟨rest, hrest⟩ := hpre
    cases hrest
    rintro - hback
    rcases ReflTransGen.cases_head hback with heq | ⟨c, hc, -⟩
    · exact absurd heq (by decide)
    · cases hc
  | cons a pre =>
    obtain ⟨rest, hrest⟩ := hpre
    simp only [forkThenMap, List.cons_append, List.cons.injEq] at hrest
    obtain ⟨-, hrest⟩ := hrest
    have hmem : e ∈ [Event.mmap ⟨perfRecordMiscUser, 10, 0x1000, 0x1000, 0, ['/', 'b']⟩] := by
      rw [← hrest]
      simp
    obtain rfl := List.mem_singleton.mp hmem
    trivial

/-- Two processes are each other's parents, and a mapping of one is handed around forever. -/
theorem forks_make_circle : (∀ e ∈ [Event.fork ⟨10, 20⟩, Event.fork ⟨20, 10⟩], ProcessRecord e) ∧
    ¬∃ s, writeEvents twoEvents quietEnv [.fork ⟨10, 20⟩, .fork ⟨20, 10⟩] (initialState noVmlinux) = some (0, s) ∧
      IsForest s := by
  have hes : ∀ e ∈ [Event.fork ⟨10, 20⟩, Event.fork ⟨20, 10⟩], ProcessRecord e := by
    simp only [List.mem_cons, List.not_mem_nil, or_false]
    rintro e (rfl | rfl) <;> trivial
  refine ⟨hes, ?_⟩
  rintro ⟨s, hs, hforest⟩
  have hrun : ((writeEvents twoEvents quietEnv [.fork ⟨10, 20⟩, .fork ⟨20, 10⟩]
      (initialState noVmlinux)).map fun r =>
        [(r.2.procs.find 10).bind (·.parentOfFork), (r.2.procs.find 20).bind (·.parentOfFork)]) =
      some [some 20, some 10] := by decide
  rw [hs, Option.map_some, Option.some_inj, List.cons.injEq, List.cons.injEq] at hrun
  have hlink : ∀ {a b : UInt32}, (s.procs.find a).bind (·.parentOfFork) = some b →
      Links.Parent s.procs.view.parent a b := by
    intro a b hab
    rw [Links.Parent, View.parent, Processes.view, ← hab]
    cases s.procs.find a <;> rfl
  exact hforest.noCircle 10 (.head (hlink hrun.1) (.single (hlink hrun.2.1)))

end Oprofile.Operf
