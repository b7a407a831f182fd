import Oprofile.Operf.ForkTree

/-! The links and the mappings of the processes, as the records change them. -/
namespace Oprofile.Operf

variable {pid par : UInt32} {V W : View}

namespace Ties

/-- A process that nothing is known of. -/
def fresh (valid : Bool) : Ties where
  valid := valid
  forked := false
  parentOfFork := none
  forkedProcesses := []
  mmappings := []
  mmappingsFromParent := fun _ => false

def drop (x : Ties) (start : UInt64) : Ties :=
  { x with
    mmappingsFromParent := fun a => if a = start then false else x.mmappingsFromParent a
    mmappings := KeyMap.erase start x.mmappings }

end Ties

namespace View

def change (V : View) (pid : UInt32) (f : Ties → Ties) : View := Function.update V pid ((V pid).map f)

def create (V : View) (pid : UInt32) (valid : Bool) : View :=
  Function.update V pid (some (Ties.fresh valid))

def ensure (V : View) (pid : UInt32) : View :=
  match V pid with
  | some _ => V
  | none => V.create pid false

/-- The two links between a process and its parent. -/
def link (V : View) (pid par : UInt32) : View :=
  (V.change pid fun x => { x with forked := true, parentOfFork := some par }).change par fun x =>
    { x with forkedProcesses := x.forkedProcesses ++ [pid] }

/-- All mappings of a list are handed down. -/
noncomputable def handDownAll (V : View) (pid : UInt32) (kvs : List (UInt64 × MmapId)) : View :=
  kvs.foldl (fun V kv => V.handDown pid kv.1 kv.2 true) V

def mmappings (V : View) (pid : UInt32) : List (UInt64 × MmapId) :=
  ((V pid).map (·.mmappings)).getD []

def fromParent (V : View) (pid : UInt32) (start : UInt64) : Bool :=
  ((V pid).map (·.mmappingsFromParent start)).getD false

/-- A forked process gets a parent, and with it the mappings of the parent. -/
noncomputable def attach (V : View) (pid par : UInt32) : View :=
  (V.link pid par).handDownAll pid (V.mmappings par)

noncomputable def fork (V : View) (pid par : UInt32) : View :=
  let W := V.ensure par
  if pid = par then W
  else
    match W pid with
    | none => (W.create pid false).attach pid par
    | some x => if x.valid || x.forked then W else W.attach pid par

noncomputable def keepOrDrop (pid : UInt32) (V : View) (kv : UInt64 × MmapId) : View :=
  if V.fromParent pid kv.1 then V.change pid (·.drop kv.1) else V.handDown pid kv.1 kv.2 false

/-- The links between a process and its parent are taken away. -/
def unlink (V : View) (pid : UInt32) : View :=
  let W := match V.parent pid with
    | some par => V.change par fun x => { x with forkedProcesses := x.forkedProcesses.erase pid }
    | none => V
  W.change pid fun x => { x with parentOfFork := none, forked := false }

noncomputable def disassociate (V : View) (pid : UInt32) : View :=
  ((V.mmappings pid).foldl (keepOrDrop pid) (V.change pid fun x => { x with valid := true })).unlink pid

noncomputable def comm (V : View) (pid : UInt32) (leader : Bool) : View :=
  match V pid with
  | none => V.create pid leader
  | some x =>
    if !x.valid && leader then
      if x.forked then V.disassociate pid else V.change pid fun x => { x with valid := true }
    else V

noncomputable def mmap (V : View) (pid : UInt32) (start : UInt64) (id : MmapId) : View :=
  (V.ensure pid).handDown pid start id false

/-- A change that leaves links and mappings alone. -/
theorem mmappings_change {f : Ties → Ties} (hf : ∀ x, (f x).mmappings = x.mmappings) (j : UInt32) :
    (V.change pid f).mmappings j = V.mmappings j := by
  by_cases hj : j = pid
  · subst hj
    cases hV : V j <;> simp [mmappings, change, hV, hf]
  · simp [mmappings, change, hj]

theorem fromParent_drop (V : View) (pid : UInt32) (start a : UInt64) :
    (V.change pid (·.drop start)).fromParent pid a = if a = start then false else V.fromParent pid a := by
  rw [fromParent, change, Function.update_self]
  cases hV : V pid with
  | none => simp [fromParent, hV]
  | some x => simp [fromParent, hV, Ties.drop]

theorem mmappings_link (V : View) (pid par j : UInt32) : (V.link pid par).mmappings j = V.mmappings j := by
  rw [link, mmappings_change fun _ => by rfl, mmappings_change fun _ => by rfl]

theorem create_sameLinks {valid : Bool} (h : V pid = none) : SameLinks V (V.create pid valid) := by
  constructor
  · funext j
    by_cases hj : j = pid
    · subst hj
      simp [children, create, h, Ties.fresh]
    · simp [children, create, hj]
  · funext j
    by_cases hj : j = pid
    · subst hj
      simp [parent, create, h, Ties.fresh]
    · simp [parent, create, hj]

theorem change_sameLinks {f : Ties → Ties}
    (hf : ∀ x, (f x).forkedProcesses = x.forkedProcesses ∧ (f x).parentOfFork = x.parentOfFork) :
    SameLinks V (V.change pid f) := by
  apply sameLinks_of_forall
  intro j
  by_cases hj : j = pid
  · subst hj
    simp [change, Function.comp_def, hf]
  · simp [change, hj]

theorem setValid_sameLinks : SameLinks V (V.change pid fun x => { x with valid := true }) :=
  change_sameLinks fun _ => ⟨rfl, rfl⟩

theorem drop_sameLinks {start : UInt64} : SameLinks V (V.change pid (·.drop start)) :=
  change_sameLinks fun _ => ⟨rfl, rfl⟩

theorem ensure_sameLinks : SameLinks V (V.ensure pid) := by
  unfold ensure
  split
  · exact SameLinks.refl V
  · rename_i h
    exact create_sameLinks h

theorem ensure_of_some {x : Ties} (h : V pid = some x) : V.ensure pid = V := by
  rw [ensure, h]

theorem ensure_of_none (h : V pid = none) : V.ensure pid = V.create pid false := by
  rw [ensure, h]

theorem ensure_some (V : View) (pid : UInt32) : ∃ x, V.ensure pid pid = some x := by
  cases h : V pid with
  | some x => exact ⟨x, by rw [ensure_of_some h, h]⟩
  | none => exact ⟨_, by rw [ensure_of_none h]; exact Function.update_self _ _ _⟩

section Link

variable {x y : Ties}

theorem children_link (hpar : V par = some y) (hne : pid ≠ par) (j : UInt32) :
    (V.link pid par).children j = if j = par then V.children par ++ [pid] else V.children j := by
  by_cases hj : j = par
  · subst hj
    simp [children, link, change, hpar, hne.symm]
  · by_cases hj' : j = pid
    · subst hj'
      cases hV : V j <;> simp [children, link, change, hj, hV]
    · simp [children, link, change, hj, hj']

theorem parent_link (hpid : V pid = some x) (hne : pid ≠ par) (j : UInt32) :
    (V.link pid par).parent j = if j = pid then some par else V.parent j := by
  by_cases hj : j = pid
  · subst hj
    simp [parent, link, change, hpid, hne]
  · by_cases hj' : j = par
    · subst hj'
      cases hV : V j <;> simp [parent, link, change, hj, hV]
    · simp [parent, link, change, hj, hj']

theorem link_consistent (hc : V.Consistent) (hpid : V pid = some x) (hpar : V par = some y)
    (hne : pid ≠ par) (hfree : V.parent pid = none) : (V.link pid par).Consistent := by
  have hnot : ∀ a, pid ∉ V.children a := fun a hmem => by
    rw [hc.mem_iff, hfree] at hmem
    cases hmem
  constructor
  · intro a b
    rw [children_link hpar hne, parent_link hpid hne]
    split_ifs with ha hb hb
    · simp [ha, hb]
    · rw [List.mem_append, List.mem_singleton, hc.mem_iff, ha]
      exact or_iff_left hb
    · subst hb
      exact ⟨fun hmem => (hnot a hmem).elim, fun heq => (ha (Option.some_inj.mp heq).symm).elim⟩
    · exact hc.mem_iff a b
  · intro a
    rw [children_link hpar hne]
    split_ifs with ha
    · refine List.nodup_append.mpr ⟨hc.nodup par, by simp, ?_⟩
      rintro b hb b' hb' rfl
      exact hnot par (List.mem_singleton.mp hb' ▸ hb)
    · exact hc.nodup a

theorem unlink_eq (hparent : V.parent pid = some par) : V.unlink pid =
    (V.change par fun x => { x with forkedProcesses := x.forkedProcesses.erase pid }).change pid
      fun x => { x with parentOfFork := none, forked := false } := by
  rw [unlink, hparent]

theorem children_unlink (hparent : V.parent pid = some par) (j : UInt32) :
    (V.unlink pid).children j = if j = par then (V.children par).erase pid else V.children j := by
  rw [unlink_eq hparent]
  by_cases hj : j = par
  · subst hj
    by_cases hj' : j = pid
    · subst hj'
      cases hV : V j <;> simp [children, change, hV]
    · cases hV : V j <;> simp [children, change, hj', hV]
  · by_cases hj' : j = pid
    · subst hj'
      cases hV : V j <;> simp [children, change, hj, hV]
    · simp [children, change, hj, hj']

theorem parent_unlink (hparent : V.parent pid = some par) (j : UInt32) :
    (V.unlink pid).parent j = if j = pid then none else V.parent j := by
  rw [unlink_eq hparent]
  by_cases hj : j = pid
  · subst hj
    by_cases hj' : j = par
    · subst hj'
      cases hV : V j <;> simp [parent, change, hV]
    · cases hV : V j <;> simp [parent, change, hj', hV]
  · by_cases hj' : j = par
    · subst hj'
      cases hV : V j <;> simp [parent, change, hj, hV]
    · simp [parent, change, hj, hj']

theorem unlink_consistent (hc : V.Consistent) (hparent : V.parent pid = some par) :
    (V.unlink pid).Consistent := by
  constructor
  · intro a b
    rw [children_unlink hparent, parent_unlink hparent]
    split_ifs with ha hb hb
    · subst hb
      simp [(hc.nodup par).mem_erase_iff]
    · rw [(hc.nodup par).mem_erase_iff, hc.mem_iff, ha]
      exact and_iff_right hb
    · subst hb
      rw [hc.mem_iff, hparent, Option.some_inj]
      exact ⟨fun heq => (ha heq.symm).elim, fun h => by cases h⟩
    · exact hc.mem_iff a b
  · intro a
    rw [children_unlink hparent]
    split_ifs
    · exact (hc.nodup par).erase pid
    · exact hc.nodup a

end Link

theorem handDownAll_sameLinks {kvs : List (UInt64 × MmapId)} :
    SameLinks V (V.handDownAll pid kvs) := by
  induction kvs generalizing V with
  | nil => exact SameLinks.refl V
  | cons kv kvs ih => exact handDown_sameLinks.trans ih

theorem change_of_some {x : Ties} {f : Ties → Ties} (h : V pid = some x) :
    V.change pid f = Function.update V pid (some (f x)) := by
  rw [change, h, Option.map_some]

end View

/-- The links of the processes agree, and every mapping stored is on the heap under its own start. -/
structure ViewOk (V : View) (mmaps : MmapId → Option OperfMmap) : Prop where
  consistent : V.Consistent
  stored : ∀ pid x kv, V pid = some x → kv ∈ x.mmappings → ∃ m, mmaps kv.2 = some m ∧ m.startAddr = kv.1
  sorted : ∀ pid x, V pid = some x → KeyMap.Sorted addrLt x.mmappings
  forked : ∀ pid x, V pid = some x → (x.forked = true ↔ x.parentOfFork ≠ none)

namespace ViewOk

variable {mmaps : MmapId → Option OperfMmap} {x y : Ties} {start : UInt64} {id : MmapId}
  {m : OperfMmap} {doSelf valid : Bool}

/-- What a changed entry may look like. -/
structure EntryOk (mmaps : MmapId → Option OperfMmap) (y : Ties) : Prop where
  stored : ∀ kv ∈ y.mmappings, ∃ m, mmaps kv.2 = some m ∧ m.startAddr = kv.1
  sorted : KeyMap.Sorted addrLt y.mmappings
  forked : y.forked = true ↔ y.parentOfFork ≠ none

theorem entry (h : ViewOk V mmaps) (hx : V pid = some x) : EntryOk mmaps x :=
  ⟨fun kv => h.stored pid x kv hx, h.sorted pid x hx, h.forked pid x hx⟩

theorem of_entries (hc : V.Consistent) (h : ∀ pid x, V pid = some x → EntryOk mmaps x) :
    ViewOk V mmaps :=
  ⟨hc, fun pid x kv hx => (h pid x hx).stored kv, fun pid x hx => (h pid x hx).sorted,
    fun pid x hx => (h pid x hx).forked⟩

theorem EntryOk.install (h : EntryOk mmaps x) (hm : mmaps id = some m) (hstart : m.startAddr = start) :
    EntryOk mmaps (x.install start id doSelf) := by
  refine ⟨fun kv hkv => ?_, KeyMap.sorted_insert addrLt_strictOrder h.sorted, h.forked⟩
  rcases KeyMap.mem_insert hkv with rfl | hkv
  · exact ⟨m, hm, hstart⟩
  · exact h.stored kv hkv

theorem EntryOk.drop (h : EntryOk mmaps x) : EntryOk mmaps (x.drop start) :=
  ⟨fun kv hkv => h.stored kv (List.mem_filter.mp hkv).1, h.sorted.filter _, h.forked⟩

theorem entryOk_fresh : EntryOk mmaps (Ties.fresh valid) :=
  ⟨fun kv hkv => (by cases hkv), KeyMap.sorted_nil, by simp [Ties.fresh]⟩

theorem update (h : ViewOk V mmaps) {o : Option Ties} (hc : View.Consistent (Function.update V pid o))
    (ho : ∀ y, o = some y → EntryOk mmaps y) : ViewOk (Function.update V pid o) mmaps := by
  refine of_entries hc fun j y hy => ?_
  by_cases hj : j = pid
  · subst hj
    rw [Function.update_self] at hy
    exact ho y hy
  · rw [Function.update_of_ne hj] at hy
    exact h.entry hy

theorem change (h : ViewOk V mmaps) {f : Ties → Ties} (hc : (V.change pid f).Consistent)
    (hf : ∀ x, V pid = some x → EntryOk mmaps (f x)) : ViewOk (V.change pid f) mmaps := by
  refine h.update hc fun y hy => ?_
  obtain ⟨x, hx, rfl⟩ := Option.map_eq_some_iff.mp hy
  exact hf x hx

theorem create (h : ViewOk V mmaps) (hnew : V pid = none) : ViewOk (V.create pid valid) mmaps := by
  refine h.update ((View.create_sameLinks hnew).consistent h.consistent) fun y hy => ?_
  cases hy
  exact entryOk_fresh

theorem ensure (h : ViewOk V mmaps) : ViewOk (V.ensure pid) mmaps := by
  unfold View.ensure
  split
  · exact h
  · rename_i hnew
    exact h.create hnew

theorem handDown (h : ViewOk V mmaps) (hm : mmaps id = some m) (hstart : m.startAddr = start) :
    ViewOk (V.handDown pid start id doSelf) mmaps := by
  have hat : ViewOk (V.installAt pid start id doSelf) mmaps := by
    refine h.update (View.installAt_sameLinks.consistent h.consistent) fun y hy => ?_
    obtain ⟨x, hx, rfl⟩ := Option.map_eq_some_iff.mp hy
    exact (h.entry hx).install hm hstart
  refine of_entries (View.handDown_sameLinks.consistent h.consistent) fun j y hy => ?_
  rw [View.handDown, View.installOn] at hy
  split_ifs at hy
  · obtain ⟨x, hx, rfl⟩ := Option.map_eq_some_iff.mp hy
    exact (hat.entry hx).install hm hstart
  · exact hat.entry hy

theorem handDownAll {kvs : List (UInt64 × MmapId)} (h : ViewOk V mmaps)
    (hkv : ∀ kv ∈ kvs, ∃ m, mmaps kv.2 = some m ∧ m.startAddr = kv.1) :
    ViewOk (V.handDownAll pid kvs) mmaps := by
  induction kvs generalizing V with
  | nil => exact h
  | cons kv kvs ih =>
    obtain ⟨m, hm, hstart⟩ := hkv kv List.mem_cons_self
    exact ih (h.handDown hm hstart) fun kv' hkv' => hkv kv' (List.mem_cons_of_mem _ hkv')

theorem mmappings_stored (h : ViewOk V mmaps) (pid : UInt32) :
    ∀ kv ∈ V.mmappings pid, ∃ m, mmaps kv.2 = some m ∧ m.startAddr = kv.1 := by
  intro kv hkv
  rw [View.mmappings] at hkv
  cases hx : V pid with
  | none =>
    rw [hx] at hkv
    cases hkv
  | some x =>
    rw [hx] at hkv
    exact h.stored pid x kv hx hkv

theorem link (h : ViewOk V mmaps) (hpid : V pid = some x) (hpar : V par = some y) (hne : pid ≠ par)
    (hfree : V.parent pid = none) : ViewOk (V.link pid par) mmaps := by
  refine of_entries (View.link_consistent h.consistent hpid hpar hne hfree) fun j z hz => ?_
  have hx := h.entry hpid
  have hy := h.entry hpar
  by_cases hj : j = par
  · subst hj
    rw [View.link, View.change, Function.update_self, View.change, Function.update_of_ne hne.symm, hpar] at hz
    cases hz
    exact ⟨hy.stored, hy.sorted, hy.forked⟩
  · rw [View.link, View.change, Function.update_of_ne hj, View.change] at hz
    by_cases hj' : j = pid
    · subst hj'
      rw [Function.update_self, hpid] at hz
      cases hz
      exact ⟨hx.stored, hx.sorted, by simp⟩
    · rw [Function.update_of_ne hj'] at hz
      exact h.entry hz

theorem attach (h : ViewOk V mmaps) (hpid : V pid = some x) (hpar : V par = some y) (hne : pid ≠ par)
    (hfree : V.parent pid = none) : ViewOk (V.attach pid par) mmaps :=
  (h.link hpid hpar hne hfree).handDownAll (h.mmappings_stored par)

theorem parent_none_iff (h : ViewOk V mmaps) (hx : V pid = some x) :
    V.parent pid = none ↔ x.forked = false := by
  have hforked := h.forked pid x hx
  rw [View.parent, hx, Option.bind_some]
  cases hf : x.forked <;> simp_all

theorem fork (h : ViewOk V mmaps) : ViewOk (V.fork pid par) mmaps := by
  have hW : ViewOk (V.ensure par) mmaps := h.ensure
  obtain ⟨y, hy⟩ := View.ensure_some V par
  simp only [View.fork]
  split_ifs with heq
  · exact hW
  · split
    · rename_i hnew
      have hne : par ≠ pid := fun h => heq h.symm
      refine (hW.create hnew).attach (x := Ties.fresh false) (y := y) (Function.update_self _ _ _) ?_ heq ?_
      · rw [View.create, Function.update_of_ne hne, hy]
      · rw [View.parent, View.create, Function.update_self, Option.bind_some]
        rfl
    · rename_i x hx
      split_ifs with hknown
      · exact hW
      · have hfree : x.forked = false := by simp_all
        exact hW.attach hx hy heq ((hW.parent_none_iff hx).mpr hfree)

theorem setValid (h : ViewOk V mmaps) : ViewOk (V.change pid fun x => { x with valid := true }) mmaps := by
  refine h.change (View.setValid_sameLinks.consistent h.consistent) fun x hx => ?_
  have hx := h.entry hx
  exact ⟨hx.stored, hx.sorted, hx.forked⟩

theorem keepOrDrop {kv : UInt64 × MmapId} (h : ViewOk V mmaps)
    (hkv : ∃ m, mmaps kv.2 = some m ∧ m.startAddr = kv.1) : ViewOk (View.keepOrDrop pid V kv) mmaps := by
  unfold View.keepOrDrop
  split_ifs
  · refine h.change (View.drop_sameLinks.consistent h.consistent) fun x hx => ?_
    exact (h.entry hx).drop
  · obtain ⟨m, hm, hstart⟩ := hkv
    exact h.handDown hm hstart

theorem keepOrDrop_all {kvs : List (UInt64 × MmapId)} (h : ViewOk V mmaps)
    (hkv : ∀ kv ∈ kvs, ∃ m, mmaps kv.2 = some m ∧ m.startAddr = kv.1) :
    ViewOk (kvs.foldl (View.keepOrDrop pid) V) mmaps := by
  induction kvs generalizing V with
  | nil => exact h
  | cons kv kvs ih =>
    exact ih (h.keepOrDrop (hkv kv List.mem_cons_self)) fun kv' hkv' =>
      hkv kv' (List.mem_cons_of_mem _ hkv')

theorem unlink (h : ViewOk V mmaps) (hparent : V.parent pid = some par) :
    ViewOk (V.unlink pid) mmaps := by
  refine of_entries (View.unlink_consistent h.consistent hparent) fun j y hy => ?_
  have hsame : ∀ j y, (V.change par fun x => { x with forkedProcesses := x.forkedProcesses.erase pid }) j =
      some y → EntryOk mmaps y := by
    intro j y hy
    by_cases hj : j = par
    · subst hj
      rw [View.change, Function.update_self] at hy
      obtain ⟨x, hx, rfl⟩ := Option.map_eq_some_iff.mp hy
      have hx := h.entry hx
      exact ⟨hx.stored, hx.sorted, hx.forked⟩
    · rw [View.change, Function.update_of_ne hj] at hy
      exact h.entry hy
  rw [View.unlink_eq hparent] at hy
  by_cases hj : j = pid
  · subst hj
    rw [View.change, Function.update_self] at hy
    obtain ⟨x, hx, rfl⟩ := Option.map_eq_some_iff.mp hy
    have hx := hsame j x hx
    exact ⟨hx.stored, hx.sorted, by simp⟩
  · rw [View.change, Function.update_of_ne hj] at hy
    exact hsame j y hy

end ViewOk

theorem View.keepOrDrop_sameLinks {kv : UInt64 × MmapId} :
    View.SameLinks V (View.keepOrDrop pid V kv) := by
  unfold View.keepOrDrop
  split_ifs
  · exact View.drop_sameLinks
  · exact View.handDown_sameLinks

theorem View.keepOrDrop_all_sameLinks {kvs : List (UInt64 × MmapId)} :
    View.SameLinks V (kvs.foldl (View.keepOrDrop pid) V) := by
  induction kvs generalizing V with
  | nil => exact View.SameLinks.refl V
  | cons kv kvs ih => exact View.keepOrDrop_sameLinks.trans ih

/-- What is done to a process that gets a COMM record of its own, before it leaves its parent. -/
noncomputable def View.keepOwn (V : View) (pid : UInt32) : View :=
  (V.mmappings pid).foldl (View.keepOrDrop pid) (V.change pid fun x => { x with valid := true })

theorem View.keepOwn_sameLinks : View.SameLinks V (V.keepOwn pid) :=
  View.setValid_sameLinks.trans View.keepOrDrop_all_sameLinks

namespace ViewOk

variable {mmaps : MmapId → Option OperfMmap} {x y : Ties} {start : UInt64} {id : MmapId}
  {m : OperfMmap}

theorem disassociate (h : ViewOk V mmaps) (hparent : V.parent pid = some par) :
    ViewOk (V.disassociate pid) mmaps := by
  have hown : ViewOk (V.keepOwn pid) mmaps := h.setValid.keepOrDrop_all (h.mmappings_stored pid)
  have hparent' : (V.keepOwn pid).parent pid = some par := by
    rw [View.keepOwn_sameLinks.parent, hparent]
  exact hown.unlink hparent'

theorem comm {leader : Bool} (h : ViewOk V mmaps) : ViewOk (V.comm pid leader) mmaps := by
  unfold View.comm
  split
  · rename_i hnew
    exact h.create hnew
  · rename_i x hx
    split_ifs with _ hforked
    · have hsome : V.parent pid ≠ none := by
        rw [ne_eq, h.parent_none_iff hx, hforked]
        exact Bool.noConfusion
      obtain ⟨par, hpar⟩ := Option.ne_none_iff_exists'.mp hsome
      exact h.disassociate hpar
    · exact h.setValid
    · exact h

theorem mmap (h : ViewOk V mmaps) (hm : mmaps id = some m) (hstart : m.startAddr = start) :
    ViewOk (V.mmap pid start id) mmaps :=
  h.ensure.handDown hm hstart

end ViewOk

namespace View

/-- A FORK record that gives a process a parent: the process is not known to stand for itself, and
has no parent yet. -/
def Attaches (V : View) (pid par : UInt32) : Prop :=
  pid ≠ par ∧ ∀ x, V pid = some x → x.valid = false ∧ x.forked = false

theorem attach_parent {x : Ties} (hpid : V pid = some x) (hne : pid ≠ par) (j : UInt32) :
    (V.attach pid par).parent j = if j = pid then some par else V.parent j := by
  rw [attach, handDownAll_sameLinks.parent, parent_link hpid hne]

theorem ensure_other {j : UInt32} (h : j ≠ pid) : V.ensure pid j = V j := by
  cases hpid : V pid with
  | some x => rw [ensure_of_some hpid]
  | none => rw [ensure_of_none hpid, create, Function.update_of_ne h]

/-- Both processes are made known first. -/
def known (V : View) (pid par : UInt32) : View := (V.ensure par).ensure pid

theorem known_sameLinks : SameLinks V (V.known pid par) := ensure_sameLinks.trans ensure_sameLinks

theorem fork_of_attaches (h : V.Attaches pid par) :
    V.fork pid par = (V.known pid par).attach pid par := by
  obtain ⟨hne, hfree⟩ := h
  have hsame := ensure_other (V := V) hne
  simp only [fork, if_neg hne, known]
  cases hpid : V pid with
  | none =>
    rw [hpid] at hsame
    rw [hsame, ensure_of_none hsame]
  | some x =>
    rw [hpid] at hsame
    rw [hsame, ensure_of_some hsame]
    obtain ⟨hvalid, hforked⟩ := hfree x hpid
    simp [hvalid, hforked]

theorem fork_of_not_attaches (h : ¬ V.Attaches pid par) : V.fork pid par = V.ensure par := by
  simp only [fork]
  split_ifs with heq
  · rfl
  · have hsome : ∃ x, V pid = some x ∧ ¬ (x.valid = false ∧ x.forked = false) := by
      by_contra hno
      exact h ⟨heq, fun x hx => by_contra fun hflags => hno ⟨x, hx, hflags⟩⟩
    obtain ⟨x, hx, hflags⟩ := hsome
    have hsame := ensure_other (V := V) heq
    rw [hx] at hsame
    rw [hsame]
    have hknown : (x.valid || x.forked) = true := by
      cases hv : x.valid <;> cases hf : x.forked <;> simp_all
    simp [hknown]

theorem fork_parent (h : V.Attaches pid par) (j : UInt32) :
    (V.fork pid par).parent j = if j = pid then some par else V.parent j := by
  have hx : ∃ x, V.known pid par pid = some x := ensure_some (V.ensure par) pid
  obtain ⟨x, hx⟩ := hx
  rw [fork_of_attaches h, attach_parent hx h.1, known_sameLinks.parent]

theorem fork_parent_of_not (h : ¬ V.Attaches pid par) : (V.fork pid par).parent = V.parent := by
  rw [fork_of_not_attaches h, ensure_sameLinks.parent]

/-- A COMM record can only take a parent away. -/
theorem comm_parent {mmaps : MmapId → Option OperfMmap} (hok : ViewOk V mmaps) (pid : UInt32)
    (leader : Bool) (j : UInt32) : (V.comm pid leader).parent j = V.parent j ∨ (V.comm pid leader).parent j = none := by
  unfold comm
  split
  · rename_i hnew
    rw [(create_sameLinks hnew).parent]
    exact Or.inl rfl
  · rename_i x hx
    split_ifs with _ hforked
    · have hsome : V.parent pid ≠ none := by
        rw [ne_eq, hok.parent_none_iff hx, hforked]
        exact Bool.noConfusion
      obtain ⟨par, hpar⟩ := Option.ne_none_iff_exists'.mp hsome
      have hunlink : (V.keepOwn pid).parent pid = some par := by
        rw [keepOwn_sameLinks.parent, hpar]
      have hparent : (V.disassociate pid).parent j = if j = pid then none else V.parent j := by
        rw [disassociate, ← keepOwn, parent_unlink hunlink, keepOwn_sameLinks.parent]
      rw [hparent]
      split_ifs
      · exact Or.inr rfl
      · exact Or.inl rfl
    · rw [setValid_sameLinks.parent]
      exact Or.inl rfl
    · exact Or.inl rfl

theorem mmap_sameLinks {start : UInt64} {id : MmapId} : SameLinks V (V.mmap pid start id) :=
  ensure_sameLinks.trans handDown_sameLinks

end View

end Oprofile.Operf
