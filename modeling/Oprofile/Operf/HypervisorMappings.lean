import Oprofile.Operf.MappingTables
import Oprofile.Operf.FileCalls
import Oprofile.Operf.Attribution

/-! The synthesized mapping of the hypervisor and the samples it stands for. -/
namespace Oprofile.Operf.Hypervisor

variable {n : Nat} {cfg : Config n} {env : Env} {images : KernelImages} {s s' : OperfState} {t t' : Processes}
  {V V' : View} {mmaps mmaps' : MmapId → Option OperfMmap} {pid par j : UInt32} {start a ip : UInt64}
  {id : MmapId} {m : OperfMmap} {doSelf : Bool}

/-- The samples that `process_hypervisor_mapping` was called with, for each process. -/
abbrev Passed := UInt32 → List UInt64

variable {passed : Passed}

/-- The process has a mapping of the hypervisor. -/
structure HasHv (V : View) (mmaps : MmapId → Option OperfMmap) (pid : UInt32) (a : UInt64) (id : MmapId)
    (m : OperfMmap) : Prop where
  filed : V.filed pid a = some id
  heap : mmaps id = some m
  hypervisor : m.isHypervisor = true

/-- The mapping reaches from the least to the greatest of the addresses. -/
structure Spans (m : OperfMmap) (ips : List UInt64) : Prop where
  first : m.startAddr ∈ ips
  last : m.endAddr ∈ ips
  within : ∀ ip ∈ ips, m.startAddr ≤ ip ∧ ip ≤ m.endAddr

/-- Each process has at most one mapping of the hypervisor; it spans the samples of the process and is held by no
other. A process that has one has no children. -/
structure Tracked (V : View) (mmaps : MmapId → Option OperfMmap) (passed : Passed) : Prop where
  one : ∀ pid a a' id id' m m', HasHv V mmaps pid a id m → HasHv V mmaps pid a' id' m' → a = a'
  alone : ∀ pid j a a' id m m', HasHv V mmaps pid a id m → HasHv V mmaps j a' id m' → pid = j
  childless : ∀ pid a id m, HasHv V mmaps pid a id m → V.children pid = []
  spans : ∀ pid a id m, HasHv V mmaps pid a id m → Spans m (passed pid)
  made : ∀ pid, passed pid ≠ [] → ∃ a id m, HasHv V mmaps pid a id m
  bounded : ∀ pid, ∀ ip ∈ passed pid, ip ≤ maxHypervisorAddress

/-! ### Mappings of other kinds -/

/-- What changes no mapping of the hypervisor, and gives no process that has one a child. -/
theorem Tracked.congr (h : Tracked V mmaps passed)
    (hiff : ∀ pid a id m, HasHv V' mmaps' pid a id m ↔ HasHv V mmaps pid a id m)
    (hchildless : ∀ pid a id m, HasHv V mmaps pid a id m → V'.children pid = []) :
    Tracked V' mmaps' passed where
  one pid a a' id id' m m' hm hm' := h.one pid a a' id id' m m' ((hiff ..).mp hm) ((hiff ..).mp hm')
  alone pid j a a' id m m' hm hm' := h.alone pid j a a' id m m' ((hiff ..).mp hm) ((hiff ..).mp hm')
  childless pid a id m hm := hchildless pid a id m ((hiff ..).mp hm)
  spans pid a id m hm := h.spans pid a id m ((hiff ..).mp hm)
  made pid hne := by
    obtain ⟨a, id, m, hm⟩ := h.made pid hne
    exact ⟨a, id, m, (hiff ..).mpr hm⟩
  bounded := h.bounded

theorem hasHv_of_filed (hfiled : ∀ j a, V'.filed j a = V.filed j a) (pid : UInt32) (a : UInt64) (id : MmapId)
    (m : OperfMmap) : HasHv V' mmaps pid a id m ↔ HasHv V mmaps pid a id m := by
  constructor
  · rintro ⟨hf, hm, hhv⟩
    exact ⟨(hfiled pid a).symm.trans hf, hm, hhv⟩
  · rintro ⟨hf, hm, hhv⟩
    exact ⟨(hfiled pid a).trans hf, hm, hhv⟩

theorem Tracked.ensure (h : Tracked V mmaps passed) (pid : UInt32) : Tracked (V.ensure pid) mmaps passed := by
  apply h.congr (hasHv_of_filed (View.filed_ensure V pid))
  intro j a id m hm
  rw [View.ensure_sameLinks.children]
  exact h.childless j a id m hm

/-- A heap with more mappings. -/
theorem hasHv_of_kept (hok : ViewOk V mmaps) (hkept : ∀ i m, mmaps i = some m → mmaps' i = some m) (pid : UInt32)
    (a : UInt64) (id : MmapId) (m : OperfMmap) : HasHv V mmaps' pid a id m ↔ HasHv V mmaps pid a id m := by
  constructor
  · rintro ⟨hf, hm, hhv⟩
    obtain ⟨m', hm'⟩ := hok.filed_stored pid a hf
    obtain rfl := Option.some_inj.mp ((hkept id m' hm').symm.trans hm)
    exact ⟨hf, hm', hhv⟩
  · rintro ⟨hf, hm, hhv⟩
    exact ⟨hf, hkept id m hm, hhv⟩

/-- No process the mapping is handed to has its mapping of the hypervisor at that start. -/
def Clear (V : View) (mmaps : MmapId → Option OperfMmap) (pid : UInt32) (starts : UInt64 → Prop) : Prop :=
  ∀ j, V.Below pid j → ∀ a id m, HasHv V mmaps j a id m → ¬ starts a

theorem Tracked.handDown (h : Tracked V mmaps passed) (hm : mmaps id = some m) (hord : m.isHypervisor = false)
    (hclear : Clear V mmaps pid (· = start)) : Tracked (V.handDown pid start id doSelf) mmaps passed := by
  apply h.congr
  · intro j a id' m'
    constructor
    · rintro ⟨hf, hm', hhv⟩
      rw [View.filed_handDown] at hf
      split_ifs at hf with hcond
      · obtain ⟨x, -, rfl⟩ := Option.map_eq_some_iff.mp hf
        rw [hm] at hm'
        obtain rfl := Option.some_inj.mp hm'
        rw [hord] at hhv
        cases hhv
      · exact ⟨hf, hm', hhv⟩
    · intro hhas
      refine ⟨?_, hhas.heap, hhas.hypervisor⟩
      rw [View.filed_handDown, if_neg]
      · exact hhas.filed
      · rintro ⟨ha, hbelow⟩
        exact hclear j hbelow a id' m' hhas ha
  · intro j a id' m' hhas
    rw [View.handDown_sameLinks.children]
    exact h.childless j a id' m' hhas

/-- A way down that takes the new link comes back to the forked process. -/
theorem below_of_link {y : Ties} (hpar : V par = some y) (hne : pid ≠ par) (h : (V.link pid par).Below pid j) :
    V.Below pid j := by
  induction h with
  | refl => exact Relation.ReflTransGen.refl
  | @tail b c hb hc ih =>
    rw [Links.Child, View.children_link hpar hne] at hc
    split_ifs at hc with heq
    · subst heq
      rcases List.mem_append.mp hc with hc | hc
      · exact ih.tail hc
      · rw [List.mem_singleton] at hc
        subst hc
        exact Relation.ReflTransGen.refl
    · exact ih.tail hc

/-- A fork that gives the process no mapping of the hypervisor and takes none away. -/
structure ForkClear (V : View) (mmaps : MmapId → Option OperfMmap) (pid par : UInt32) : Prop where
  parent : ∀ a id m, ¬ HasHv V mmaps par a id m
  clear : Clear V mmaps pid fun a => (V.filed par a).isSome

theorem Tracked.fork (h : Tracked V mmaps passed) (hok : ViewOk V mmaps)
    (hclear : V.Attaches pid par → ForkClear V mmaps pid par) : Tracked (V.fork pid par) mmaps passed := by
  by_cases hatt : V.Attaches pid par
  · obtain ⟨hparent, hclear⟩ := hclear hatt
    have hok₁ : ViewOk (V.known pid par) mmaps := hok.ensure.ensure
    have hknown : ∀ j a, (V.known pid par).filed j a = V.filed j a := by
      intro j a
      rw [View.known, View.filed_ensure, View.filed_ensure]
    obtain ⟨y, hy⟩ : ∃ y, V.known pid par par = some y := by
      obtain ⟨y, hy⟩ := View.ensure_some V par
      exact ⟨y, by rw [View.known, View.ensure_other hatt.1.symm, hy]⟩
    have hfiled := @View.filed_handDownAll pid ((V.known pid par).link pid par) _ (hok₁.mmappings_keys par)
    rw [View.fork_of_attaches hatt, View.attach]
    apply h.congr
    · intro j a id m
      have hold : ((V.known pid par).link pid par).filed j a = V.filed j a :=
        (View.filed_link _ pid par j a).trans (hknown j a)
      have hpar : KeyMap.find a ((V.known pid par).mmappings par) = V.filed par a := by
        rw [← View.filed_eq_find, hknown]
      by_cases hbelow : ((V.known pid par).link pid par).Below pid j
      · have hbelow' : V.Below pid j := by
          have hbelow := below_of_link hy hatt.1 hbelow
          rwa [View.known_sameLinks.below] at hbelow
        constructor
        · rintro ⟨hf, hm, hhv⟩
          rw [hfiled, if_pos hbelow, hold, hpar, Option.or_eq_some_iff] at hf
          rcases hf with hf | ⟨-, hf⟩
          · obtain ⟨x, -, hf⟩ := Option.bind_eq_some_iff.mp hf
            exact (hparent a id m ⟨hf, hm, hhv⟩).elim
          · exact ⟨hf, hm, hhv⟩
        · intro hhas
          have hnone : V.filed par a = none := by
            simpa using hclear j hbelow' a id m hhas
          refine ⟨?_, hhas.heap, hhas.hypervisor⟩
          rw [hfiled, if_pos hbelow, hold, hpar, hnone, hhas.filed]
          cases ((V.known pid par).link pid par) j <;> rfl
      · constructor
        · rintro ⟨hf, hm, hhv⟩
          rw [hfiled, if_neg hbelow, hold] at hf
          exact ⟨hf, hm, hhv⟩
        · intro hhas
          refine ⟨?_, hhas.heap, hhas.hypervisor⟩
          rw [hfiled, if_neg hbelow, hold]
          exact hhas.filed
    · intro j a id m hhas
      have hj : j ≠ par := by
        rintro rfl
        exact hparent a id m hhas
      rw [View.handDownAll_sameLinks.children, View.children_link hy hatt.1, if_neg hj, View.known_sameLinks.children]
      exact h.childless j a id m hhas
  · rw [View.fork_of_not_attaches hatt]
    exact h.ensure par

/-! ### A sample of the hypervisor -/

/-- The other processes, while the mapping of one is replaced. -/
theorem Tracked.without (h : Tracked V mmaps passed)
    (hiff : ∀ j a i m, HasHv V' mmaps' j a i m ↔ j ≠ pid ∧ HasHv V mmaps j a i m)
    (hchildren : V'.children = V.children) : Tracked V' mmaps' (Function.update passed pid []) where
  one j a a' i i' m m' hm hm' := h.one j a a' i i' m m' ((hiff ..).mp hm).2 ((hiff ..).mp hm').2
  alone j k a a' i m m' hm hm' := h.alone j k a a' i m m' ((hiff ..).mp hm).2 ((hiff ..).mp hm').2
  childless j a i m hm := by
    rw [hchildren]
    exact h.childless j a i m ((hiff ..).mp hm).2
  spans j a i m hm := by
    obtain ⟨hj, hm⟩ := (hiff ..).mp hm
    rw [Function.update_of_ne hj]
    exact h.spans j a i m hm
  made j hne := by
    by_cases hj : j = pid
    · subst hj
      rw [Function.update_self] at hne
      exact (hne rfl).elim
    · rw [Function.update_of_ne hj] at hne
      obtain ⟨a, i, m, hm⟩ := h.made j hne
      exact ⟨a, i, m, (hiff ..).mpr ⟨hj, hm⟩⟩
  bounded j := by
    by_cases hj : j = pid
    · subst hj
      rw [Function.update_self]
      intro ip hip
      cases hip
    · rw [Function.update_of_ne hj]
      exact h.bounded j

/-- A process without samples has no mapping of the hypervisor. -/
theorem Tracked.none_of_nil (h : Tracked V mmaps passed) (hnil : passed pid = []) (a : UInt64) (id : MmapId)
    (m : OperfMmap) : ¬ HasHv V mmaps pid a id m := by
  intro hhas
  have hfirst := (h.spans pid a id m hhas).first
  rw [hnil] at hfirst
  cases hfirst

theorem below_of_childless (hc : V.children pid = []) : V.Below pid j ↔ j = pid := by
  rw [View.below_iff, View.strictlyBelow_iff, hc]
  simp

section Heap

variable {next : MmapId} {ips : List UInt64}

/-- One process gets a mapping of the hypervisor in place of the one it had, if any. -/
theorem Tracked.replace (start : UInt64) (id : MmapId) (h : Tracked V mmaps passed)
    (hiff : ∀ j a i m₁, HasHv V' mmaps' j a i m₁ ↔
      j = pid ∧ a = start ∧ i = id ∧ m₁ = m ∨ j ≠ pid ∧ HasHv V mmaps j a i m₁)
    (hother : ∀ j a m₁, j ≠ pid → ¬ HasHv V mmaps j a id m₁) (hchildren : V'.children = V.children)
    (hc : V.children pid = []) (hspans : Spans m ips) (hbound : ∀ ip ∈ ips, ip ≤ maxHypervisorAddress) :
    Tracked V' mmaps' (Function.update passed pid ips) := by
  constructor
  · intro j a a' i i' m₁ m₂ h₁ h₂
    rcases (hiff ..).mp h₁ with ⟨hj, ha, -⟩ | ⟨hj, hhas⟩
    · rcases (hiff ..).mp h₂ with ⟨-, ha', -⟩ | ⟨hj', -⟩
      · exact ha.trans ha'.symm
      · exact (hj' hj).elim
    · rcases (hiff ..).mp h₂ with ⟨hj', -⟩ | ⟨-, hhas'⟩
      · exact (hj hj').elim
      · exact h.one j a a' i i' m₁ m₂ hhas hhas'
  · intro j k a a' i m₁ m₂ h₁ h₂
    rcases (hiff ..).mp h₁ with ⟨hj, -, hi, -⟩ | ⟨hj, hhas⟩
    · rcases (hiff ..).mp h₂ with ⟨hk, -⟩ | ⟨hk, hhas'⟩
      · exact hj.trans hk.symm
      · rw [hi] at hhas'
        exact (hother k a' m₂ hk hhas').elim
    · rcases (hiff ..).mp h₂ with ⟨-, -, hi, -⟩ | ⟨-, hhas'⟩
      · rw [hi] at hhas
        exact (hother j a m₁ hj hhas).elim
      · exact h.alone j k a a' i m₁ m₂ hhas hhas'
  · intro j a i m₁ hm₁
    rw [hchildren]
    rcases (hiff ..).mp hm₁ with ⟨rfl, -⟩ | ⟨-, hhas⟩
    · exact hc
    · exact h.childless j a i m₁ hhas
  · intro j a i m₁ hm₁
    rcases (hiff ..).mp hm₁ with ⟨rfl, -, -, rfl⟩ | ⟨hj, hhas⟩
    · rw [Function.update_self]
      exact hspans
    · rw [Function.update_of_ne hj]
      exact h.spans j a i m₁ hhas
  · intro j hne
    by_cases hj : j = pid
    · exact ⟨start, id, m, (hiff ..).mpr (Or.inl ⟨hj, rfl, rfl, rfl⟩)⟩
    · rw [Function.update_of_ne hj] at hne
      obtain ⟨a, i, m₁, hhas⟩ := h.made j hne
      exact ⟨a, i, m₁, (hiff ..).mpr (Or.inr ⟨hj, hhas⟩)⟩
  · intro j
    by_cases hj : j = pid
    · rw [hj, Function.update_self]
      exact hbound
    · rw [Function.update_of_ne hj]
      exact h.bounded j

/-- A new mapping of the hypervisor, for a process that has none. -/
theorem Tracked.create (h : Tracked V mmaps (Function.update passed pid [])) (hok : ViewOk V mmaps)
    (hfresh : ∀ i m, mmaps i = some m → i < next) (hpid : (V pid).isSome) (hc : V.children pid = [])
    (hhv : m.isHypervisor = true) (hspans : Spans m ips) (hbound : ∀ ip ∈ ips, ip ≤ maxHypervisorAddress) :
    Tracked (V.handDown pid m.startAddr next false) (fun i => if i = next then some m else mmaps i)
      (Function.update passed pid ips) := by
  have hold {j : UInt32} {a : UInt64} {i : MmapId} (hf : V.filed j a = some i) :
      (if i = next then some m else mmaps i) = mmaps i := by
    obtain ⟨m', hm'⟩ := hok.filed_stored j a hf
    exact if_neg (Nat.ne_of_lt (hfresh i m' hm'))
  have hidem : Function.update passed pid ips = Function.update (Function.update passed pid []) pid ips :=
    (Function.update_idem ..).symm
  rw [hidem]
  refine Tracked.replace m.startAddr next h ?_ ?_ ?_ hc hspans hbound
  · intro j a i m'
    obtain ⟨x, hx⟩ := Option.isSome_iff_exists.mp hpid
    constructor
    · rintro ⟨hf, hm', hhv'⟩
      rw [View.filed_handDown, below_of_childless hc] at hf
      split_ifs at hf with hcond
      · obtain ⟨rfl, rfl⟩ := hcond
        rw [hx] at hf
        cases hf
        rw [if_pos rfl] at hm'
        exact Or.inl ⟨rfl, rfl, rfl, (Option.some_inj.mp hm').symm⟩
      · rw [hold hf] at hm'
        refine Or.inr ⟨?_, hf, hm', hhv'⟩
        rintro rfl
        exact h.none_of_nil (Function.update_self ..) a i m' ⟨hf, hm', hhv'⟩
    · rintro (⟨rfl, rfl, rfl, rfl⟩ | ⟨hj, hhas⟩)
      · refine ⟨?_, if_pos rfl, hhv⟩
        rw [View.filed_handDown, below_of_childless hc, if_pos ⟨rfl, rfl⟩, hx]
        rfl
      · refine ⟨?_, (hold hhas.filed).trans hhas.heap, hhas.hypervisor⟩
        rw [View.filed_handDown, below_of_childless hc, if_neg fun hcond => hj hcond.2]
        exact hhas.filed
  · intro j a m' hj hhas
    exact Nat.lt_irrefl _ (hfresh next m' hhas.heap)
  · exact View.handDown_sameLinks.children

/-- The mapping of the hypervisor is changed where it is. -/
theorem Tracked.widen {m' : OperfMmap} (h : Tracked V mmaps passed) (hhas : HasHv V mmaps pid start id m)
    (hhv : m'.isHypervisor = true) (hspans : Spans m' ips) (hbound : ∀ ip ∈ ips, ip ≤ maxHypervisorAddress) :
    Tracked V (fun i => if i = id then some m' else mmaps i) (Function.update passed pid ips) := by
  refine Tracked.replace start id h ?_ ?_ rfl (h.childless pid start id m hhas) hspans hbound
  · intro j a i m₁
    constructor
    · rintro ⟨hf, hm₁, hhv₁⟩
      by_cases hi : i = id
      · subst hi
        have hj := h.alone j pid a start i m m ⟨hf, hhas.heap, hhas.hypervisor⟩ hhas
        subst hj
        have ha := h.one j a start i i m m ⟨hf, hhas.heap, hhas.hypervisor⟩ hhas
        rw [if_pos rfl] at hm₁
        exact Or.inl ⟨rfl, ha, rfl, (Option.some_inj.mp hm₁).symm⟩
      · rw [if_neg hi] at hm₁
        refine Or.inr ⟨?_, hf, hm₁, hhv₁⟩
        rintro rfl
        have ha := h.one j a start i id m₁ m ⟨hf, hm₁, hhv₁⟩ hhas
        rw [ha, hhas.filed] at hf
        exact hi (Option.some_inj.mp hf).symm
    · rintro (⟨rfl, rfl, rfl, rfl⟩ | ⟨hj, hm₁⟩)
      · exact ⟨hhas.filed, if_pos rfl, hhv⟩
      · refine ⟨hm₁.filed, ?_, hm₁.hypervisor⟩
        rw [if_neg]
        · exact hm₁.heap
        · rintro rfl
          exact hj (h.alone j pid a start i m₁ m hm₁ hhas)
  · intro j a m₁ hj hm₁
    exact hj (h.alone j pid a start id m₁ m hm₁ hhas)

end Heap

/-! ### The calls of `process_hypervisor_mapping` -/

/-- The processes and the heap agree. -/
structure InOrder (t : Processes) : Prop where
  filed : Filed t
  view : ViewOk t.view t.mmaps
  fresh : ∀ i m, t.mmaps i = some m → i < t.nextMmap

/-- What a call keeps and what it does to the mappings of the hypervisor. -/
structure TracksCall (t t' : Processes) (passed : Passed) : Prop where
  inOrder : InOrder t'
  links : View.SameLinks t.view t'.view
  known : ∀ j, (t'.view j).isSome = (t.view j).isSome
  tracked : Tracked t'.view t'.mmaps passed

theorem newMmap_inOrder (h : InOrder t) (m : OperfMmap) : InOrder (t.newMmap m) := by
  refine ⟨⟨h.filed.keyed, h.filed.sorted⟩, h.view.mono fun i m' hm' => ?_, fun i m' hm' => ?_⟩
  · exact (if_neg (Nat.ne_of_lt (h.fresh i m' hm'))).trans hm'
  · by_cases heq : i = t.nextMmap
    · rw [heq]
      exact Nat.lt_succ_self _
    · simp only [Processes.newMmap, heq, if_false] at hm'
      exact Nat.lt_succ_of_lt (h.fresh i m' hm')

/-- The mapping made for a process that has none of the hypervisor. -/
theorem createMapping_tracks {ips : List UInt64} (hin : InOrder t)
    (h : Tracked t.view t.mmaps (Function.update passed pid [])) (hpid : (t.view pid).isSome)
    (hc : t.view.children pid = []) (hhv : m.isHypervisor = true) (hspans : Spans m ips)
    (hbound : ∀ ip ∈ ips, ip ≤ maxHypervisorAddress)
    (hrun : (t.newMmap m).processMapping env pid t.nextMmap false = some t') :
    TracksCall t t' (Function.update passed pid ips) := by
  have hin₁ := newMmap_inOrder hin m
  obtain ⟨m', hm', hb⟩ := Processes.processMapping_becomes hin₁.filed hin₁.view.consistent hrun
  have hm : (t.newMmap m).mmaps t.nextMmap = some m := if_pos rfl
  obtain rfl := Option.some_inj.mp (hm.symm.trans hm')
  have hview : t'.view = t.view.handDown pid m.startAddr t.nextMmap false := hb.view
  refine ⟨⟨hb.filed, ?_, ?_⟩, ?_, ?_, ?_⟩
  · rw [hb.view, hb.mmaps]
    exact hin₁.view.handDown hm rfl
  · rw [hb.mmaps, hb.nextMmap]
    exact hin₁.fresh
  · rw [hview]
    exact View.handDown_sameLinks
  · rw [hview]
    exact View.handDown_isSome _ _ _ _ _
  · rw [hview, hb.mmaps]
    exact h.create hin.view hin.fresh hpid hc hhv hspans hbound

/-- Mappings changed in place, but for their starts. -/
theorem remap_viewOk (hok : ViewOk V mmaps) (hkept : ∀ j a i m, V.filed j a = some i → mmaps i = some m →
    ∃ m', mmaps' i = some m' ∧ m'.startAddr = m.startAddr) : ViewOk V mmaps' := by
  refine ⟨hok.consistent, fun j x kv hx hkv => ?_, hok.sorted, hok.forked⟩
  obtain ⟨m, hm, hstart⟩ := hok.stored j x kv hx hkv
  have hf : V.filed j kv.1 = some kv.2 := by
    rw [View.filed_of_some hx]
    exact (KeyMap.find_eq_some_iff addrLt_strictOrder (hok.sorted j x hx)).mpr hkv
  obtain ⟨m', hm', hsame⟩ := hkept j kv.1 kv.2 m hf hm
  exact ⟨m', hm', hsame.trans hstart⟩

/-- A process that has lost the mapping at that start. -/
def without (start : UInt64) (x : Ties) : Ties := { x with mmappings := KeyMap.erase start x.mmappings }

/-- The mapping of the hypervisor is deleted, and with it the only way to it. -/
theorem dropMapping_tracks {p : ProcessInfo} (hin : InOrder t) (h : Tracked t.view t.mmaps passed)
    (hp : t.find pid = some p) (hhas : HasHv t.view t.mmaps pid start id m) :
    TracksCall t ((t.set { p with mmappings := KeyMap.erase start p.mmappings }).setMmap id none)
      (Function.update passed pid []) := by
  obtain rfl := hin.filed.keyed pid p hp
  have hb : Becomes t (t.set { p with mmappings := KeyMap.erase start p.mmappings })
      (t.view.change p.pid (without start)) := Processes.change_becomes hin.filed hp rfl rfl
  have hfiled (j : UInt32) (a : UInt64) : (t.view.change p.pid (without start)).filed j a =
      if a = start ∧ j = p.pid then none else t.view.filed j a := View.filed_erase (fun _ => rfl) j a
  have hlinks : View.SameLinks t.view (t.view.change p.pid (without start)) :=
    View.change_sameLinks fun _ => ⟨rfl, rfl⟩
  -- no process is left with the deleted mapping
  have hother : ∀ j a i, (t.view.change p.pid (without start)).filed j a = some i → i ≠ id := by
    rintro j a i hf rfl
    rw [hfiled] at hf
    split_ifs at hf with hcond
    have hj := h.alone j p.pid a start i m m ⟨hf, hhas.heap, hhas.hypervisor⟩ hhas
    subst hj
    exact hcond ⟨h.one p.pid a start i i m m ⟨hf, hhas.heap, hhas.hypervisor⟩ hhas, rfl⟩
  have hok : ViewOk (t.view.change p.pid (without start)) t.mmaps := by
    refine hin.view.change (hlinks.consistent hin.view.consistent) fun x hx => ?_
    have hentry := hin.view.entry hx
    exact ⟨fun kv hkv => hentry.stored kv (List.mem_filter.mp hkv).1, hentry.sorted.filter _, hentry.forked⟩
  have hview : ((t.set { p with mmappings := KeyMap.erase start p.mmappings }).setMmap id none).view =
      t.view.change p.pid (without start) := hb.view
  refine ⟨⟨⟨hb.filed.keyed, hb.filed.sorted⟩, ?_, ?_⟩, ?_, ?_, ?_⟩
  · rw [hview]
    refine remap_viewOk hok fun j a i m' hf hm' => ⟨m', ?_, rfl⟩
    exact (if_neg (hother j a i hf)).trans hm'
  · intro i m' hm'
    by_cases hi : i = id
    · simp [Processes.setMmap, hi] at hm'
    · simp only [Processes.setMmap, hi, if_false] at hm'
      exact hin.fresh i m' hm'
  · rw [hview]
    exact hlinks
  · rw [hview]
    exact View.change_isSome
  · rw [hview]
    refine h.without ?_ hlinks.children
    intro j a i m'
    constructor
    · rintro ⟨hf, hm', hhv⟩
      have hm' : t.mmaps i = some m' := (if_neg (hother j a i hf)).symm.trans hm'
      rw [hfiled] at hf
      split_ifs at hf with hcond
      refine ⟨?_, hf, hm', hhv⟩
      rintro rfl
      exact hcond ⟨h.one p.pid a start i id m' m ⟨hf, hm', hhv⟩ hhas, rfl⟩
    · rintro ⟨hj, hhas'⟩
      refine ⟨?_, ?_, hhas'.hypervisor⟩
      · rw [hfiled, if_neg fun hcond => hj hcond.2]
        exact hhas'.filed
      · refine (if_neg ?_).trans hhas'.heap
        rintro rfl
        exact hj (h.alone j p.pid a start i m' m hhas' hhas)

/-- The mapping of the hypervisor is changed where it is. -/
theorem setMmap_tracks {m' : OperfMmap} {ips : List UInt64} (hin : InOrder t) (h : Tracked t.view t.mmaps passed)
    (hhas : HasHv t.view t.mmaps pid start id m) (hstart : m'.startAddr = m.startAddr)
    (hhv : m'.isHypervisor = true) (hspans : Spans m' ips) (hbound : ∀ ip ∈ ips, ip ≤ maxHypervisorAddress) :
    TracksCall t (t.setMmap id (some m')) (Function.update passed pid ips) := by
  refine ⟨⟨⟨hin.filed.keyed, hin.filed.sorted⟩, remap_viewOk hin.view fun j a i m₁ hf hm₁ => ?_, ?_⟩,
    View.SameLinks.refl _, fun _ => rfl, h.widen hhas hhv hspans hbound⟩
  · by_cases hi : i = id
    · subst hi
      obtain rfl := Option.some_inj.mp (hhas.heap.symm.trans hm₁)
      exact ⟨m', if_pos rfl, hstart⟩
    · exact ⟨m₁, (if_neg hi).trans hm₁, rfl⟩
  · intro i m₁ hm₁
    by_cases hi : i = id
    · subst hi
      exact hin.fresh i m hhas.heap
    · exact hin.fresh i m₁ ((if_neg hi).symm.trans hm₁)

theorem maxHypervisorAddress_lt : maxHypervisorAddress < 0xffffffffffffffff := by decide

/-- `process_hypervisor_mapping` for a process without children. -/
theorem processHypervisorMapping_tracks (hin : InOrder t) (h : Tracked t.view t.mmaps passed)
    (hc : t.view.children pid = []) (hip : ip ≤ maxHypervisorAddress)
    (hrun : t.processHypervisorMapping env pid ip = some t') :
    TracksCall t t' (Function.update passed pid (ip :: passed pid)) := by
  have hbound : ∀ ip' ∈ ip :: passed pid, ip' ≤ maxHypervisorAddress := by
    intro ip' hip'
    rcases List.mem_cons.mp hip' with rfl | hip'
    · exact hip
    · exact h.bounded pid ip' hip'
  simp only [Processes.processHypervisorMapping, Option.bind_eq_bind, Option.bind_eq_some_iff] at hrun
  obtain ⟨p, hp, ms, hms, hrun⟩ := hrun
  have hview := Processes.view_of_find hp
  have hpid : (t.view pid).isSome := by rw [hview]; rfl
  split at hrun
  · rename_i hnone
    have hnil : passed pid = [] := by
      by_contra hne
      obtain ⟨a, id, m, hhas⟩ := h.made pid hne
      have hmem : (a, id) ∈ p.mmappings := by
        have hf := hhas.filed
        rw [View.filed_of_some hview] at hf
        exact KeyMap.mem_of_find hf
      obtain ⟨m', hzip, hm'⟩ := mapM_zip_exists hms hmem
      obtain rfl := Option.some_inj.mp (hhas.heap.symm.trans hm')
      exact List.find?_eq_none.mp hnone _ hzip hhas.hypervisor
    have hkept : Tracked t.view t.mmaps (Function.update passed pid []) := by
      rw [← hnil, Function.update_eq_self]
      exact h
    refine createMapping_tracks hin hkept hpid hc rfl ?_ hbound hrun
    rw [hnil]
    refine ⟨List.mem_singleton_self _, List.mem_singleton_self _, fun ip' hip' => ?_⟩
    obtain rfl := List.mem_singleton.mp hip'
    exact ⟨UInt64.le_refl _, UInt64.le_refl _⟩
  · rename_i start id m hfound
    have hzip := List.mem_of_find?_eq_some hfound
    have hm : t.mmaps id = some m := mapM_zip_mem (f := fun kv : UInt64 × MmapId => t.mmaps kv.2) hms hzip
    have hhv : m.isHypervisor = true := by simpa using List.find?_some hfound
    have hfiled : t.view.filed pid start = some id := by
      rw [View.filed_of_some hview]
      exact (KeyMap.find_eq_some_iff addrLt_strictOrder (hin.view.sorted pid _ hview)).mpr (List.of_mem_zip hzip).1
    have hhas : HasHv t.view t.mmaps pid start id m := ⟨hfiled, hm, hhv⟩
    obtain ⟨hfirst, hlast, hwithin⟩ := h.spans pid start id m hhas
    split_ifs at hrun with hbelow htop hend
    · -- no sample is at the last address of all, or before the first one
      exfalso
      rcases htop with htop | htop
      · have hle := h.bounded pid _ hlast
        rw [htop] at hle
        exact absurd maxHypervisorAddress_lt (UInt64.not_lt.mpr hle)
      · exact absurd (UInt64.lt_trans htop hbelow) (UInt64.not_lt.mpr (hwithin _ hlast).1)
    · have hdrop := dropMapping_tracks hin h hp hhas
      have hidem : Function.update passed pid [] = Function.update (Function.update passed pid []) pid [] :=
        (Function.update_idem ..).symm
      have htracked := hdrop.tracked
      rw [hidem] at htracked
      have hcreate := createMapping_tracks hdrop.inOrder htracked ((hdrop.known pid).trans hpid)
        (by rw [hdrop.links.children, hc]) rfl ?_ hbound hrun
      · refine ⟨hcreate.inOrder, hdrop.links.trans hcreate.links,
          fun j => (hcreate.known j).trans (hdrop.known j), ?_⟩
        have htracked := hcreate.tracked
        rw [Function.update_idem] at htracked
        exact htracked
      · refine ⟨List.mem_cons_self, List.mem_cons_of_mem _ hlast, fun ip' hip' => ?_⟩
        rcases List.mem_cons.mp hip' with rfl | hip'
        · exact ⟨UInt64.le_refl _, UInt64.not_lt.mp fun hlt => htop (Or.inr hlt)⟩
        · obtain ⟨hle, hle'⟩ := hwithin ip' hip'
          exact ⟨UInt64.le_of_lt (UInt64.lt_of_lt_of_le hbelow hle), hle'⟩
    · cases hrun
      refine setMmap_tracks hin h hhas rfl hhv ?_ hbound
      refine ⟨List.mem_cons_of_mem _ hfirst, List.mem_cons_self, fun ip' hip' => ?_⟩
      rcases List.mem_cons.mp hip' with rfl | hip'
      · exact ⟨UInt64.not_lt.mp hbelow, UInt64.le_refl _⟩
      · obtain ⟨hle, hle'⟩ := hwithin ip' hip'
        exact ⟨hle, UInt64.le_trans hle' hend⟩
    · cases hrun
      have hsame : (fun i => if i = id then some m else t.mmaps i) = t.mmaps := by
        funext i
        split_ifs with hi
        · rw [hi, hm]
        · rfl
      have hset : Tracked t.view (fun i => if i = id then some m else t.mmaps i)
          (Function.update passed pid (ip :: passed pid)) := by
        refine h.widen hhas hhv ⟨List.mem_cons_of_mem _ hfirst, List.mem_cons_of_mem _ hlast, fun ip' hip' => ?_⟩ hbound
        rcases List.mem_cons.mp hip' with rfl | hip'
        · exact ⟨UInt64.not_lt.mp hbelow, UInt64.le_of_lt (UInt64.not_le.mp hend)⟩
        · exact hwithin ip' hip'
      rw [hsame] at hset
      exact ⟨hin, View.SameLinks.refl _, fun _ => rfl, hset⟩

end Oprofile.Operf.Hypervisor
