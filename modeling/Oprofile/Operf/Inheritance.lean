import Mathlib.Data.List.Induction
import Oprofile.Operf.ForkForest

/-! Which mappings of a process are its own, and which it has from its parent. -/
namespace Oprofile.Operf

variable {n : Nat} {cfg : Config n} {env : Env} {images : KernelImages} {s s' : OperfState}
  {t t' : Processes} {p : ProcessInfo} {pid par : UInt32} {V : View} {x : Ties} {start a : UInt64}
  {id : MmapId} {m : OperfMmap} {mmaps : MmapId → Option OperfMmap} {doSelf : Bool}

section TracedRun

variable {G : Type} {after : OperfState → G → Event → G} {g g₀ : G}

/-- One record, and what is told of it in the history of the run. -/
def tracedStep (cfg : Config n) (env : Env) (after : OperfState → G → Event → G) (sg : OperfState × G)
    (e : Event) : Option (OperfState × G) :=
  (opWriteEvent cfg env sg.1 e).map fun r => (r.2, after sg.1 sg.2 e)

def tracedRun (cfg : Config n) (env : Env) (images : KernelImages) (after : OperfState → G → Event → G)
    (g₀ : G) (es : List Event) : Option (OperfState × G) :=
  es.foldlM (tracedStep cfg env after) (initialState images, g₀)

/-- What one record keeps, where it meets its condition, holds in the end. -/
theorem tracedRun_induction {K : Event → Prop} {I : OperfState → G → Prop} {C : OperfState → G → Event → Prop}
    (hinit : I (initialState images) g₀)
    (hstep : ∀ s g e rc s', K e → I s g → C s g e → opWriteEvent cfg env s e = some (rc, s') →
      I s' (after s g e))
    {es : List Event} (hes : ∀ e ∈ es, K e)
    (hrun : tracedRun cfg env images after g₀ es = some (s, g))
    (hC : ∀ pre e, pre ++ [e] <+: es → ∀ s g, tracedRun cfg env images after g₀ pre = some (s, g) →
      C s g e) : I s g := by
  induction es using List.reverseRecOn generalizing s g with
  | nil =>
    cases hrun
    exact hinit
  | append_singleton es e ih =>
    rw [tracedRun, List.foldlM_append, ← tracedRun, Option.bind_eq_bind, Option.bind_eq_some_iff] at hrun
    obtain ⟨⟨s₀, g₁⟩, hpre, hlast⟩ := hrun
    simp only [List.foldlM_cons, List.foldlM_nil, tracedStep, Option.bind_eq_bind, Option.bind_eq_some_iff,
      Option.map_eq_some_iff] at hlast
    obtain ⟨sg, ⟨⟨rc, s₁⟩, hone, rfl⟩, hlast⟩ := hlast
    cases hlast
    have hI := ih (fun e' he' => hes e' (List.mem_append_left _ he')) hpre
      fun pre e' hpre' => hC pre e' (hpre'.trans (List.prefix_append es [e]))
    exact hstep s₀ g₁ e rc s₁ (hes e (by simp)) hI (hC es e (List.prefix_refl _) s₀ g₁ hpre) hone

end TracedRun

/-- The mappings a process has received by MMAP records of its own, the latest for each start. -/
abbrev Own := UInt32 → UInt64 → Option OperfMmap

/-- One process tells its own mappings from those of its parent. -/
structure EntryOwned (mmaps : MmapId → Option OperfMmap) (x : Ties) (own : UInt64 → Option OperfMmap) :
    Prop where
  flag : ∀ a, x.mmappingsFromParent a = true ↔ (KeyMap.find a x.mmappings).isSome = true ∧ own a = none
  kept : ∀ a m, own a = some m → (KeyMap.find a x.mmappings).bind mmaps = some m
  alone : x.forked = false → ∀ a, x.mmappingsFromParent a = false

/-- All processes do. -/
structure Owned (V : View) (mmaps : MmapId → Option OperfMmap) (own : Own) : Prop where
  entry : ∀ pid x, V pid = some x → EntryOwned mmaps x (own pid)
  unknown : ∀ pid, V pid = none → ∀ a, own pid a = none

/-- A process that a mapping may be handed down to: it has none at that start, or the same of its
own. -/
def Receptive (V : View) (mmaps : MmapId → Option OperfMmap) (pid : UInt32) (start : UInt64)
    (m : OperfMmap) : Prop :=
  ∀ x, V pid = some x → KeyMap.find start x.mmappings = none ∨
    (x.mmappingsFromParent start = false ∧ (KeyMap.find start x.mmappings).bind mmaps = some m)

namespace EntryOwned

variable {own : UInt64 → Option OperfMmap}

theorem flag_false (h : EntryOwned mmaps x own) (hfind : (KeyMap.find a x.mmappings).isSome = true)
    (hflag : x.mmappingsFromParent a = false) : ∃ m, own a = some m := by
  cases hown : own a with
  | some m => exact ⟨m, rfl⟩
  | none =>
    rw [(h.flag a).mpr ⟨hfind, hown⟩] at hflag
    cases hflag

theorem own_of_find_none (h : EntryOwned mmaps x own) (hfind : KeyMap.find a x.mmappings = none) :
    own a = none := by
  cases hown : own a with
  | none => rfl
  | some m =>
    have hkept := h.kept a m hown
    rw [hfind] at hkept
    cases hkept

theorem install_find (x : Ties) (start a : UInt64) (id : MmapId) (doSelf : Bool) :
    KeyMap.find a (x.install start id doSelf).mmappings =
      if a = start then some id else KeyMap.find a x.mmappings := by
  rw [Ties.install]
  split_ifs with ha
  · rw [ha, KeyMap.find_insert_self]
  · rw [KeyMap.find_insert_ne ha]

/-- A mapping of its own. -/
theorem installOwn (h : EntryOwned mmaps x own) (start : UInt64) (hm : mmaps id = some m) :
    EntryOwned mmaps (x.install start id false) (Function.update own start (some m)) := by
  constructor
  · intro a
    rw [install_find]
    by_cases ha : a = start
    · simp [Ties.install, ha]
    · simpa [Ties.install, ha] using h.flag a
  · intro a m' hown
    rw [install_find]
    by_cases ha : a = start
    · subst ha
      rw [Function.update_self] at hown
      rw [if_pos rfl, Option.bind_some, hm, hown]
    · rw [Function.update_of_ne ha] at hown
      rw [if_neg ha]
      exact h.kept a m' hown
  · intro hf a
    by_cases ha : a = start
    · simp [Ties.install, ha]
    · simpa [Ties.install, ha] using h.alone hf a

/-- The mapping it had of its own once more. -/
theorem installSame (h : EntryOwned mmaps x own) (hm : mmaps id = some m) (hown : own start = some m) :
    EntryOwned mmaps (x.install start id false) own := by
  have hsame := h.installOwn start hm
  rwa [← hown, Function.update_eq_self] at hsame

/-- A mapping handed down. -/
theorem inherit (h : EntryOwned mmaps x own) (hm : mmaps id = some m) (hforked : x.forked = true)
    (hrec : KeyMap.find start x.mmappings = none ∨
      (x.mmappingsFromParent start = false ∧ (KeyMap.find start x.mmappings).bind mmaps = some m)) :
    EntryOwned mmaps (x.install start id true) own := by
  rcases hrec with hnone | ⟨hflag, hsame⟩
  · have hown := h.own_of_find_none hnone
    constructor
    · intro a
      rw [install_find]
      by_cases ha : a = start
      · simp [Ties.install, ha, hnone, hown]
      · simpa [Ties.install, ha] using h.flag a
    · intro a m' hm'
      rw [install_find]
      by_cases ha : a = start
      · rw [ha, hown] at hm'
        cases hm'
      · rw [if_neg ha]
        exact h.kept a m' hm'
    · intro hf
      exact absurd (hf.symm.trans hforked) Bool.false_ne_true
  · have hfind : (KeyMap.find start x.mmappings).isSome = true := by
      cases hf : KeyMap.find start x.mmappings with
      | none =>
        rw [hf] at hsame
        cases hsame
      | some _ => rfl
    obtain ⟨m', hown⟩ := h.flag_false hfind hflag
    have hm' := h.kept start m' hown
    rw [hsame, Option.some_inj] at hm'
    subst hm'
    have hnot : (KeyMap.find start x.mmappings).isNone = false := by
      rw [← Option.not_isSome, hfind]
      rfl
    have hties : x.install start id true = x.install start id false := by
      simp only [Ties.install, hnot, Bool.and_false]
    rw [hties]
    exact h.installSame hm hown

theorem drop (h : EntryOwned mmaps x own) (hflag : x.mmappingsFromParent start = true) :
    EntryOwned mmaps (x.drop start) own := by
  have hown := ((h.flag start).mp hflag).2
  constructor
  · intro a
    by_cases ha : a = start
    · simp [Ties.drop, ha]
    · simpa [Ties.drop, ha, KeyMap.find_erase_ne ha] using h.flag a
  · intro a m' hm'
    by_cases ha : a = start
    · rw [ha, hown] at hm'
      cases hm'
    · simpa [Ties.drop, KeyMap.find_erase_ne ha] using h.kept a m' hm'
  · intro hf a
    by_cases ha : a = start
    · simp [Ties.drop, ha]
    · simpa [Ties.drop, ha] using h.alone hf a

theorem fresh {valid : Bool} (hown : ∀ a, own a = none) : EntryOwned mmaps (Ties.fresh valid) own := by
  refine ⟨fun a => ?_, fun a m hm => ?_, fun _ _ => rfl⟩
  · simp [Ties.fresh, KeyMap.find]
  · rw [hown a] at hm
    cases hm

end EntryOwned

namespace Owned

variable {own : Own}

theorem create {valid : Bool} (h : Owned V mmaps own) (hnew : V pid = none) :
    Owned (V.create pid valid) mmaps own := by
  constructor
  · intro j x hx
    by_cases hj : j = pid
    · subst hj
      rw [View.create, Function.update_self] at hx
      cases hx
      exact .fresh (h.unknown j hnew)
    · rw [View.create, Function.update_of_ne hj] at hx
      exact h.entry j x hx
  · intro j hj
    by_cases heq : j = pid
    · subst heq
      exact h.unknown j hnew
    · rw [View.create, Function.update_of_ne heq] at hj
      exact h.unknown j hj

theorem ensure (h : Owned V mmaps own) : Owned (V.ensure pid) mmaps own := by
  cases hpid : V pid with
  | some x => rwa [View.ensure_of_some hpid]
  | none =>
    rw [View.ensure_of_none hpid]
    exact h.create hpid

theorem change {f : Ties → Ties} (h : Owned V mmaps own)
    (hf : ∀ x, V pid = some x → EntryOwned mmaps (f x) (own pid)) : Owned (V.change pid f) mmaps own := by
  constructor
  · intro j y hy
    by_cases hj : j = pid
    · subst hj
      rw [View.change, Function.update_self] at hy
      obtain ⟨x, hx, rfl⟩ := Option.map_eq_some_iff.mp hy
      exact hf x hx
    · rw [View.change, Function.update_of_ne hj] at hy
      exact h.entry j y hy
  · intro j hj
    by_cases heq : j = pid
    · subst heq
      rw [View.change, Function.update_self, Option.map_eq_none_iff] at hj
      exact h.unknown j hj
    · rw [View.change, Function.update_of_ne heq] at hj
      exact h.unknown j hj

/-- A mapping filed for one process and handed down to those below it. -/
theorem handDown {own' : Own} (h : Owned V mmaps own) (hok : ViewOk V mmaps) (hm : mmaps id = some m)
    (hself : ∀ x, V pid = some x → EntryOwned mmaps (x.install start id doSelf) (own' pid))
    (hother : ∀ j, j ≠ pid → own' j = own j) (hunknown : V pid = none → ∀ a, own' pid a = none)
    (hcircle : ¬ V.StrictlyBelow pid pid)
    (hbelow : ∀ f, V.StrictlyBelow pid f → Receptive V mmaps f start m) :
    Owned (V.handDown pid start id doSelf) mmaps own' := by
  have hat : ∀ j, j ≠ pid → V.installAt pid start id doSelf j = V j := fun j hj =>
    Function.update_of_ne hj _ _
  constructor
  · intro j y hy
    rw [View.handDown, View.installOn] at hy
    split_ifs at hy with hj
    · have hne : j ≠ pid := fun heq => hcircle (heq ▸ hj)
      rw [hat j hne] at hy
      obtain ⟨x, hx, rfl⟩ := Option.map_eq_some_iff.mp hy
      have hforked : x.forked = true := by
        obtain ⟨c, -, hc⟩ := Relation.TransGen.tail'_iff.mp hj
        rw [Links.Child, hok.consistent.mem_iff] at hc
        cases hf : x.forked with
        | true => rfl
        | false =>
          rw [(hok.parent_none_iff hx).mpr hf] at hc
          cases hc
      rw [hother j hne]
      exact (h.entry j x hx).inherit hm hforked (hbelow j hj x hx)
    · by_cases hjp : j = pid
      · subst hjp
        rw [View.installAt, Function.update_self] at hy
        obtain ⟨x, hx, rfl⟩ := Option.map_eq_some_iff.mp hy
        exact hself x hx
      · rw [hat j hjp] at hy
        rw [hother j hjp]
        exact h.entry j y hy
  · intro j hj
    have hnone : V j = none := by
      rw [← Option.not_isSome_iff_eq_none, ← View.handDown_isSome V pid start id doSelf, hj]
      exact Bool.false_ne_true
    by_cases hjp : j = pid
    · subst hjp
      exact hunknown hnone
    · rw [hother j hjp]
      exact h.unknown j hnone

end Owned

theorem View.handDown_cases {f : UInt32} {y : Ties} (h : V.handDown pid start id doSelf f = some y) :
    ∃ x, V f = some x ∧ y.forked = x.forked ∧ ∀ a, a ≠ start →
      KeyMap.find a y.mmappings = KeyMap.find a x.mmappings ∧
        y.mmappingsFromParent a = x.mmappingsFromParent a := by
  have hat : ∀ y, V.installAt pid start id doSelf f = some y → ∃ x, V f = some x ∧
      y.forked = x.forked ∧ ∀ a, a ≠ start →
        KeyMap.find a y.mmappings = KeyMap.find a x.mmappings ∧
          y.mmappingsFromParent a = x.mmappingsFromParent a := by
    intro y hy
    by_cases hf : f = pid
    · subst hf
      rw [View.installAt, Function.update_self] at hy
      obtain ⟨x, hx, rfl⟩ := Option.map_eq_some_iff.mp hy
      exact ⟨x, hx, rfl, fun a ha => ⟨KeyMap.find_insert_ne ha, if_neg ha⟩⟩
    · rw [View.installAt, Function.update_of_ne hf] at hy
      exact ⟨y, hy, rfl, fun a _ => ⟨rfl, rfl⟩⟩
  rw [View.handDown, View.installOn] at h
  split_ifs at h
  · obtain ⟨z, hz, rfl⟩ := Option.map_eq_some_iff.mp h
    obtain ⟨x, hx, hforked, hsame⟩ := hat z hz
    refine ⟨x, hx, hforked, fun a ha => ?_⟩
    obtain ⟨hfind, hflag⟩ := hsame a ha
    exact ⟨(KeyMap.find_insert_ne ha).trans hfind, (if_neg ha).trans hflag⟩
  · exact hat y h

/-- What happens at one start does not touch the others. -/
theorem Receptive.handDown {f : UInt32} (h : Receptive V mmaps f a m) (ha : a ≠ start) :
    Receptive (V.handDown pid start id doSelf) mmaps f a m := by
  intro y hy
  obtain ⟨x, hx, -, hsame⟩ := View.handDown_cases hy
  obtain ⟨hfind, hflag⟩ := hsame a ha
  rw [hfind, hflag]
  exact h x hx

theorem Receptive.change {f : UInt32} {g : Ties → Ties} (h : Receptive V mmaps f a m)
    (hg : ∀ x, KeyMap.find a (g x).mmappings = KeyMap.find a x.mmappings ∧
      (g x).mmappingsFromParent a = x.mmappingsFromParent a) :
    Receptive (V.change pid g) mmaps f a m := by
  intro y hy
  by_cases hf : f = pid
  · subst hf
    rw [View.change, Function.update_self] at hy
    obtain ⟨x, hx, rfl⟩ := Option.map_eq_some_iff.mp hy
    obtain ⟨hfind, hflag⟩ := hg x
    rw [hfind, hflag]
    exact h x hx
  · rw [View.change, Function.update_of_ne hf] at hy
    exact h y hy

theorem View.SameLinks.below {W : View} (h : View.SameLinks V W) : W.Below = V.Below := by
  rw [View.Below, View.Below, h.children]

theorem View.SameLinks.strictlyBelow {W : View} (h : View.SameLinks V W) :
    W.StrictlyBelow = V.StrictlyBelow := by
  rw [View.StrictlyBelow, View.StrictlyBelow, h.children]

namespace Owned

variable {own : Own}

theorem handDownAll {kvs : List (UInt64 × MmapId)} (h : Owned V mmaps own) (hok : ViewOk V mmaps)
    (hkeys : (kvs.map Prod.fst).Nodup) (hforked : ∀ x, V pid = some x → x.forked = true)
    (hkv : ∀ kv ∈ kvs, ∃ m, mmaps kv.2 = some m ∧ m.startAddr = kv.1 ∧
      ∀ f, V.Below pid f → Receptive V mmaps f kv.1 m)
    (hcircle : kvs ≠ [] → ¬ V.StrictlyBelow pid pid) (hknown : (V pid).isSome = true) :
    Owned (V.handDownAll pid kvs) mmaps own := by
  induction kvs generalizing V with
  | nil => exact h
  | cons kv kvs ih =>
    obtain ⟨hnotin, hkeys⟩ := List.nodup_cons.mp hkeys
    obtain ⟨m, hm, hstart, hrec⟩ := hkv kv List.mem_cons_self
    have hno := hcircle (List.cons_ne_nil kv kvs)
    have hone : Owned (V.handDown pid kv.1 kv.2 true) mmaps own := by
      refine h.handDown hok hm (fun x hx => ?_) (fun _ _ => rfl) (fun hnone => ?_) hno
        fun f hf => hrec f (View.below_iff.mpr (Or.inr hf))
      · exact (h.entry pid x hx).inherit hm (hforked x hx)
          (hrec pid (View.below_iff.mpr (Or.inl rfl)) x hx)
      · rw [hnone] at hknown
        cases hknown
    have hlinks : View.SameLinks V (V.handDown pid kv.1 kv.2 true) := View.handDown_sameLinks
    refine ih hone (hok.handDown hm hstart) hkeys (fun y hy => ?_) (fun kv' hkv' => ?_) (fun _ => ?_) ?_
    · obtain ⟨x, hx, hsame, -⟩ := View.handDown_cases hy
      rw [hsame]
      exact hforked x hx
    · obtain ⟨m', hm', hstart', hrec'⟩ := hkv kv' (List.mem_cons_of_mem _ hkv')
      refine ⟨m', hm', hstart', fun f hf => ?_⟩
      rw [hlinks.below] at hf
      have hne : kv'.1 ≠ kv.1 := by
        intro heq
        rw [← heq] at hnotin
        exact hnotin (List.mem_map_of_mem hkv')
      exact (hrec' f hf).handDown hne
    · rwa [hlinks.strictlyBelow]
    · rwa [View.handDown_isSome]

end Owned

/-- What is left to do of the mappings of a process that leaves its parent. -/
structure LeavingWith (V : View) (mmaps : MmapId → Option OperfMmap) (pid : UInt32)
    (kvs : List (UInt64 × MmapId)) : Prop where
  keys : (kvs.map Prod.fst).Nodup
  stored : ∀ kv ∈ kvs, ∀ x, V pid = some x → KeyMap.find kv.1 x.mmappings = some kv.2
  pending : ∀ a, V.fromParent pid a = true → a ∈ kvs.map Prod.fst
  receptive : ∀ kv ∈ kvs, V.fromParent pid kv.1 = false →
    ¬ V.StrictlyBelow pid pid ∧
    ∀ m, mmaps kv.2 = some m → ∀ f, V.StrictlyBelow pid f → Receptive V mmaps f kv.1 m

theorem View.fromParent_handDown {f : UInt32} (ha : a ≠ start) :
    (V.handDown pid start id doSelf).fromParent f a = V.fromParent f a := by
  rw [View.fromParent, View.fromParent]
  cases hy : V.handDown pid start id doSelf f with
  | none =>
    have hnone : V f = none := by
      rw [← Option.not_isSome_iff_eq_none, ← View.handDown_isSome V pid start id doSelf, hy]
      exact Bool.false_ne_true
    rw [hnone]
  | some y =>
    obtain ⟨x, hx, -, hsame⟩ := View.handDown_cases hy
    rw [hx, Option.map_some, Option.map_some, (hsame a ha).2]

theorem View.fromParent_handDown_self (hcircle : ¬ V.StrictlyBelow pid pid) :
    (V.handDown pid start id false).fromParent pid start = false := by
  rw [View.fromParent, View.handDown, View.installOn, if_neg hcircle, View.installAt, Function.update_self]
  cases V pid with
  | none => rfl
  | some x => simp [Ties.install]

namespace LeavingWith

variable {kv : UInt64 × MmapId} {kvs : List (UInt64 × MmapId)}

theorem tail_ne (h : LeavingWith V mmaps pid (kv :: kvs)) {kv' : UInt64 × MmapId} (hkv : kv' ∈ kvs) :
    kv'.1 ≠ kv.1 := by
  intro heq
  refine (List.nodup_cons.mp h.keys).1 ?_
  rw [← heq]
  exact List.mem_map_of_mem hkv

theorem drop (h : LeavingWith V mmaps pid (kv :: kvs)) :
    LeavingWith (V.change pid (·.drop kv.1)) mmaps pid kvs := by
  have hlinks : View.SameLinks V (V.change pid (·.drop kv.1)) := View.drop_sameLinks
  refine ⟨(List.nodup_cons.mp h.keys).2, fun kv' hkv' y hy => ?_, fun a ha => ?_, fun kv' hkv' hflag => ?_⟩
  · rw [View.change, Function.update_self] at hy
    obtain ⟨x, hx, rfl⟩ := Option.map_eq_some_iff.mp hy
    exact (KeyMap.find_erase_ne (h.tail_ne hkv')).trans (h.stored kv' (List.mem_cons_of_mem _ hkv') x hx)
  · rw [View.fromParent_drop] at ha
    split_ifs at ha with heq
    exact (List.mem_cons.mp (h.pending a ha)).resolve_left heq
  · have hne := h.tail_ne hkv'
    rw [View.fromParent_drop, if_neg hne] at hflag
    obtain ⟨hno, hrec⟩ := h.receptive kv' (List.mem_cons_of_mem _ hkv') hflag
    rw [hlinks.strictlyBelow]
    refine ⟨hno, fun m hm f hf => (hrec m hm f hf).change fun x => ?_⟩
    exact ⟨KeyMap.find_erase_ne hne, if_neg hne⟩

theorem handDown (h : LeavingWith V mmaps pid (kv :: kvs)) (hcircle : ¬ V.StrictlyBelow pid pid) :
    LeavingWith (V.handDown pid kv.1 kv.2 false) mmaps pid kvs := by
  have hlinks : View.SameLinks V (V.handDown pid kv.1 kv.2 false) := View.handDown_sameLinks
  refine ⟨(List.nodup_cons.mp h.keys).2, fun kv' hkv' y hy => ?_, fun a ha => ?_, fun kv' hkv' hflag => ?_⟩
  · obtain ⟨x, hx, -, hsame⟩ := View.handDown_cases hy
    rw [(hsame kv'.1 (h.tail_ne hkv')).1]
    exact h.stored kv' (List.mem_cons_of_mem _ hkv') x hx
  · by_cases heq : a = kv.1
    · rw [heq, View.fromParent_handDown_self hcircle] at ha
      cases ha
    · rw [View.fromParent_handDown heq] at ha
      exact (List.mem_cons.mp (h.pending a ha)).resolve_left heq
  · have hne := h.tail_ne hkv'
    rw [View.fromParent_handDown hne] at hflag
    obtain ⟨hno, hrec⟩ := h.receptive kv' (List.mem_cons_of_mem _ hkv') hflag
    rw [hlinks.strictlyBelow]
    exact ⟨hno, fun m hm f hf => (hrec m hm f hf).handDown hne⟩

end LeavingWith

/-- One mapping of a process that leaves its parent. -/
theorem Owned.keepOrDrop {own : Own} {kv : UInt64 × MmapId} {kvs : List (UInt64 × MmapId)}
    (h : Owned V mmaps own) (hok : ViewOk V mmaps) (hleft : LeavingWith V mmaps pid (kv :: kvs))
    (hknown : (V pid).isSome = true) :
    Owned (View.keepOrDrop pid V kv) mmaps own ∧ LeavingWith (View.keepOrDrop pid V kv) mmaps pid kvs := by
  obtain ⟨x, hx⟩ := Option.isSome_iff_exists.mp hknown
  have hflag : V.fromParent pid kv.1 = x.mmappingsFromParent kv.1 := by
    rw [View.fromParent, hx]
    rfl
  rw [View.keepOrDrop]
  split_ifs with hparent
  · refine ⟨h.change fun x' hx' => ?_, hleft.drop⟩
    rw [hx, Option.some_inj] at hx'
    subst hx'
    exact (h.entry pid x hx).drop (hflag ▸ hparent)
  · rw [Bool.not_eq_true] at hparent
    obtain ⟨hno, hrec⟩ := hleft.receptive kv List.mem_cons_self hparent
    have hfind := hleft.stored kv List.mem_cons_self x hx
    have hentry := h.entry pid x hx
    obtain ⟨m, hown⟩ := hentry.flag_false (by rw [hfind]; rfl) (hflag ▸ hparent)
    have hm : mmaps kv.2 = some m := by
      have hkept := hentry.kept kv.1 m hown
      rwa [hfind, Option.bind_some] at hkept
    refine ⟨?_, hleft.handDown hno⟩
    refine h.handDown hok hm (fun x' hx' => ?_) (fun _ _ => rfl) (fun hnone => ?_) hno (hrec m hm)
    · rw [hx, Option.some_inj] at hx'
      subst hx'
      exact hentry.installSame hm hown
    · rw [hx] at hnone
      cases hnone

theorem Owned.keepOrDrop_all {own : Own} {kvs : List (UInt64 × MmapId)}
    (h : Owned V mmaps own) (hok : ViewOk V mmaps) (hleft : LeavingWith V mmaps pid kvs)
    (hkv : ∀ kv ∈ kvs, ∃ m, mmaps kv.2 = some m ∧ m.startAddr = kv.1) (hknown : (V pid).isSome = true) :
    Owned (kvs.foldl (View.keepOrDrop pid) V) mmaps own ∧
      ∀ a, (kvs.foldl (View.keepOrDrop pid) V).fromParent pid a = false := by
  induction kvs generalizing V with
  | nil =>
    refine ⟨h, fun a => ?_⟩
    cases hflag : V.fromParent pid a with
    | false => exact hflag
    | true => cases hleft.pending a hflag
  | cons kv kvs ih =>
    obtain ⟨hown, hrest⟩ := h.keepOrDrop hok hleft hknown
    exact ih hown (hok.keepOrDrop (hkv kv List.mem_cons_self)) hrest
      (fun kv' hkv' => hkv kv' (List.mem_cons_of_mem _ hkv')) (by rwa [View.keepOrDrop_isSome])

theorem EntryOwned.ofTies {own : UInt64 → Option OperfMmap} {y : Ties} (h : EntryOwned mmaps x own)
    (hmm : y.mmappings = x.mmappings) (hflags : y.mmappingsFromParent = x.mmappingsFromParent)
    (halone : y.forked = false → ∀ a, x.mmappingsFromParent a = false) : EntryOwned mmaps y own := by
  constructor
  · rw [hmm, hflags]
    exact h.flag
  · rw [hmm]
    exact h.kept
  · rw [hflags]
    exact halone

theorem Owned.unlink {own : Own} (h : Owned V mmaps own) (hparent : V.parent pid = some par)
    (hflags : ∀ a, V.fromParent pid a = false) : Owned (V.unlink pid) mmaps own := by
  rw [View.unlink_eq hparent]
  have hpar : Owned (V.change par fun x => { x with forkedProcesses := x.forkedProcesses.erase pid })
      mmaps own :=
    h.change fun x hx => (h.entry par x hx).ofTies rfl rfl (h.entry par x hx).alone
  refine hpar.change fun x hx => (hpar.entry pid x hx).ofTies rfl rfl fun _ a => ?_
  have hflag := hflags a
  rw [View.fromParent] at hflag
  by_cases heq : pid = par
  · subst heq
    rw [View.change, Function.update_self] at hx
    obtain ⟨y, hy, rfl⟩ := Option.map_eq_some_iff.mp hx
    rw [hy] at hflag
    exact hflag
  · rw [View.change, Function.update_of_ne heq] at hx
    rw [hx] at hflag
    exact hflag

/-- The mappings of a process that leaves its parent are received well by those below it. -/
def KeepsCleanly (V : View) (mmaps : MmapId → Option OperfMmap) (pid : UInt32) : Prop :=
  ∀ kv ∈ V.mmappings pid, V.fromParent pid kv.1 = false →
    ∀ m, mmaps kv.2 = some m → ∀ f, V.StrictlyBelow pid f → Receptive V mmaps f kv.1 m

theorem Owned.disassociate {own : Own} (h : Owned V mmaps own) (hok : ViewOk V mmaps)
    (hparent : V.parent pid = some par) (hclean : KeepsCleanly V mmaps pid)
    (hcircle : (∃ kv ∈ V.mmappings pid, V.fromParent pid kv.1 = false) → ¬ V.StrictlyBelow pid pid) :
    Owned (V.disassociate pid) mmaps own := by
  have hsome : ∃ x, V pid = some x := by
    cases hx : V pid with
    | none =>
      rw [View.parent, hx] at hparent
      cases hparent
    | some x => exact ⟨x, rfl⟩
  obtain ⟨x, hx⟩ := hsome
  have hmm : V.mmappings pid = x.mmappings := by
    rw [View.mmappings, hx]
    rfl
  have hsorted := hok.sorted pid x hx
  have hlinks : View.SameLinks V (V.change pid fun x => { x with valid := true }) := View.setValid_sameLinks
  have hset : Owned (V.change pid fun x => { x with valid := true }) mmaps own :=
    h.change fun x hx => (h.entry pid x hx).ofTies rfl rfl (h.entry pid x hx).alone
  have hflags : ∀ a, (V.change pid fun x => { x with valid := true }).fromParent pid a =
      V.fromParent pid a := by
    intro a
    rw [View.fromParent, View.fromParent, View.change, Function.update_self, hx]
    rfl
  have hleft : LeavingWith (V.change pid fun x => { x with valid := true }) mmaps pid (V.mmappings pid) := by
    rw [hmm]
    refine ⟨hsorted.nodup_keys addrLt_strictOrder, fun kv hkv y hy => ?_, fun a ha => ?_, fun kv hkv hflag => ?_⟩
    · rw [View.change_of_some hx, Function.update_self] at hy
      cases hy
      exact (KeyMap.find_eq_some_iff addrLt_strictOrder hsorted).mpr hkv
    · rw [hflags, View.fromParent, hx] at ha
      have hfind := ((h.entry pid x hx).flag a).mp ha
      obtain ⟨id, hid⟩ := Option.isSome_iff_exists.mp hfind.1
      exact List.mem_map_of_mem (KeyMap.mem_of_find hid)
    · rw [hflags] at hflag
      rw [hlinks.strictlyBelow]
      rw [← hmm] at hkv
      refine ⟨hcircle ⟨kv, hkv, hflag⟩, fun m hm f hf => ?_⟩
      exact (hclean kv hkv hflag m hm f hf).change fun x => ⟨rfl, rfl⟩
  obtain ⟨hown, hnone⟩ := hset.keepOrDrop_all hok.setValid hleft (hok.mmappings_stored pid)
    (by rw [View.change_of_some hx, Function.update_self]; rfl)
  exact hown.unlink (by rw [View.keepOrDrop_all_sameLinks.parent, hlinks.parent, hparent]) hnone

theorem View.mmappings_ensure (V : View) (pid j : UInt32) : (V.ensure pid).mmappings j = V.mmappings j := by
  cases hpid : V pid with
  | some x => rw [View.ensure_of_some hpid]
  | none =>
    rw [View.ensure_of_none hpid]
    by_cases hj : j = pid
    · subst hj
      rw [View.mmappings, View.mmappings, View.create, Function.update_self, hpid]
      rfl
    · rw [View.mmappings, View.mmappings, View.create, Function.update_of_ne hj]

theorem Receptive.ensure {f : UInt32} (h : Receptive V mmaps f a m) :
    Receptive (V.ensure pid) mmaps f a m := by
  cases hpid : V pid with
  | some x => rwa [View.ensure_of_some hpid]
  | none =>
    rw [View.ensure_of_none hpid]
    intro y hy
    by_cases hf : f = pid
    · subst hf
      rw [View.create, Function.update_self] at hy
      cases hy
      exact Or.inl rfl
    · rw [View.create, Function.update_of_ne hf] at hy
      exact h y hy

theorem Receptive.mono {mmaps' : MmapId → Option OperfMmap} {f : UInt32} (h : Receptive V mmaps f a m)
    (hmm : ∀ i m, mmaps i = some m → mmaps' i = some m) : Receptive V mmaps' f a m := by
  intro x hx
  rcases h x hx with hnone | ⟨hflag, hsame⟩
  · exact Or.inl hnone
  · obtain ⟨i, hi, hm⟩ := Option.bind_eq_some_iff.mp hsame
    exact Or.inr ⟨hflag, Option.bind_eq_some_iff.mpr ⟨i, hi, hmm i m hm⟩⟩

/-- Where the new link makes no circle, nothing new comes below the forked process. -/
theorem View.below_link {y : Ties} (hpar : V par = some y) (hne : pid ≠ par)
    (hno : ¬ (V.link pid par).StrictlyBelow pid pid) {f : UInt32} (h : (V.link pid par).Below pid f) :
    V.Below pid f := by
  induction h with
  | refl => exact Relation.ReflTransGen.refl
  | @tail b c hb hc ih =>
    refine ih.tail ?_
    rw [Links.Child, View.children_link hpar hne] at hc
    split_ifs at hc with heq
    · subst heq
      rcases List.mem_append.mp hc with hc | hc
      · exact hc
      · rw [List.mem_singleton] at hc
        refine (hno (Relation.TransGen.tail' hb ?_)).elim
        rw [Links.Child, View.children_link hpar hne, if_pos rfl]
        exact List.mem_append_right _ (List.mem_singleton_self pid)
    · exact hc

namespace Owned

variable {own : Own}

theorem mono {mmaps' : MmapId → Option OperfMmap} (h : Owned V mmaps own)
    (hmm : ∀ i m, mmaps i = some m → mmaps' i = some m) : Owned V mmaps' own := by
  refine ⟨fun pid x hx => ?_, h.unknown⟩
  have hentry := h.entry pid x hx
  refine ⟨hentry.flag, fun a m hm => ?_, hentry.alone⟩
  obtain ⟨i, hi, him⟩ := Option.bind_eq_some_iff.mp (hentry.kept a m hm)
  exact Option.bind_eq_some_iff.mpr ⟨i, hi, hmm i m him⟩

theorem link (h : Owned V mmaps own) (hpid : (V pid).isSome = true) (hne : pid ≠ par) :
    Owned (V.link pid par) mmaps own ∧ ∀ x, V.link pid par pid = some x → x.forked = true := by
  obtain ⟨x, hx⟩ := Option.isSome_iff_exists.mp hpid
  have hfirst : Owned (V.change pid fun x => { x with forked := true, parentOfFork := some par })
      mmaps own :=
    h.change fun x hx => (h.entry pid x hx).ofTies rfl rfl fun hf => by cases hf
  refine ⟨hfirst.change fun y hy => (hfirst.entry par y hy).ofTies rfl rfl (hfirst.entry par y hy).alone,
    fun y hy => ?_⟩
  rw [View.link, View.change, Function.update_of_ne hne, View.change_of_some hx,
    Function.update_self] at hy
  cases hy
  rfl

/-- A forked process has the mappings of its parent, and knows it. -/
theorem attach (h : Owned V mmaps own) (hok : ViewOk V mmaps) (hatt : V.Attaches pid par)
    (hclean : ∀ kv ∈ V.mmappings par, ∀ m, mmaps kv.2 = some m → ∀ f, V.Below pid f →
      Receptive V mmaps f kv.1 m)
    (hcircle : (V.known pid par).mmappings par ≠ [] →
      ¬ ((V.known pid par).link pid par).StrictlyBelow pid pid) :
    Owned (V.fork pid par) mmaps own := by
  have hok₁ : ViewOk (V.known pid par) mmaps := hok.ensure.ensure
  have hmm : (V.known pid par).mmappings par = V.mmappings par := by
    rw [View.known, View.mmappings_ensure, View.mmappings_ensure]
  obtain ⟨x, hx⟩ := View.ensure_some (V.ensure par) pid
  have hx : V.known pid par pid = some x := hx
  have hy : ∃ y, V.known pid par par = some y := by
    obtain ⟨y, hy⟩ := View.ensure_some V par
    exact ⟨y, by rw [View.known, View.ensure_other hatt.1.symm, hy]⟩
  obtain ⟨y, hy⟩ := hy
  have hfree : (V.known pid par).parent pid = none := by
    rw [View.known_sameLinks.parent]
    cases hv : V pid with
    | none => rw [View.parent, hv, Option.bind_none]
    | some z => exact (hok.parent_none_iff hv).mpr (hatt.2 z hv).2
  have hboth : Owned (V.known pid par) mmaps own := h.ensure.ensure
  obtain ⟨hlink, hforked⟩ := hboth.link (by rw [hx]; rfl) hatt.1
  have hlinked : ∀ kv ∈ (V.known pid par).mmappings par, ∀ f,
      ((V.known pid par).link pid par).Below pid f → V.Below pid f := by
    intro kv hkv f hf
    have hno := hcircle (List.ne_nil_of_mem hkv)
    have hbelow := View.below_link hy hatt.1 hno hf
    rwa [View.known_sameLinks.below] at hbelow
  have hsorted := hok₁.sorted par y hy
  have hkeys : (V.known pid par).mmappings par = y.mmappings := by
    rw [View.mmappings, hy]
    rfl
  rw [View.fork_of_attaches hatt, View.attach]
  refine hlink.handDownAll (hok₁.link hx hy hatt.1 hfree) ?_ hforked (fun kv hkv => ?_) hcircle ?_
  · rw [hkeys]
    exact hsorted.nodup_keys addrLt_strictOrder
  · obtain ⟨m, hm, hstart⟩ := hok₁.mmappings_stored par kv hkv
    refine ⟨m, hm, hstart, fun f hf => ?_⟩
    have hbelow := hlinked kv hkv f hf
    rw [hmm] at hkv
    have hrec : Receptive (V.known pid par) mmaps f kv.1 m := (hclean kv hkv m hm f hbelow).ensure.ensure
    rw [View.link]
    refine Receptive.change (Receptive.change hrec fun x => ?_) fun x => ?_
    · exact ⟨rfl, rfl⟩
    · exact ⟨rfl, rfl⟩
  · rw [View.link, View.change, Function.update_of_ne hatt.1, View.change_of_some hx, Function.update_self]
    rfl

theorem comm {leader : Bool} (h : Owned V mmaps own) (hok : ViewOk V mmaps)
    (hclean : V.Leaves pid leader → KeepsCleanly V mmaps pid)
    (hcircle : V.Leaves pid leader → (∃ kv ∈ V.mmappings pid, V.fromParent pid kv.1 = false) →
      ¬ V.StrictlyBelow pid pid) : Owned (V.comm pid leader) mmaps own := by
  unfold View.comm
  split
  · rename_i hnew
    exact h.create hnew
  · rename_i x hx
    split_ifs with hvalid hforked
    · rw [Bool.and_eq_true, Bool.not_eq_true'] at hvalid
      have hleaves : V.Leaves pid leader := ⟨hvalid.2, x, hx, hvalid.1, hforked⟩
      have hsome : V.parent pid ≠ none := by
        rw [ne_eq, hok.parent_none_iff hx, hforked]
        exact Bool.noConfusion
      obtain ⟨par, hpar⟩ := Option.ne_none_iff_exists'.mp hsome
      exact h.disassociate hok hpar (hclean hleaves) (hcircle hleaves)
    · exact h.change fun y hy => (h.entry pid y hy).ofTies rfl rfl (h.entry pid y hy).alone
    · exact h

/-- A process maps something itself. -/
theorem mmap (h : Owned V mmaps own) (hok : ViewOk V mmaps) (hm : mmaps id = some m)
    (hcircle : ¬ V.StrictlyBelow pid pid)
    (hclean : ∀ f, V.StrictlyBelow pid f → Receptive V mmaps f start m) :
    Owned (V.mmap pid start id) mmaps
      (Function.update own pid (Function.update (own pid) start (some m))) := by
  have hens : Owned (V.ensure pid) mmaps own := h.ensure
  have hlinks : View.SameLinks V (V.ensure pid) := View.ensure_sameLinks
  refine hens.handDown hok.ensure hm (fun x hx => ?_) (fun j hj => Function.update_of_ne hj _ _)
    (fun hnone => ?_) (by rwa [hlinks.strictlyBelow]) fun f hf => ?_
  · rw [Function.update_self]
    exact (hens.entry pid x hx).installOwn start hm
  · obtain ⟨x, hx⟩ := View.ensure_some V pid
    rw [hx] at hnone
    cases hnone
  · rw [hlinks.strictlyBelow] at hf
    exact (hclean f hf).ensure

end Owned

/-- A MMAP record gives its process a mapping of its own. -/
def ownAfter (s : OperfState) (own : Own) : Event → Own
  | .mmap m =>
    if m.misc &&& perfRecordMiscKernel = 0 then
      Function.update own m.pid (Function.update (own m.pid) m.start
        ((eventMapping s m).1.procs.mmaps (eventMapping s m).2))
    else own
  | _ => own

/-- No mapping is handed down to a process that has another at the same start, nor one a second
time. -/
def HandsDownCleanly (s : OperfState) : Event → Prop
  | .mmap e => e.misc &&& perfRecordMiscKernel = 0 →
      ∀ m, (eventMapping s e).1.procs.mmaps (eventMapping s e).2 = some m →
        ∀ f, s.procs.view.StrictlyBelow e.pid f → Receptive s.procs.view s.procs.mmaps f e.start m
  | .fork e => s.procs.view.Attaches e.pid e.ppid →
      ∀ kv ∈ s.procs.view.mmappings e.ppid, ∀ m, s.procs.mmaps kv.2 = some m →
        ∀ f, s.procs.view.Below e.pid f → Receptive s.procs.view s.procs.mmaps f kv.1 m
  | .comm e => s.procs.view.Leaves e.pid (e.pid == e.tid) → KeepsCleanly s.procs.view s.procs.mmaps e.pid
  | _ => True

/-- One record. -/
theorem processRecord_owned {e : Event} {rc : Int} {own : Own} (he : ProcessRecord e) (hs : TreeOk s)
    (hown : Owned s.procs.view s.procs.mmaps own) (h : opWriteEvent cfg env s e = some (rc, s'))
    (hclean : HandsDownCleanly s e) : Owned s'.procs.view s'.procs.mmaps (ownAfter s own e) := by
  obtain ⟨rfl, hstep⟩ := processRecord_step he hs h
  rw [hstep.view, hstep.mmaps]
  cases e with
  | fork f =>
    simp only [opWriteEvent, Option.map_eq_some_iff, Prod.mk.injEq] at h
    obtain ⟨s₁, h, -, -⟩ := h
    by_cases hatt : s.procs.view.Attaches f.pid f.ppid
    · exact hown.attach hs.view hatt (hclean hatt) (handleForkEvent_not_circular hs h hatt)
    · rw [recordView, View.fork_of_not_attaches hatt]
      exact hown.ensure
  | comm c =>
    simp only [opWriteEvent, Option.map_eq_some_iff, Prod.mk.injEq] at h
    obtain ⟨s₁, h, -, -⟩ := h
    have hs' : TreeOk { s with sfileInitDone := true } := ⟨hs.filed, hs.view, hs.noSelf, hs.fresh⟩
    have hno := handleCommEvent_not_circular hs' h
    exact hown.comm hs.view hclean hno
  | mmap e =>
    simp only [opWriteEvent, Option.map_eq_some_iff, Prod.mk.injEq] at h
    obtain ⟨s₁, h, -, -⟩ := h
    have hmade := eventMapping_made hs.fresh e
    have hok := hs.view.mono hmade.kept
    have hown := hown.mono hmade.kept
    rw [recordView, recordMmaps, ownAfter]
    split_ifs with hu
    · obtain ⟨m, hm, -⟩ := hmade.made
      rw [hm]
      exact hown.mmap hok hm (handleMmapEvent_not_circular hs hu h) fun f hf =>
        (hclean hu m hm f hf).mono hmade.kept
    · exact hown
  | sample _ => exact he.elim
  | throttle _ => exact he.elim
  | lost _ => exact he.elim
  | exit => exact he.elim
  | other _ => exact he.elim

def ownRun (cfg : Config n) (env : Env) (images : KernelImages) (es : List Event) :
    Option (OperfState × Own) :=
  tracedRun cfg env images ownAfter (fun _ _ => none) es

/-- A process tells its own mappings from those of its parent, keeps its own, and has no others once
it has left its parent. -/
structure TellsOwn (s : OperfState) (own : Own) : Prop where
  flag : ∀ pid p, s.procs.find pid = some p → ∀ start, p.mmappingsFromParent start = true ↔
    (KeyMap.find start p.mmappings).isSome = true ∧ own pid start = none
  kept : ∀ pid p, s.procs.find pid = some p → ∀ start m, own pid start = some m →
    (KeyMap.find start p.mmappings).bind s.procs.mmaps = some m
  alone : ∀ pid p, s.procs.find pid = some p → p.forked = false → ∀ start,
    (KeyMap.find start p.mmappings).bind s.procs.mmaps = own pid start

theorem Owned.tellsOwn {own : Own} (h : Owned s.procs.view s.procs.mmaps own) : TellsOwn s own := by
  have hentry : ∀ pid p, s.procs.find pid = some p → EntryOwned s.procs.mmaps p.ties (own pid) :=
    fun pid p hp => h.entry pid p.ties (Processes.view_of_find hp)
  refine ⟨fun pid p hp => (hentry pid p hp).flag, fun pid p hp => (hentry pid p hp).kept,
    fun pid p hp hforked start => ?_⟩
  have hflag := (hentry pid p hp).alone hforked start
  cases hown : own pid start with
  | some m => exact (hentry pid p hp).kept start m hown
  | none =>
    cases hfind : KeyMap.find start p.mmappings with
    | none => rfl
    | some id =>
      have hfind : (KeyMap.find start p.ties.mmappings).isSome = true := by
        rw [ProcessInfo.ties, hfind]
        rfl
      rw [((hentry pid p hp).flag start).mpr ⟨hfind, hown⟩] at hflag
      cases hflag

theorem ownRun_owned {es : List Event} {own : Own} (hes : ∀ e ∈ es, ProcessRecord e)
    (hrun : ownRun cfg env images es = some (s, own))
    (hclean : ∀ pre e, pre ++ [e] <+: es → ∀ s own, ownRun cfg env images pre = some (s, own) →
      HandsDownCleanly s e) : TreeOk s ∧ Owned s.procs.view s.procs.mmaps own := by
  refine tracedRun_induction (I := fun s own => TreeOk s ∧ Owned s.procs.view s.procs.mmaps own)
    (C := fun s _ e => HandsDownCleanly s e) ?_ ?_ hes hrun hclean
  · exact ⟨treeOk_init images, fun pid x hx => (by cases hx), fun _ _ _ => rfl⟩
  · intro s own e rc s' he hI hone hstep
    exact ⟨(processRecord_step he hI.1 hstep).2.ok, processRecord_owned he hI.1 hI.2 hstep hone⟩

/-- In a run whose records hand down cleanly, every process has exactly its own mappings once it has
left its parent, and before that knows those it has from it. -/
theorem processes_tell_own (cfg : Config n) (env : Env) (images : KernelImages) (es : List Event)
    (hes : ∀ e ∈ es, ProcessRecord e) (s : OperfState) (own : Own)
    (hrun : ownRun cfg env images es = some (s, own))
    (hclean : ∀ pre e, pre ++ [e] <+: es → ∀ s own, ownRun cfg env images pre = some (s, own) →
      HandsDownCleanly s e) : TellsOwn s own :=
  (ownRun_owned hes hrun hclean).2.tellsOwn

/-- A forked process gets the mapping of its parent, and has it dropped when it gets a name of its
own. -/
def mapForkExec : List Event :=
  [.mmap ⟨perfRecordMiscUser, 10, 0x1000, 0x1000, 0, ['/', 'b']⟩, .fork ⟨20, 10⟩, .comm ⟨20, 20, ['c']⟩]

theorem View.children_of_find {t : Processes} {ps : List UInt32}
    (h : ((t.find pid).map (·.forkedProcesses)).getD [] = ps) : t.view.children pid = ps := by
  rw [← h, View.children, Processes.view, Option.map_map]
  rfl

theorem View.not_strictlyBelow {f : UInt32} (h : V.children pid = []) : ¬ V.StrictlyBelow pid f := by
  intro hf
  obtain ⟨c, hc, -⟩ := View.strictlyBelow_iff.mp hf
  rw [h] at hc
  cases hc

theorem processes_tell_own_exec : ∃ s own, ownRun twoEvents quietEnv noVmlinux mapForkExec = some (s, own) ∧
    TellsOwn s own := by
  have hes : ∀ e ∈ mapForkExec, ProcessRecord e := by
    simp only [mapForkExec, List.mem_cons, List.not_mem_nil, or_false]
    rintro e (rfl | rfl | rfl) <;> trivial
  have hrun : (ownRun twoEvents quietEnv noVmlinux mapForkExec).isSome = true := by decide
  obtain ⟨⟨s, own⟩, hrun⟩ := Option.isSome_iff_exists.mp hrun
  have hsecond : (ownRun twoEvents quietEnv noVmlinux (mapForkExec.take 1)).map (fun so =>
      ((so.1.procs.find 20).map (·.forkedProcesses), (so.1.procs.find 20).isSome)) =
      some (none, false) := by decide
  have hthird : (ownRun twoEvents quietEnv noVmlinux (mapForkExec.take 2)).map (fun so =>
      ((so.1.procs.find 20).map (·.forkedProcesses)).getD []) = some [] := by decide
  refine ⟨s, own, hrun, processes_tell_own twoEvents quietEnv noVmlinux mapForkExec hes s own hrun ?_⟩
  intro pre e hpre s own hso
  obtain ⟨rest, hrest⟩ := hpre
  match pre, hrest with
  | [], hrest =>
    cases hso
    cases hrest
    intro _ m _ f hf
    exact (View.not_strictlyBelow rfl hf).elim
  | [_], hrest =>
    simp only [mapForkExec, List.cons_append, List.nil_append, List.cons.injEq] at hrest
    obtain ⟨rfl, rfl, -⟩ := hrest
    rw [show mapForkExec.take 1 = [_] from rfl, hso, Option.map_some, Option.some_inj, Prod.mk.injEq] at hsecond
    have hnone : s.procs.view 20 = none := by
      rw [Processes.view, Option.map_eq_none_iff, ← Option.not_isSome_iff_eq_none, hsecond.2]
      exact Bool.false_ne_true
    intro _ kv _ m _ f hf x hx
    rcases View.below_iff.mp hf with rfl | hf
    · rw [hnone] at hx
      cases hx
    · refine (View.not_strictlyBelow ?_ hf).elim
      rw [View.children, hnone]
      rfl
  | [_, _], hrest =>
    simp only [mapForkExec, List.cons_append, List.nil_append, List.cons.injEq] at hrest
    obtain ⟨rfl, rfl, rfl, -⟩ := hrest
    rw [show mapForkExec.take 2 = [_, _] from rfl, hso, Option.map_some, Option.some_inj] at hthird
    intro _ kv _ _ m _ f hf
    exact (View.not_strictlyBelow (View.children_of_find hthird) hf).elim
  | _ :: _ :: _ :: pre, hrest =>
    simp [mapForkExec] at hrest

/-- What is known of a process, and a mapping of it. -/
def mappingOf (so : OperfState × Own) (pid : UInt32) (start : UInt64) : Option (Bool × Option OperfMmap) :=
  (so.1.procs.find pid).map fun p =>
    (p.forked, (KeyMap.find start p.mmappings).bind so.1.procs.mmaps)

/-- A parent that maps a file twice at the same place, and the COMM record of the forked process. -/
def mappedTwice : List Event :=
  [.fork ⟨20, 10⟩, .mmap ⟨perfRecordMiscUser, 10, 0x1000, 0x1000, 0, ['/', 'b']⟩,
    .mmap ⟨perfRecordMiscUser, 10, 0x1000, 0x1000, 0, ['/', 'b']⟩, .comm ⟨20, 20, ['c']⟩]

/-- The forked process takes the parent's mapping for its own. -/
theorem remapped_taken_for_own : (∀ e ∈ mappedTwice, ProcessRecord e) ∧ ∃ s own,
    ownRun twoEvents quietEnv noVmlinux mappedTwice = some (s, own) ∧ ¬TellsOwn s own := by
  have hes : ∀ e ∈ mappedTwice, ProcessRecord e := by
    simp only [mappedTwice, List.mem_cons, List.not_mem_nil, or_false]
    rintro e (rfl | rfl | rfl | rfl) <;> trivial
  have hrun : ((ownRun twoEvents quietEnv noVmlinux mappedTwice).bind
      fun so => (mappingOf so 20 0x1000).map fun r => (r.1, r.2.isSome, (so.2 20 0x1000).isSome)) =
      some (false, true, false) := by decide
  obtain ⟨⟨s, own⟩, hso, hrest⟩ := Option.bind_eq_some_iff.mp hrun
  obtain ⟨⟨forked, stored⟩, hmapping, hrest⟩ := Option.map_eq_some_iff.mp hrest
  simp only [Prod.mk.injEq] at hrest
  obtain ⟨hforked, hstored, hown⟩ := hrest
  obtain ⟨p, hp, hpair⟩ := Option.map_eq_some_iff.mp hmapping
  simp only [Prod.mk.injEq] at hpair
  refine ⟨hes, s, own, hso, fun htells => ?_⟩
  have halone := htells.alone 20 p hp (hpair.1.trans hforked) 0x1000
  rw [hpair.2] at halone
  rw [halone, hown] at hstored
  cases hstored

end Oprofile.Operf
