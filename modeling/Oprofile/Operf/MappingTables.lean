import Oprofile.Operf.Inheritance

/-! What is filed at each start for each process, as the records change it. -/
namespace Oprofile.Operf

variable {pid par j : UInt32} {V W : View} {start a : UInt64} {id : MmapId} {doSelf : Bool}
  {mmaps : MmapId → Option OperfMmap} {kvs : List (UInt64 × MmapId)}

namespace View

def filed (V : View) (pid : UInt32) (a : UInt64) : Option MmapId :=
  (V pid).bind fun x => KeyMap.find a x.mmappings

theorem filed_of_some {x : Ties} (h : V pid = some x) (a : UInt64) :
    V.filed pid a = KeyMap.find a x.mmappings := by
  rw [filed, h, Option.bind_some]

theorem filed_of_none (h : V pid = none) (a : UInt64) : V.filed pid a = none := by
  rw [filed, h, Option.bind_none]

theorem filed_eq_find (V : View) (pid : UInt32) (a : UInt64) :
    V.filed pid a = KeyMap.find a (V.mmappings pid) := by
  cases hx : V pid with
  | none => rw [filed_of_none hx, mmappings, hx]; rfl
  | some x => rw [filed_of_some hx, mmappings, hx]; rfl

theorem filed_change {f : Ties → Ties} (hf : ∀ x, (f x).mmappings = x.mmappings) (j : UInt32) (a : UInt64) :
    (V.change pid f).filed j a = V.filed j a := by
  rw [filed_eq_find, mmappings_change hf, ← filed_eq_find]

theorem filed_ensure (V : View) (pid j : UInt32) (a : UInt64) :
    (V.ensure pid).filed j a = V.filed j a := by
  rw [filed_eq_find, mmappings_ensure, ← filed_eq_find]

theorem filed_create {valid : Bool} (h : V pid = none) (j : UInt32) (a : UInt64) :
    (V.create pid valid).filed j a = V.filed j a := by
  by_cases hj : j = pid
  · subst hj
    rw [filed_of_none h, filed, create, Function.update_self]
    rfl
  · rw [filed, create, Function.update_of_ne hj, filed]

theorem filed_link (V : View) (pid par j : UInt32) (a : UInt64) :
    (V.link pid par).filed j a = V.filed j a := by
  rw [filed_eq_find, mmappings_link, ← filed_eq_find]

theorem filed_unlink (hparent : V.parent pid = some par) (j : UInt32) (a : UInt64) :
    (V.unlink pid).filed j a = V.filed j a := by
  rw [unlink_eq hparent, filed_change fun _ => by rfl, filed_change fun _ => by rfl]

theorem filed_installAt (V : View) (pid : UInt32) (start : UInt64) (id : MmapId) (doSelf : Bool)
    (j : UInt32) (a : UInt64) : (V.installAt pid start id doSelf).filed j a =
      if a = start ∧ j = pid then (V j).map fun _ => id else V.filed j a := by
  by_cases hj : j = pid
  · subst hj
    cases hx : V j with
    | none => simp [filed, installAt, hx]
    | some x =>
      rw [filed_of_some (x := x.install start id doSelf) (by rw [installAt, Function.update_self, hx]; rfl),
        EntryOwned.install_find, filed_of_some hx]
      simp
  · rw [filed, installAt, Function.update_of_ne hj, if_neg (fun h => hj h.2), filed]

open Classical in
/-- A mapping handed down is filed for the process and for all below it. -/
theorem filed_handDown (V : View) (pid : UInt32) (start : UInt64) (id : MmapId) (doSelf : Bool)
    (j : UInt32) (a : UInt64) : (V.handDown pid start id doSelf).filed j a =
      if a = start ∧ V.Below pid j then (V j).map fun _ => id else V.filed j a := by
  have hat := filed_installAt V pid start id doSelf j a
  by_cases hj : V.StrictlyBelow pid j
  · have hbelow : V.Below pid j := below_iff.mpr (Or.inr hj)
    rw [filed, handDown, installOn, if_pos hj]
    cases hx : V.installAt pid start id doSelf j with
    | none =>
      have hnone : V j = none := by
        by_cases hp : j = pid
        · subst hp
          rw [installAt, Function.update_self] at hx
          exact Option.map_eq_none_iff.mp hx
        · rwa [installAt, Function.update_of_ne hp] at hx
      rw [hnone, filed_of_none hnone]
      simp
    | some x =>
      have hsome : (V j).isSome = true := by
        rw [← View.handDown_isSome V pid start id doSelf, handDown, installOn, if_pos hj, hx]
        rfl
      obtain ⟨y, hy⟩ := Option.isSome_iff_exists.mp hsome
      rw [filed_of_some hx] at hat
      rw [Option.map_some, Option.bind_some, EntryOwned.install_find, hat, hy]
      by_cases ha : a = start
      · simp [ha, hbelow]
      · simp [ha]
  · rw [filed, handDown, installOn, if_neg hj, ← filed, hat]
    by_cases hp : j = pid
    · simp [hp, show V.Below pid pid from Relation.ReflTransGen.refl]
    · have hbelow : ¬ V.Below pid j := fun h => (below_iff.mp h).elim hp hj
      simp [hp, hbelow]

open Classical in
/-- So are all mappings of a list. -/
theorem filed_handDownAll (hkeys : (kvs.map Prod.fst).Nodup) (j : UInt32) (a : UInt64) :
    (V.handDownAll pid kvs).filed j a =
      if V.Below pid j then ((V j).bind fun _ => KeyMap.find a kvs).or (V.filed j a) else V.filed j a := by
  induction kvs generalizing V with
  | nil =>
    rw [handDownAll, List.foldl_nil]
    cases V j <;> simp [KeyMap.find]
  | cons kv kvs ih =>
    obtain ⟨hnotin, hkeys⟩ := List.nodup_cons.mp hkeys
    have hlinks : SameLinks V (V.handDown pid kv.1 kv.2 true) := handDown_sameLinks
    have hfold : V.handDownAll pid (kv :: kvs) = (V.handDown pid kv.1 kv.2 true).handDownAll pid kvs := rfl
    rw [hfold, ih hkeys, hlinks.below, filed_handDown]
    by_cases hbelow : V.Below pid j
    · rw [if_pos hbelow, if_pos hbelow]
      cases hj : V j with
      | none =>
        have hnone : V.handDown pid kv.1 kv.2 true j = none := by
          rw [← Option.not_isSome_iff_eq_none, View.handDown_isSome, hj]
          exact Bool.false_ne_true
        rw [hnone, filed_of_none hj]
        simp
      | some x =>
        have hsome : (V.handDown pid kv.1 kv.2 true j).isSome = true := by
          rw [View.handDown_isSome, hj]
          rfl
        obtain ⟨y, hy⟩ := Option.isSome_iff_exists.mp hsome
        rw [hy, Option.bind_some, Option.bind_some, Option.map_some, KeyMap.find]
        by_cases ha : kv.1 = a
        · subst ha
          have hfresh : KeyMap.find kv.1 kvs = none := KeyMap.find_eq_none hnotin
          simp [hfresh, hbelow]
        · simp [ha, Ne.symm ha]
    · rw [if_neg hbelow, if_neg hbelow, if_neg (fun h => hbelow h.2)]

theorem filed_erase {f : Ties → Ties} (hf : ∀ x, (f x).mmappings = KeyMap.erase start x.mmappings) (j : UInt32)
    (a : UInt64) : (V.change pid f).filed j a = if a = start ∧ j = pid then none else V.filed j a := by
  by_cases hj : j = pid
  · subst hj
    cases hx : V j with
    | none => simp [filed, change, hx]
    | some x =>
      rw [filed_of_some (x := f x) (by rw [change_of_some hx, Function.update_self]), filed_of_some hx, hf]
      by_cases ha : a = start
      · simp [ha]
      · simp [ha, KeyMap.find_erase_ne ha]
  · rw [filed, change, Function.update_of_ne hj, if_neg (fun h => hj h.2), filed]

theorem filed_drop (V : View) (pid : UInt32) (start : UInt64) (j : UInt32) (a : UInt64) :
    (V.change pid (·.drop start)).filed j a = if a = start ∧ j = pid then none else V.filed j a :=
  filed_erase (fun _ => rfl) j a

/-- What a process that leaves its parent keeps. -/
def kept (V : View) (pid : UInt32) (a : UInt64) : Option MmapId :=
  if V.fromParent pid a then none else V.filed pid a

open Classical in
/-- Each mapping of a list is kept and handed down once more, or dropped. -/
theorem filed_keepOrDrop_all (hkeys : (kvs.map Prod.fst).Nodup) (hknown : (V pid).isSome = true)
    (j : UInt32) (a : UInt64) : (kvs.foldl (keepOrDrop pid) V).filed j a =
      (KeyMap.find a kvs).elim (V.filed j a) fun id =>
        if V.fromParent pid a then if j = pid then none else V.filed j a
        else if V.Below pid j then (V j).map fun _ => id else V.filed j a := by
  induction kvs generalizing V with
  | nil => rfl
  | cons kv kvs ih =>
    obtain ⟨hnotin, hkeys⟩ := List.nodup_cons.mp hkeys
    have hlinks : SameLinks V (keepOrDrop pid V kv) := keepOrDrop_sameLinks
    have hsome : (keepOrDrop pid V kv pid).isSome = true := by rwa [keepOrDrop_isSome]
    rw [List.foldl_cons, ih hkeys hsome, hlinks.below, KeyMap.find]
    by_cases ha : kv.1 = a
    · subst ha
      have hfresh : KeyMap.find kv.1 kvs = none := KeyMap.find_eq_none hnotin
      rw [if_pos rfl, hfresh]
      simp only [keepOrDrop, Option.elim]
      split_ifs with hflag hj hbelow
      · rw [filed_drop, if_pos ⟨rfl, hj⟩]
      · rw [filed_drop, if_neg (fun h => hj h.2)]
      · rw [filed_handDown, if_pos ⟨rfl, hbelow⟩]
      · rw [filed_handDown, if_neg (fun h => hbelow h.2)]
    · rw [if_neg ha]
      have hfiled : ∀ j, (keepOrDrop pid V kv).filed j a = V.filed j a := by
        intro j
        rw [keepOrDrop]
        split_ifs
        · rw [filed_drop, if_neg (fun h => ha h.1.symm)]
        · rw [filed_handDown, if_neg (fun h => ha h.1.symm)]
      have hflag : (keepOrDrop pid V kv).fromParent pid a = V.fromParent pid a := by
        rw [keepOrDrop]
        split_ifs
        · rw [fromParent_drop, if_neg (Ne.symm ha)]
        · rw [fromParent_handDown (Ne.symm ha)]
      rw [hfiled, hflag]
      cases hfind : KeyMap.find a kvs with
      | none => rfl
      | some id =>
        have hmap : ((keepOrDrop pid V kv j).map fun _ => id) = (V j).map fun _ => id := by
          have hiff : (keepOrDrop pid V kv j).isSome = (V j).isSome := keepOrDrop_isSome j
          cases hx : V j <;> cases hy : keepOrDrop pid V kv j <;> simp_all
        simp only [Option.elim, hmap]

end View

end Oprofile.Operf
