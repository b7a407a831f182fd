import Oprofile.Library.Sorting
import Mathlib.Data.List.Induction

/-! Which masks a unit mask of an event takes (`_is_um_valid_bitmask` in `op_events.c`). -/
namespace Oprofile.Libop.UnitMasks

/-- `MAX_UNIT_MASK` -/
def maxUnitMask : Nat := 64

inductive UnitMaskType
  | mandatory
  | exclusive
  | bitmask
  deriving DecidableEq

/-- An `op_unit_mask`: of each entry of `um` its value, and `num` of them are in use. -/
structure OpUnitMask where
  unitTypeMask : UnitMaskType
  um : List (BitVec 32)
  num_le : um.length ≤ maxUnitMask

namespace OpUnitMask

def num (unit : OpUnitMask) : Nat := unit.um.length

end OpUnitMask

/-- The copy of the values in a structure that was filled with zeros. -/
def copyValues (unit : OpUnitMask) : List (BitVec 32) :=
  unit.um ++ List.replicate (maxUnitMask - unit.num) 0

/-- The inner loop of the sort and the store after it; `slot` is `j + 1`. -/
def shiftInto (tmp : BitVec 32) : (slot : Nat) → List (BitVec 32) → List (BitVec 32)
  | 0, um => um.set 0 tmp
  | j + 1, um =>
    if tmp < um.getD j 0 then shiftInto tmp j (um.set (j + 1) (um.getD j 0)) else um.set (j + 1) tmp

def sortValues (num : Nat) (um : List (BitVec 32)) : List (BitVec 32) :=
  (List.range' 1 (num - 1)).foldl (fun um i => shiftInto (um.getD i 0) i um) um

/-- How often the inner loop steps on over `um[k]`, `um[k + 1]`, …; nothing when it reads `um[MAX_UNIT_MASK]`. -/
def skipEqual (value : BitVec 32) (inTable : Bool) : List (BitVec 32) → Option Nat
  | [] => none
  | x :: rest => if value = x ∧ inTable then (skipEqual value inTable rest).map (· + 1) else some 0

/-- The walk from `k` on: the values without their duplicates, each with its `duped_um`. -/
def removeDuplicates (um : List (BitVec 32)) (num k : Nat) (noDups : List (BitVec 32 × Bool)) :
    Option (List (BitVec 32 × Bool)) :=
  if k < num then do
    let value ← um[k]?
    let current ← um[noDups.length]?
    let skipped ← skipEqual current (noDups.length < num) (um.drop (k + 1))
    removeDuplicates um num (k + 1 + skipped) (noDups ++ [(value, decide (skipped ≠ 0))])
  else some noDups
termination_by num - k

/-- What is answered, and the value that the message on a duplicate names. -/
structure UmVerdict where
  valid : Bool
  ambiguous : Option (BitVec 32)
  deriving DecidableEq

/-- The last loop: `masked_val`, and the duplicate at which it ends. -/
def maskedValue (passedUm : BitVec 32) : List (BitVec 32 × Bool) → BitVec 32 → BitVec 32 × Option (BitVec 32)
  | [], masked => (masked, none)
  | (value, duped) :: um, masked =>
    if value &&& passedUm = value then
      if duped then (masked ||| value, some value) else maskedValue passedUm um (masked ||| value)
    else maskedValue passedUm um masked

/-- What follows the walk. -/
def umVerdict (noDups : List (BitVec 32 × Bool)) (passedUm : BitVec 32) : UmVerdict :=
  if passedUm = 0 ∧ noDups.any (·.1 = 0) then ⟨true, none⟩
  else
    match maskedValue passedUm noDups 0 with
    | (_, some value) => ⟨false, some value⟩
    | (masked, none) => ⟨masked = passedUm ∧ passedUm ≠ 0, none⟩

/-- `_is_um_valid_bitmask`; nothing when it reads past the last unit mask. -/
def isUmValidBitmask (unit : OpUnitMask) (passedUm : BitVec 32) : Option UmVerdict :=
  (removeDuplicates (sortValues unit.num (copyValues unit)) unit.num 0 []).map (umVerdict · passedUm)

/-! The sort. -/

/-- The values up to the slot are put in order, what follows stays. -/
theorem shiftInto_spec (tmp : BitVec 32) (p : List (BitVec 32)) (a : BitVec 32) (r : List (BitVec 32)) :
    ∃ q, shiftInto tmp p.length (p ++ a :: r) = q ++ r ∧ q.Perm (tmp :: p) ∧
      (p.Pairwise (· ≤ ·) → q.Pairwise (· ≤ ·)) := by
  induction p using List.reverseRecOn generalizing a r with
  | nil => exact ⟨[tmp], rfl, List.Perm.refl _, fun _ => List.pairwise_singleton _ _⟩
  | append_singleton p y ih =>
    have hread : ((p ++ [y]) ++ a :: r).getD p.length 0 = y := by simp
    rw [List.length_append, List.length_singleton, shiftInto, hread]
    have hset : ∀ z, ((p ++ [y]) ++ a :: r).set (p.length + 1) z = p ++ y :: z :: r := by
      intro z
      simp
    rw [hset, hset]
    split
    · rename_i hlt
      obtain ⟨q, heq, hperm, hsorted⟩ := ih y (y :: r)
      refine ⟨q ++ [y], by rw [heq]; simp, ?_, ?_⟩
      · calc (q ++ [y]).Perm ((tmp :: p) ++ [y]) := hperm.append_right [y]
          _ = tmp :: (p ++ [y]) := rfl
      · intro hp
        obtain ⟨hp, -, hlast⟩ := List.pairwise_append.mp hp
        refine List.pairwise_append.mpr ⟨hsorted hp, List.pairwise_singleton _ _, ?_⟩
        intro u hu z hz
        rw [List.mem_singleton] at hz
        subst hz
        rcases List.mem_cons.mp (hperm.mem_iff.mp hu) with rfl | hu
        · exact BitVec.le_of_lt hlt
        · exact hlast u hu z (List.mem_singleton_self z)
    · rename_i hge
      refine ⟨p ++ [y, tmp], by simp, ?_, ?_⟩
      · calc (p ++ [y, tmp]).Perm ([y, tmp] ++ p) := List.perm_append_comm
          _ = y :: tmp :: p := rfl
          List.Perm _ (tmp :: y :: p) := List.Perm.swap tmp y p
          List.Perm _ (tmp :: (p ++ [y])) := (List.perm_append_singleton y p).symm.cons tmp
      · intro hp
        have hle : y ≤ tmp := BitVec.not_lt.mp hge
        obtain ⟨hp, -, hlast⟩ := List.pairwise_append.mp hp
        refine List.pairwise_append.mpr ⟨hp, by simpa using hle, ?_⟩
        intro u hu z hz
        have huy := hlast u hu y (List.mem_singleton_self y)
        rcases List.mem_pair.mp hz with rfl | rfl
        · exact huy
        · exact BitVec.le_trans huy hle

theorem sortLoop_spec (u : List (BitVec 32)) (rest p : List (BitVec 32)) (hp : p.Pairwise (· ≤ ·)) :
    ∃ s, (List.range' p.length u.length).foldl (fun um i => shiftInto (um.getD i 0) i um) (p ++ (u ++ rest)) = s ++ rest ∧
      s.Perm (p ++ u) ∧ s.Pairwise (· ≤ ·) := by
  induction u generalizing p with
  | nil => exact ⟨p, rfl, by simp, hp⟩
  | cons x u ih =>
    have hread : (p ++ ((x :: u) ++ rest)).getD p.length 0 = x := by simp
    obtain ⟨q, heq, hperm, hsorted⟩ := shiftInto_spec x p x (u ++ rest)
    obtain ⟨s, hs, hsperm, hssorted⟩ := ih q (hsorted hp)
    have hlength : q.length = p.length + 1 := hperm.length_eq
    refine ⟨s, ?_, ?_, hssorted⟩
    · rw [List.length_cons, List.range'_succ, List.foldl_cons, hread, List.cons_append, heq, ← hlength, hs]
    · calc s.Perm (q ++ u) := hsperm
        List.Perm _ ((x :: p) ++ u) := hperm.append_right u
        List.Perm _ (p ++ x :: u) := List.perm_middle.symm

/-- The values in use are sorted, the zeros behind them stay. -/
theorem sortValues_spec (um rest : List (BitVec 32)) :
    ∃ s, sortValues um.length (um ++ rest) = s ++ rest ∧ s.Perm um ∧ s.Pairwise (· ≤ ·) := by
  cases um with
  | nil => exact ⟨[], rfl, List.Perm.refl _, List.Pairwise.nil⟩
  | cons x um => exact sortLoop_spec um rest [x] (List.pairwise_singleton _ _)

/-! The walk. `a` stands before the entry that is compared, `w` between it and the next value, and `rest` is to come. -/

/-- The inner loop runs into the zeros behind the table when nothing stops it. -/
theorem skipEqual_padded (v : BitVec 32) (l : List (BitVec 32)) (free : Nat) :
    skipEqual v true (l ++ List.replicate free 0) =
      if l.dropWhile (v = ·) = [] ∧ (free = 0 ∨ v = 0) then none else some (l.takeWhile (v = ·)).length := by
  induction l with
  | nil =>
    induction free with
    | zero => rfl
    | succ free ih =>
      rw [List.nil_append] at ih ⊢
      rw [List.replicate_succ, skipEqual, ih]
      by_cases hv : v = 0
      · simp [hv]
      · have hne : ¬v = 0#32 := hv
        simp [hne]
  | cons x l ih =>
    rw [List.cons_append, skipEqual, List.dropWhile_cons, List.takeWhile_cons]
    by_cases hv : v = x
    · rw [if_pos ⟨hv, rfl⟩, ih]
      simp only [hv, decide_true, if_true]
      split
      · rfl
      · rfl
    · simp [hv]

/-- A value is told from its duplicates when it has more of them than any smaller one. -/
def Noticed (s : List (BitVec 32)) (v : BitVec 32) : Prop :=
  1 < s.count v ∧ ∀ u ∈ s, u < v → s.count u < s.count v

/-- The values that the walk has left behind are smaller than all that are to come. -/
def Below (u : BitVec 32) (rest : List (BitVec 32)) : Prop := ∀ x ∈ rest, u < x

/-- How far the walk falls behind: by the duplicates of the most frequent value it has passed. -/
structure Walk (s a w rest : List (BitVec 32)) (noDups : List (BitVec 32 × Bool)) : Prop where
  split : s = a ++ w ++ rest
  behind : ∀ u ∈ a, Below u rest
  bounded : ∀ u ∈ a ++ w, Below u rest → s.count u ≤ w.length + 1
  attained : w = [] ∨ ∃ u ∈ a ++ w, Below u rest ∧ s.count u = w.length + 1
  entries : noDups.length = a.length
  values : ∀ u, (∃ b, (u, b) ∈ noDups) ↔ u ∈ a ++ w
  noticed : ∀ u, (u, true) ∈ noDups ↔ u ∈ a ++ w ∧ Below u rest ∧ Noticed s u

section Step

variable {s a w w' rest : List (BitVec 32)} {x y : BitVec 32} {noDups : List (BitVec 32 × Bool)}

theorem Walk.head_le (h : Walk s a w (x :: rest) noDups) (hs : s.Pairwise (· ≤ ·)) (hy : w ++ [x] = y :: w') :
    y ≤ x ∧ (∀ u ∈ w, y ≤ u ∧ u ≤ x) ∧ ∀ u ∈ rest, x ≤ u := by
  rw [h.split, List.append_assoc] at hs
  obtain ⟨-, hs, -⟩ := List.pairwise_append.mp hs
  obtain ⟨hw, hrest, hacross⟩ := List.pairwise_append.mp hs
  have hlast : ∀ u ∈ w, u ≤ x := fun u hu => hacross u hu x List.mem_cons_self
  refine ⟨?_, ?_, (List.pairwise_cons.mp hrest).1⟩
  · have hmem : y ∈ w ++ [x] := by simp [hy]
    rcases List.mem_append.mp hmem with hmem | hmem
    · exact hlast y hmem
    · rw [List.mem_singleton.mp hmem]
      exact BitVec.le_refl x
  · intro u hu
    refine ⟨?_, hlast u hu⟩
    cases w with
    | nil => cases hu
    | cons v w =>
      obtain rfl : v = y := (List.cons.inj hy).1
      rcases List.mem_cons.mp hu with rfl | hu
      · exact BitVec.le_refl u
      · exact (List.pairwise_cons.mp hw).1 u hu

theorem Walk.rest_sorted (h : Walk s a w (x :: rest) noDups) (hs : s.Pairwise (· ≤ ·)) : rest.Pairwise (· ≤ ·) := by
  rw [h.split] at hs
  exact (List.pairwise_cons.mp (List.pairwise_append.mp hs).2.1).2

/-- The entry that was compared is smaller than all that the walk has not passed over. -/
theorem Walk.below_drop (h : Walk s a w (x :: rest) noDups) (hs : s.Pairwise (· ≤ ·)) (hy : w ++ [x] = y :: w') :
    Below y (rest.dropWhile (y = ·)) := by
  obtain ⟨hyx, -, hle⟩ := h.head_le hs hy
  have hfront : rest.Pairwise fun u v => decide (y = v) = true → decide (y = u) = true := by
    refine (h.rest_sorted hs).imp_of_mem ?_
    intro u v hu _ huv hv
    have hxu := hle u hu
    simp only [decide_eq_true_eq] at hv ⊢
    bv_omega
  intro z hz
  obtain ⟨hz, hne⟩ := (Sorting.mem_dropWhile_iff hfront).mp hz
  have hxz := hle z hz
  simp only [decide_eq_true_eq] at hne
  bv_omega

theorem Walk.take_eq (h : Walk s a w (x :: rest) noDups) (hs : s.Pairwise (· ≤ ·)) (hy : w ++ [x] = y :: w')
    (htake : rest.takeWhile (y = ·) ≠ []) : y = x ∧ ∀ u ∈ w, u = x := by
  obtain ⟨hyx, hw, hle⟩ := h.head_le hs hy
  obtain ⟨z, hz⟩ := List.exists_mem_of_ne_nil _ htake
  have hyz : y = z := by simpa using List.mem_takeWhile_imp hz
  have hxz := hle z ((List.takeWhile_sublist _).mem hz)
  have heq : y = x := by bv_omega
  refine ⟨heq, ?_⟩
  intro u hu
  have hu := hw u hu
  bv_omega

/-- How often the next value stands in the table. -/
theorem Walk.count_eq (h : Walk s a w (x :: rest) noDups) (hx : Below x (rest.dropWhile (y = ·))) :
    s.count x = w.count x + 1 + (rest.takeWhile (y = ·)).count x := by
  have hsplit : s = a ++ w ++ x :: (rest.takeWhile (y = ·) ++ rest.dropWhile (y = ·)) := by
    rw [List.takeWhile_append_dropWhile]
    exact h.split
  have ha : a.count x = 0 := by
    refine List.count_eq_zero.mpr ?_
    intro hmem
    exact BitVec.lt_irrefl x (h.behind x hmem x List.mem_cons_self)
  have hdrop : (rest.dropWhile (y = ·)).count x = 0 := by
    refine List.count_eq_zero.mpr ?_
    intro hmem
    exact BitVec.lt_irrefl x (hx x hmem)
  rw [hsplit]
  simp only [List.count_append, List.count_cons_self, ha, hdrop]
  omega

theorem Walk.count_take (h : Walk s a w (x :: rest) noDups) (hs : s.Pairwise (· ≤ ·)) (hy : w ++ [x] = y :: w')
    (htake : rest.takeWhile (y = ·) ≠ []) : s.count x = w.length + 1 + (rest.takeWhile (y = ·)).length := by
  obtain ⟨rfl, hw⟩ := h.take_eq hs hy htake
  rw [h.count_eq (h.below_drop hs hy), List.count_eq_length.mpr fun u hu => (hw u hu).symm,
    List.count_eq_length.mpr fun u hu => by simpa using List.mem_takeWhile_imp hu]

/-- A value that the step passes was passed before or is the next one. -/
theorem Walk.passed (h : Walk s a w (x :: rest) noDups) (hs : s.Pairwise (· ≤ ·)) (hy : w ++ [x] = y :: w')
    {u : BitVec 32} (hu : u ∈ (a ++ [y]) ++ (w' ++ rest.takeWhile (y = ·))) : u ∈ a ++ w ∧ u < x ∨ u = x := by
  obtain ⟨hyx, hw, hle⟩ := h.head_le hs hy
  have hmem : u ∈ a ∨ u ∈ w ++ [x] ∨ u ∈ rest.takeWhile (y = ·) := by
    rw [hy]
    simp only [List.mem_append, List.mem_cons] at hu ⊢
    tauto
  rcases hmem with hu | hu | hu
  · exact Or.inl ⟨List.mem_append_left w hu, h.behind u hu x List.mem_cons_self⟩
  · rcases List.mem_append.mp hu with hu | hu
    · have hux := (hw u hu).2
      by_cases heq : u = x
      · exact Or.inr heq
      · exact Or.inl ⟨List.mem_append_right a hu, by bv_omega⟩
    · exact Or.inr (List.mem_singleton.mp hu)
  · have hyu : y = u := by simpa using List.mem_takeWhile_imp hu
    have hxu := hle u ((List.takeWhile_sublist _).mem hu)
    right
    bv_omega

theorem Walk.passed_mem (rest : List (BitVec 32)) (hy : w ++ [x] = y :: w') {u : BitVec 32} (hu : u ∈ a ++ w ∨ u = x) :
    u ∈ (a ++ [y]) ++ (w' ++ rest.takeWhile (y = ·)) := by
  have hmem : u ∈ a ∨ u ∈ w ++ [x] := by
    simp only [List.mem_append, List.mem_singleton] at hu ⊢
    tauto
  rw [hy] at hmem
  simp only [List.mem_append, List.mem_cons] at hmem ⊢
  tauto

theorem below_cons {u : BitVec 32} (hux : u < x) (hle : ∀ z ∈ rest, x ≤ z) : Below u (x :: rest) := by
  intro z hz
  rcases List.mem_cons.mp hz with rfl | hz
  · exact hux
  · have hxz := hle z hz
    bv_omega

theorem Below.drop {u : BitVec 32} (hu : Below u (x :: rest)) : Below u (rest.dropWhile (y = ·)) := fun z hz =>
  hu z (List.mem_cons_of_mem x ((List.dropWhile_sublist _).mem hz))

theorem Walk.length_eq (hy : w ++ [x] = y :: w') : w'.length = w.length := by
  have hlength := congrArg List.length hy
  simp only [List.length_append, List.length_cons, List.length_nil] at hlength
  omega

theorem Walk.step_bounded (h : Walk s a w (x :: rest) noDups) (hs : s.Pairwise (· ≤ ·)) (hy : w ++ [x] = y :: w')
    {u : BitVec 32} (hu : u ∈ (a ++ [y]) ++ (w' ++ rest.takeWhile (y = ·))) (hbelow : Below u (rest.dropWhile (y = ·))) :
    s.count u ≤ (w' ++ rest.takeWhile (y = ·)).length + 1 := by
  rw [List.length_append, Walk.length_eq hy]
  rcases h.passed hs hy hu with ⟨hu, hux⟩ | rfl
  · have hold := h.bounded u hu (below_cons hux (h.head_le hs hy).2.2)
    omega
  · rw [h.count_eq hbelow]
    have hw := List.count_le_length (a := u) (l := w)
    have htake := List.count_le_length (a := u) (l := rest.takeWhile (y = ·))
    omega

theorem Walk.step_attained (h : Walk s a w (x :: rest) noDups) (hs : s.Pairwise (· ≤ ·)) (hy : w ++ [x] = y :: w') :
    w' ++ rest.takeWhile (y = ·) = [] ∨ ∃ u ∈ (a ++ [y]) ++ (w' ++ rest.takeWhile (y = ·)),
      Below u (rest.dropWhile (y = ·)) ∧ s.count u = (w' ++ rest.takeWhile (y = ·)).length + 1 := by
  have hlength := Walk.length_eq hy
  by_cases htake : rest.takeWhile (y = ·) = []
  · rw [htake, List.append_nil]
    rcases h.attained with rfl | ⟨u, hu, hbelow, hcount⟩
    · exact Or.inl (List.length_eq_zero_iff.mp hlength)
    · right
      refine ⟨u, ?_, hbelow.drop, by omega⟩
      simpa [htake] using Walk.passed_mem rest hy (Or.inl hu)
  · obtain ⟨heq, -⟩ := h.take_eq hs hy htake
    right
    refine ⟨x, Walk.passed_mem rest hy (Or.inr rfl), heq ▸ h.below_drop hs hy, ?_⟩
    rw [h.count_take hs hy htake, List.length_append, hlength]
    omega

/-- The next value is found to be repeated exactly when it stands out. -/
theorem Walk.take_iff (h : Walk s a w (x :: rest) noDups) (hs : s.Pairwise (· ≤ ·)) (hy : w ++ [x] = y :: w') :
    rest.takeWhile (y = ·) ≠ [] ↔ Below x (rest.dropWhile (y = ·)) ∧ Noticed s x := by
  have hle := (h.head_le hs hy).2.2
  constructor
  · intro htake
    have hcount := h.count_take hs hy htake
    have hpos : 0 < (rest.takeWhile (y = ·)).length := List.length_pos_iff.mpr htake
    refine ⟨(h.take_eq hs hy htake).1 ▸ h.below_drop hs hy, by omega, ?_⟩
    intro u hu hux
    have hmem : u ∈ a ++ w := by
      rw [h.split] at hu
      rcases List.mem_append.mp hu with hu | hu
      · exact hu
      · exfalso
        rcases List.mem_cons.mp hu with rfl | hu
        · exact BitVec.lt_irrefl u hux
        · have hxu := hle u hu
          bv_omega
    have hbound := h.bounded u hmem (below_cons hux hle)
    omega
  · rintro ⟨hbelow, htwice, hmore⟩ htake
    have hcount := h.count_eq hbelow
    have hw := List.count_le_length (a := x) (l := w)
    rw [htake, List.count_nil] at hcount
    rcases h.attained with rfl | ⟨u, hu, hless, hattained⟩
    · simp only [List.count_nil] at hcount
      omega
    · have hmem : u ∈ s := by
        rw [h.split]
        exact List.mem_append_left _ hu
      have hlt := hmore u hmem (hless x List.mem_cons_self)
      omega

theorem Walk.step (h : Walk s a w (x :: rest) noDups) (hs : s.Pairwise (· ≤ ·)) (hy : w ++ [x] = y :: w') :
    Walk s (a ++ [y]) (w' ++ rest.takeWhile (y = ·)) (rest.dropWhile (y = ·))
      (noDups ++ [(x, decide (rest.takeWhile (y = ·) ≠ []))]) where
  split := by
    have hsplit := h.split
    rw [← List.takeWhile_append_dropWhile (p := (y = ·)) (l := rest), List.append_cons, List.append_assoc a, hy] at hsplit
    simpa using hsplit
  behind := by
    intro u hu
    rcases List.mem_append.mp hu with hu | hu
    · exact (h.behind u hu).drop
    · rw [List.mem_singleton.mp hu]
      exact h.below_drop hs hy
  bounded u hu hbelow := h.step_bounded hs hy hu hbelow
  attained := h.step_attained hs hy
  entries := by simp [h.entries]
  values u := by
    constructor
    · rintro ⟨b, hb⟩
      rcases List.mem_append.mp hb with hb | hb
      · exact Walk.passed_mem rest hy (Or.inl ((h.values u).mp ⟨b, hb⟩))
      · exact Walk.passed_mem rest hy (Or.inr (Prod.mk.inj (List.mem_singleton.mp hb)).1)
    · intro hu
      rcases h.passed hs hy hu with ⟨hu, -⟩ | rfl
      · obtain ⟨b, hb⟩ := (h.values u).mpr hu
        exact ⟨b, List.mem_append_left _ hb⟩
      · exact ⟨_, List.mem_append_right _ (List.mem_singleton_self _)⟩
  noticed u := by
    constructor
    · intro hu
      rcases List.mem_append.mp hu with hu | hu
      · obtain ⟨hmem, hbelow, hnoticed⟩ := (h.noticed u).mp hu
        exact ⟨Walk.passed_mem rest hy (Or.inl hmem), hbelow.drop, hnoticed⟩
      · obtain ⟨rfl, htake⟩ := Prod.mk.inj (List.mem_singleton.mp hu)
        exact ⟨Walk.passed_mem rest hy (Or.inr rfl), (h.take_iff hs hy).mp (of_decide_eq_true htake.symm)⟩
    · rintro ⟨hu, hbelow, hnoticed⟩
      rcases h.passed hs hy hu with ⟨hu, hux⟩ | rfl
      · have hless := below_cons hux (h.head_le hs hy).2.2
        exact List.mem_append_left _ ((h.noticed u).mpr ⟨hu, hless, hnoticed⟩)
      · have htake := (h.take_iff hs hy).mpr ⟨hbelow, hnoticed⟩
        simp [htake]

theorem Walk.front (h : Walk s a w (x :: rest) noDups) (hy : w ++ [x] = y :: w') : s = a ++ y :: (w' ++ rest) := by
  have hsplit := h.split
  rw [List.append_cons, List.append_assoc a, hy] at hsplit
  simpa using hsplit

/-- One round of the walk. -/
theorem Walk.round (h : Walk s a w (x :: rest) noDups) (hy : w ++ [x] = y :: w') (free : Nat) :
    removeDuplicates (s ++ List.replicate free 0) s.length (a ++ w).length noDups =
      if rest.dropWhile (y = ·) = [] ∧ (free = 0 ∨ y = 0) then none
      else removeDuplicates (s ++ List.replicate free 0) s.length
        ((a ++ [y]) ++ (w' ++ rest.takeWhile (y = ·))).length
        (noDups ++ [(x, decide (rest.takeWhile (y = ·) ≠ []))]) := by
  have hfront := h.front hy
  have hk : (s ++ List.replicate free 0)[(a ++ w).length]? = some x := by
    rw [h.split]
    simp
  have hi : (s ++ List.replicate free 0)[noDups.length]? = some y := by
    rw [hfront, h.entries]
    simp
  have hdrop : (s ++ List.replicate free 0).drop ((a ++ w).length + 1) = rest ++ List.replicate free 0 := by
    rw [h.split, List.append_cons, List.append_assoc,
      show (a ++ w).length + 1 = (a ++ w ++ [x]).length by simp [Nat.add_assoc], List.drop_left]
  have hlt : (a ++ w).length < s.length := by
    rw [h.split]
    simp
  have hin : noDups.length < s.length := by
    rw [h.entries, hfront]
    simp
  rw [removeDuplicates, if_pos hlt, hk, hi]
  simp only [Option.bind_eq_bind, Option.bind_some, hdrop, hin, decide_true, skipEqual_padded]
  split
  · rfl
  · have hlength := Walk.length_eq hy
    simp only [Option.bind_some, List.length_append, List.length_singleton, hlength, ne_eq,
      List.length_eq_zero_iff]
    congr 1
    omega

end Step

/-! The walk over a whole table. -/

/-- The tables from which the walk runs off: full ones, and those with more zeros than other values. -/
def Overruns (s : List (BitVec 32)) (free : Nat) : Prop := free = 0 ∨ s.length < 2 * s.count 0

section Run

variable {s a w : List (BitVec 32)} {y : BitVec 32} {noDups : List (BitVec 32 × Bool)}

theorem Walk.mostly_zeros (h : Walk s a w [] noDups) (ha : a ≠ []) (hzero : ∀ u ∈ a, u = 0) : s.length < 2 * s.count 0 := by
  have hsplit : s = a ++ w := by simpa using h.split
  have hpos : 0 < a.length := List.length_pos_iff.mpr ha
  have hcount : a.count 0 = a.length := List.count_eq_length.mpr fun u hu => (hzero u hu).symm
  have hlength : s.length = a.length + w.length := by rw [hsplit, List.length_append]
  have hzeros : s.count 0 = a.length + w.count 0 := by rw [hsplit, List.count_append, hcount]
  rcases h.attained with rfl | ⟨u, -, -, hu⟩
  · simp only [List.length_nil] at hlength
    omega
  · by_cases h0 : u = 0
    · subst h0
      omega
    · have hnone : a.count u = 0 := List.count_eq_zero.mpr fun hmem => h0 (hzero u hmem)
      have hle := List.count_le_length (a := u) (l := w)
      rw [hsplit, List.count_append, hnone] at hu
      omega

theorem Walk.few_zeros (h : Walk s (a ++ [y]) w [] noDups) (hs : s.Pairwise (· ≤ ·)) (hy : y ≠ 0) :
    2 * s.count 0 ≤ s.length := by
  have hsplit : s = a ++ y :: w := by simpa using h.split
  have hw : w.count 0 = 0 := by
    refine List.count_eq_zero.mpr ?_
    intro hmem
    rw [hsplit] at hs
    have hle := (List.pairwise_cons.mp (List.pairwise_append.mp hs).2.1).1 0 hmem
    bv_omega
  have hcount : s.count 0 = a.count 0 := by
    rw [hsplit, List.count_append, List.count_cons_of_ne hy, hw, Nat.add_zero]
  have hlength : s.length = a.length + (w.length + 1) := by rw [hsplit, List.length_append, List.length_cons]
  have hle := List.count_le_length (a := 0) (l := a)
  by_cases hmem : (0 : BitVec 32) ∈ s
  · have hbound := h.bounded 0 (by simpa [hsplit] using hmem) (fun x hx => nomatch hx)
    omega
  · rw [List.count_eq_zero.mpr hmem]
    omega

/-- From any point on, the walk ends or runs off the array; the shape of the table decides which. -/
theorem removeDuplicates_walk (hs : s.Pairwise (· ≤ ·)) (free : Nat) {rest : List (BitVec 32)}
    (h : Walk s a w rest noDups) :
    removeDuplicates (s ++ List.replicate free 0) s.length (a ++ w).length noDups = none ∧ Overruns s free ∨
    ∃ r a' w', removeDuplicates (s ++ List.replicate free 0) s.length (a ++ w).length noDups = some r ∧
      Walk s a' w' [] r ∧ (rest = [] ∨ ¬Overruns s free) := by
  induction hn : rest.length using Nat.strong_induction_on generalizing a w rest noDups with
  | _ n ih =>
    cases rest with
    | nil =>
      right
      refine ⟨noDups, a, w, ?_, h, Or.inl rfl⟩
      rw [removeDuplicates, if_neg]
      rw [h.split, List.append_nil]
      exact Nat.lt_irrefl _
    | cons x rest =>
      obtain ⟨y, w', hy⟩ : ∃ y w', w ++ [x] = y :: w' := List.exists_cons_of_ne_nil (by simp)
      have hstep := h.step hs hy
      have hfront := h.front hy
      rw [h.round hy free]
      by_cases hend : rest.dropWhile (y = ·) = []
      · rw [hend] at hstep
        by_cases hoff : free = 0 ∨ y = 0
        · -- the loop has run into the zeros behind the table, or out of it
          left
          refine ⟨if_pos ⟨hend, hoff⟩, ?_⟩
          rcases hoff with hoff | hoff
          · exact Or.inl hoff
          · right
            refine hstep.mostly_zeros (by simp) ?_
            intro u hu
            rcases List.mem_append.mp hu with hu | hu
            · rw [hfront] at hs
              have hle := (List.pairwise_append.mp hs).2.2 u hu y List.mem_cons_self
              bv_omega
            · rw [List.mem_singleton.mp hu, hoff]
        · right
          rw [if_neg fun hboth => hoff hboth.2]
          have hlast : removeDuplicates (s ++ List.replicate free 0) s.length
              ((a ++ [y]) ++ (w' ++ rest.takeWhile (y = ·))).length
              (noDups ++ [(x, decide (rest.takeWhile (y = ·) ≠ []))]) =
              some (noDups ++ [(x, decide (rest.takeWhile (y = ·) ≠ []))]) := by
            rw [removeDuplicates, if_neg]
            rw [← List.append_nil ((a ++ [y]) ++ (w' ++ rest.takeWhile (y = ·))), ← hstep.split]
            exact Nat.lt_irrefl _
          have hfew := hstep.few_zeros hs fun h0 => hoff (Or.inr h0)
          refine ⟨_, _, _, hlast, hstep, Or.inr ?_⟩
          rintro (hfull | hmany)
          · exact hoff (Or.inl hfull)
          · omega
      · rw [if_neg fun hboth => hend hboth.1]
        have hshort : (rest.dropWhile (y = ·)).length < n := by
          have hle := (List.dropWhile_sublist (y = ·) (l := rest)).length_le
          simp only [List.length_cons] at hn
          omega
        rcases ih _ hshort hstep rfl with ⟨hnone, hover⟩ | ⟨r, a', w', hr, hwalk, hfree⟩
        · exact Or.inl ⟨hnone, hover⟩
        · exact Or.inr ⟨r, a', w', hr, hwalk, Or.inr (hfree.resolve_left hend)⟩

theorem walk_start (s : List (BitVec 32)) : Walk s [] [] s [] where
  split := rfl
  behind := by simp
  bounded := by simp
  attained := Or.inl rfl
  entries := rfl
  values := by simp
  noticed := by simp

end Run

/-- What the walk finds in a table in order. -/
theorem removeDuplicates_sorted {s : List (BitVec 32)} (hs : s.Pairwise (· ≤ ·)) (free : Nat)
    (hfree : s = [] → ¬Overruns s free) :
    removeDuplicates (s ++ List.replicate free 0) s.length 0 [] = none ∧ Overruns s free ∨
    ∃ r, removeDuplicates (s ++ List.replicate free 0) s.length 0 [] = some r ∧ ¬Overruns s free ∧
      (∀ u, (∃ b, (u, b) ∈ r) ↔ u ∈ s) ∧ ∀ u, (u, true) ∈ r ↔ u ∈ s ∧ Noticed s u := by
  rcases removeDuplicates_walk hs free (walk_start s) with hover | ⟨r, a, w, hr, h, hrest⟩
  · exact Or.inl hover
  · right
    have hsplit : a ++ w = s := by simpa using h.split.symm
    refine ⟨r, hr, hrest.elim hfree id, ?_, ?_⟩
    · intro u
      rw [h.values, hsplit]
    · intro u
      rw [h.noticed, hsplit]
      constructor
      · rintro ⟨hu, -, hnoticed⟩
        exact ⟨hu, hnoticed⟩
      · rintro ⟨hu, hnoticed⟩
        exact ⟨hu, fun x hx => absurd hx List.not_mem_nil, hnoticed⟩

/-! The answer. -/

/-- All bits of `value` are set in `um`. -/
def Contained (um value : BitVec 32) : Prop := value &&& um = value

instance (um : BitVec 32) : DecidablePred (Contained um) := fun value => inferInstanceAs (Decidable (value &&& um = value))

def unionOf (values : List (BitVec 32)) : BitVec 32 := values.foldr (· ||| ·) 0

theorem getLsbD_unionOf (values : List (BitVec 32)) (i : Nat) :
    (unionOf values).getLsbD i = values.any (·.getLsbD i) := by
  induction values with
  | nil => simp [unionOf]
  | cons v values ih =>
    rw [List.any_cons, ← ih, ← BitVec.getLsbD_or]
    rfl

/-- The union depends on which values there are, not on how often and in which order. -/
theorem unionOf_congr {l₁ l₂ : List (BitVec 32)} (h : ∀ v, v ∈ l₁ ↔ v ∈ l₂) : unionOf l₁ = unionOf l₂ := by
  apply BitVec.eq_of_getLsbD_eq
  intro i _
  rw [getLsbD_unionOf, getLsbD_unionOf, Bool.eq_iff_iff]
  simp only [List.any_eq_true, h]

section Verdict

variable {um : BitVec 32} {r : List (BitVec 32 × Bool)}

theorem maskedValue_ambiguous (m : BitVec 32) (h : ∃ v, (v, true) ∈ r ∧ Contained um v) :
    ∃ v, (maskedValue um r m).2 = some v := by
  obtain ⟨v, hv, hcontained⟩ := h
  induction r generalizing m with
  | nil => cases hv
  | cons e r ih =>
    obtain ⟨value, duped⟩ := e
    have hlater : ¬(Contained um value ∧ duped = true) → (v, true) ∈ r := by
      intro hnot
      rcases List.mem_cons.mp hv with heq | hv
      · obtain ⟨rfl, rfl⟩ := Prod.mk.inj heq
        exact absurd ⟨hcontained, rfl⟩ hnot
      · exact hv
    rw [maskedValue]
    split
    · rename_i hvalue
      split
      · exact ⟨value, rfl⟩
      · rename_i hduped
        exact ih _ (hlater fun hboth => hduped hboth.2)
    · rename_i hvalue
      exact ih _ (hlater fun hboth => hvalue hboth.1)

theorem maskedValue_union (m : BitVec 32) (h : ∀ v, (v, true) ∈ r → ¬Contained um v) :
    maskedValue um r m = (m ||| unionOf ((r.map Prod.fst).filter (Contained um ·)), none) := by
  induction r generalizing m with
  | nil => simp [maskedValue, unionOf]
  | cons e r ih =>
    obtain ⟨value, duped⟩ := e
    have hrest : ∀ v, (v, true) ∈ r → ¬Contained um v := fun v hv => h v (List.mem_cons_of_mem _ hv)
    rw [maskedValue, List.map_cons, List.filter_cons]
    by_cases hvalue : Contained um value
    · have hduped : duped = false := by
        cases duped with
        | false => rfl
        | true => exact absurd hvalue (h value List.mem_cons_self)
      have hand : value &&& um = value := hvalue
      rw [if_pos hand, if_pos (decide_eq_true hvalue), hduped, if_neg Bool.false_ne_true, ih _ hrest, BitVec.or_assoc]
      rfl
    · have hand : ¬value &&& um = value := hvalue
      rw [if_neg hand, if_neg (by simpa using hvalue), ih _ hrest]

/-- When the verdict is favourable. -/
theorem umVerdict_valid : (umVerdict r um).valid = true ↔
    um = 0 ∧ (∃ b, ((0 : BitVec 32), b) ∈ r) ∨
    um ≠ 0 ∧ unionOf ((r.map Prod.fst).filter (Contained um ·)) = um ∧ ∀ v, (v, true) ∈ r → ¬Contained um v := by
  have hany : r.any (·.1 = 0) = true ↔ ∃ b, ((0 : BitVec 32), b) ∈ r := by
    rw [List.any_eq_true]
    constructor
    · rintro ⟨⟨v, b⟩, hmem, hv⟩
      obtain rfl : v = 0 := of_decide_eq_true hv
      exact ⟨b, hmem⟩
    · rintro ⟨b, hmem⟩
      exact ⟨_, hmem, rfl⟩
  rw [umVerdict, ← hany]
  by_cases hzero : um = 0 ∧ r.any (·.1 = 0) = true
  · rw [if_pos hzero]
    exact iff_of_true rfl (Or.inl hzero)
  · rw [if_neg hzero]
    by_cases hdup : ∀ v, (v, true) ∈ r → ¬Contained um v
    · rw [maskedValue_union 0 hdup, show ∀ x : BitVec 32, 0 ||| x = x from fun x => BitVec.zero_or]
      simp only [decide_eq_true_eq]
      constructor
      · rintro ⟨hunion, hne⟩
        exact Or.inr ⟨hne, hunion, hdup⟩
      · rintro (h | ⟨hne, hunion, -⟩)
        · exact absurd h hzero
        · exact ⟨hunion, hne⟩
    · have hexists : ∃ v, (v, true) ∈ r ∧ Contained um v := by
        by_contra hnone
        exact hdup fun v hv hcontained => hnone ⟨v, hv, hcontained⟩
      obtain ⟨v, hv⟩ := maskedValue_ambiguous 0 hexists
      rcases hmasked : maskedValue um r 0 with ⟨masked, dup⟩
      rw [hmasked] at hv
      obtain rfl : dup = some v := hv
      refine iff_of_false Bool.false_ne_true ?_
      rintro (h | ⟨-, -, h⟩)
      · exact hzero h
      · exact hdup h

end Verdict

/-! What a unit mask has to be, and the tables for which that is checked. -/

/-- A mask is made of values of the table, each of which stands there once. -/
def Composed (unit : OpUnitMask) (um : BitVec 32) : Prop :=
  um = 0 ∧ 0 ∈ unit.um ∨
  um ≠ 0 ∧ unionOf (unit.um.filter (Contained um ·)) = um ∧ ∀ v ∈ unit.um, Contained um v → unit.um.count v = 1

/-- The check stays inside the table and accepts what is composed of its values. -/
def ChecksMask (unit : OpUnitMask) (um : BitVec 32) : Prop :=
  ∃ verdict, isUmValidBitmask unit um = some verdict ∧ (verdict.valid = true ↔ Composed unit um)

/-- A mask whose repeated values all go unnoticed. -/
def Overlooked (unit : OpUnitMask) (um : BitVec 32) : Prop :=
  um ≠ 0 ∧ unionOf (unit.um.filter (Contained um ·)) = um ∧
    (∃ v ∈ unit.um, Contained um v ∧ unit.um.count v ≠ 1) ∧
    ∀ v ∈ unit.um, Contained um v → ¬Noticed unit.um v


theorem isUmValidBitmask_none_or (unit : OpUnitMask) (um : BitVec 32) :
    isUmValidBitmask unit um = none ∧ Overruns unit.um (maxUnitMask - unit.num) ∨
    ∃ verdict, isUmValidBitmask unit um = some verdict ∧ ¬Overruns unit.um (maxUnitMask - unit.num) ∧
      (verdict.valid = true ↔ um = 0 ∧ 0 ∈ unit.um ∨
        um ≠ 0 ∧ unionOf (unit.um.filter (Contained um ·)) = um ∧ ∀ v ∈ unit.um, Noticed unit.um v → ¬Contained um v) := by
  obtain ⟨s, hsort, hperm, hs⟩ := sortValues_spec unit.um (List.replicate (maxUnitMask - unit.num) 0)
  have hcount : ∀ v, s.count v = unit.um.count v := hperm.count_eq
  have hlength : s.length = unit.num := hperm.length_eq
  have hover : Overruns s (maxUnitMask - unit.num) ↔ Overruns unit.um (maxUnitMask - unit.num) := by
    rw [Overruns, Overruns, hcount, hperm.length_eq]
  have hnoticed : ∀ v, Noticed s v ↔ Noticed unit.um v := by
    intro v
    simp only [Noticed, hcount, hperm.mem_iff]
  have hfree : s = [] → ¬Overruns s (maxUnitMask - unit.num) := by
    rintro rfl
    rw [← hlength]
    simp [Overruns, maxUnitMask]
  have hrun : isUmValidBitmask unit um = (removeDuplicates
      (s ++ List.replicate (maxUnitMask - unit.num) 0) s.length 0 []).map (umVerdict · um) := by
    change (removeDuplicates (sortValues unit.um.length (unit.um ++ List.replicate (maxUnitMask - unit.num) 0))
      unit.um.length 0 []).map (umVerdict · um) = _
    rw [hsort, hperm.length_eq]
  rw [hrun]
  rcases removeDuplicates_sorted hs (maxUnitMask - unit.num) hfree with ⟨hr, h⟩ | ⟨r, hr, h, hvalues, htrue⟩
  · exact Or.inl ⟨by rw [hr]; rfl, hover.mp h⟩
  · right
    refine ⟨umVerdict r um, by rw [hr]; rfl, fun hbad => h (hover.mpr hbad), ?_⟩
    have hmem : ∀ v, v ∈ r.map Prod.fst ↔ v ∈ unit.um := by
      intro v
      rw [← hperm.mem_iff, ← hvalues v]
      simp
    have hunion : unionOf ((r.map Prod.fst).filter (Contained um ·)) = unionOf (unit.um.filter (Contained um ·)) := by
      apply unionOf_congr
      intro v
      rw [List.mem_filter, List.mem_filter, hmem]
    rw [umVerdict_valid, hvalues, hunion, hperm.mem_iff]
    simp only [htrue, hperm.mem_iff, hnoticed, and_imp]

/-- The check is right for exactly these tables and masks. -/
theorem isUmValidBitmask_iff (unit : OpUnitMask) (um : BitVec 32) : ChecksMask unit um ↔
    unit.num < maxUnitMask ∧ 2 * unit.um.count 0 ≤ unit.num ∧ ¬Overlooked unit um := by
  have hfree : ¬Overruns unit.um (maxUnitMask - unit.num) ↔ unit.num < maxUnitMask ∧ 2 * unit.um.count 0 ≤ unit.num := by
    have hle := unit.num_le
    simp only [Overruns, OpUnitMask.num] at hle ⊢
    omega
  have honce : ∀ v ∈ unit.um, Noticed unit.um v → unit.um.count v ≠ 1 := by
    intro v _ hv
    exact Nat.ne_of_gt hv.1
  rw [← and_assoc, ← hfree, ChecksMask]
  rcases isUmValidBitmask_none_or unit um with ⟨hnone, hover⟩ | ⟨verdict, hsome, hover, hvalid⟩
  · rw [hnone]
    refine iff_of_false ?_ fun h => h.1 hover
    rintro ⟨verdict, h, -⟩
    cases h
  · have hmeets : (∃ v, isUmValidBitmask unit um = some v ∧ (v.valid = true ↔ Composed unit um)) ↔
        (verdict.valid = true ↔ Composed unit um) := by
      rw [hsome]
      constructor
      · rintro ⟨v, heq, hv⟩
        cases heq
        exact hv
      · exact fun hv => ⟨verdict, rfl, hv⟩
    rw [hmeets, and_iff_right hover, hvalid, Composed, Overlooked]
    constructor
    · rintro hiff ⟨hne, hunion, ⟨v, hv, hcontained, hrepeated⟩, hunseen⟩
      rcases hiff.mp (Or.inr ⟨hne, hunion, fun v hv hnoticed hcontained => hunseen v hv hcontained hnoticed⟩) with h | h
      · exact hne h.1
      · exact hrepeated (h.2.2 v hv hcontained)
    · intro hseen
      refine or_congr_right (and_congr_right fun hne => and_congr_right fun hunion => ?_)
      constructor
      · intro hunseen v hv hcontained
        by_contra hrepeated
        exact hseen ⟨hne, hunion, ⟨v, hv, hcontained, hrepeated⟩, fun u hu hcu hnu => hunseen u hu hnu hcu⟩
      · intro hsingle v hv hnoticed hcontained
        exact honce v hv hnoticed (hsingle v hv hcontained)

/-- A table with two values that both stand there twice. -/
def twoPairs : OpUnitMask where
  unitTypeMask := .bitmask
  um := [1, 1, 2, 2]
  num_le := by decide

/-- The second of two repeated values is taken although it is ambiguous. -/
theorem second_pair_accepted : ¬ChecksMask twoPairs 2 := by
  rintro ⟨verdict, hsome, hvalid⟩
  have haccepted : isUmValidBitmask twoPairs 2 = some ⟨true, none⟩ := by decide +kernel
  have hambiguous : ¬Composed twoPairs 2 := by
    rintro (⟨h0, -⟩ | ⟨-, -, hsingle⟩)
    · exact absurd h0 (by decide)
    · exact absurd (hsingle 2 (by decide) rfl) (by decide)
  obtain rfl : verdict = ⟨true, none⟩ := Option.some.inj (hsome.symm.trans haccepted)
  exact hambiguous (hvalid.mp rfl)

end Oprofile.Libop.UnitMasks
