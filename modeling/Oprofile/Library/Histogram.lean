import Mathlib.Algebra.BigOperators.Group.List.Basic
import Mathlib.Algebra.Order.BigOperators.Group.List
import Mathlib.Data.List.Induction
import Mathlib.Data.List.Perm.Basic
import Mathlib.Tactic.Linarith

/-! Counts in bins that are capped, in a number type that may go round. -/
namespace Histogram

/-- A count added to a capped bin; the sum is taken modulo `m`. -/
def capAdd (cap m h c : Nat) : Nat := if cap < (h + c) % m then cap else (h + c) % m

/-- What a bin shows after its counts. -/
def shown (cap m : Nat) (cs : List Nat) : Nat := cs.foldl (capAdd cap m) 0

/-- No count takes the bin round. -/
def Unwrapped (cap m : Nat) (cs : List Nat) : Prop :=
  ∀ before c after, cs = before ++ c :: after → min cap before.sum + c < m

/-- The counts that a bin shows correctly: none takes it round, or the first that does leaves a rest which the
counts after it fill up to the cap again, and are shown correctly with. -/
inductive Recovers (cap m : Nat) : List Nat → Prop
  | unwrapped {cs : List Nat} : Unwrapped cap m cs → Recovers cap m cs
  | refilled {before after : List Nat} {c : Nat} (hbefore : Unwrapped cap m before)
      (hwraps : m ≤ min cap before.sum + c) (hrefill : cap ≤ min cap before.sum + c - m + after.sum) :
      Recovers cap m ((min cap before.sum + c - m) :: after) → Recovers cap m (before ++ c :: after)

variable {cap m c h : Nat} {cs before after : List Nat}

theorem Unwrapped.left (h : Unwrapped cap m (before ++ after)) : Unwrapped cap m before := by
  intro b c a heq
  refine h b c (a ++ after) ?_
  rw [heq, List.append_assoc, List.cons_append]

theorem shown_append (before after : List Nat) :
    shown cap m (before ++ after) = after.foldl (capAdd cap m) (shown cap m before) := List.foldl_append

/-- Without going round a bin shows its sum, up to the cap. -/
theorem shown_unwrapped (h : Unwrapped cap m cs) : shown cap m cs = min cap cs.sum := by
  induction cs using List.reverseRecOn with
  | nil => exact (Nat.min_zero cap).symm
  | append_singleton cs c ih =>
    have hlast := h cs c [] rfl
    rw [shown_append, ih h.left, List.foldl_cons, List.foldl_nil, capAdd, Nat.mod_eq_of_lt hlast, List.sum_append,
      List.sum_singleton]
    split_ifs <;> omega

theorem capAdd_le (cap m h c : Nat) : capAdd cap m h c ≤ h + c := by
  rw [capAdd]
  have hmod := Nat.mod_le (h + c) m
  split_ifs <;> omega

/-- A bin never shows more than its sum. -/
theorem foldl_le (cap m : Nat) (cs : List Nat) (h : Nat) : cs.foldl (capAdd cap m) h ≤ h + cs.sum := by
  induction cs generalizing h with
  | nil => exact Nat.le_refl _
  | cons c cs ih =>
    have hstep := capAdd_le cap m h c
    have hrest := ih (capAdd cap m h c)
    rw [List.foldl_cons, List.sum_cons]
    omega

theorem shown_le (cap m : Nat) (cs : List Nat) : shown cap m cs ≤ cs.sum := by
  have h := foldl_le cap m cs 0
  rwa [Nat.zero_add] at h

/-- The first count that takes a bin round, if there is one. -/
theorem unwrapped_or (cap m : Nat) (cs : List Nat) : Unwrapped cap m cs ∨
    ∃ before c after, cs = before ++ c :: after ∧ Unwrapped cap m before ∧ m ≤ min cap before.sum + c := by
  induction cs using List.reverseRecOn with
  | nil =>
    refine Or.inl fun b c a heq => ?_
    cases b <;> cases heq
  | append_singleton cs c ih =>
    rcases ih with h | ⟨before, x, after, rfl, hbefore, hwraps⟩
    · by_cases hlast : min cap cs.sum + c < m
      · refine Or.inl fun b x a heq => ?_
        rcases List.eq_nil_or_concat' a with rfl | ⟨a, y, rfl⟩
        · obtain ⟨rfl, hx⟩ := List.append_inj' heq rfl
          obtain rfl := List.singleton_inj.mp hx
          exact hlast
        · rw [← List.cons_append, ← List.append_assoc] at heq
          exact h b x a (List.append_inj' heq rfl).1
      · exact Or.inr ⟨cs, c, [], rfl, h, Nat.not_lt.mp hlast⟩
    · exact Or.inr ⟨before, x, after ++ [c], by rw [List.append_assoc, List.cons_append], hbefore, hwraps⟩

/-- After the first count that takes it round, a bin goes on from the rest. -/
theorem shown_wrapped (hcap : cap < m) (hc : c < m) (hbefore : Unwrapped cap m before)
    (hwraps : m ≤ min cap before.sum + c) :
    shown cap m (before ++ c :: after) = shown cap m ((min cap before.sum + c - m) :: after) := by
  have hrest : min cap before.sum + c - m < cap + 1 := by omega
  have hmod : (min cap before.sum + c) % m = min cap before.sum + c - m := by
    rw [Nat.mod_eq_sub_mod hwraps]
    exact Nat.mod_eq_of_lt (by omega)
  rw [shown_append, List.foldl_cons, shown_unwrapped hbefore, capAdd, hmod, if_neg (by omega), shown,
    List.foldl_cons, capAdd, Nat.zero_add, Nat.mod_eq_of_lt (by omega), if_neg (by omega)]

/-- What goes round passes the cap. -/
theorem cap_le_sum (hcap : cap < m) (hwraps : m ≤ min cap before.sum + c) : cap ≤ (before ++ c :: after).sum := by
  rw [List.sum_append, List.sum_cons]
  omega

/-- A bin shows the smaller of the cap and its sum exactly when its counts recover. -/
theorem shown_eq_iff (hcap : cap < m) (hcs : ∀ c ∈ cs, c < m) :
    shown cap m cs = min cap cs.sum ↔ Recovers cap m cs := by
  constructor
  · induction hn : cs.length using Nat.strong_induction_on generalizing cs with
    | _ n ih =>
      intro hshown
      rcases unwrapped_or cap m cs with h | ⟨before, c, after, rfl, hbefore, hwraps⟩
      · exact .unwrapped h
      · have hc : c < m := hcs c (List.mem_append_right _ List.mem_cons_self)
        have hne : before ≠ [] := by
          rintro rfl
          rw [List.sum_nil, Nat.min_zero] at hwraps
          omega
        have hpos := List.length_pos_iff.mpr hne
        rw [shown_wrapped hcap hc hbefore hwraps, Nat.min_eq_left (cap_le_sum hcap hwraps)] at hshown
        have hle := shown_le cap m ((min cap before.sum + c - m) :: after)
        rw [hshown, List.sum_cons] at hle
        refine .refilled hbefore hwraps hle (ih _ ?_ ?_ rfl ?_)
        · rw [← hn, List.length_append, List.length_cons, List.length_cons]
          omega
        · intro x hx
          rcases List.mem_cons.mp hx with rfl | hx
          · omega
          · exact hcs x (List.mem_append_right _ (List.mem_cons_of_mem _ hx))
        · rw [hshown, List.sum_cons, Nat.min_eq_left hle]
  · intro h
    induction h with
    | unwrapped h => exact shown_unwrapped h
    | @refilled before after c hbefore hwraps hrefill _ ih =>
      have hc : c < m := hcs c (List.mem_append_right _ List.mem_cons_self)
      have hrest : ∀ x ∈ (min cap before.sum + c - m) :: after, x < m := by
        intro x hx
        rcases List.mem_cons.mp hx with rfl | hx
        · omega
        · exact hcs x (List.mem_append_right _ (List.mem_cons_of_mem _ hx))
      rw [shown_wrapped hcap hc hbefore hwraps, ih hrest, List.sum_cons, Nat.min_eq_left hrefill,
        Nat.min_eq_left (cap_le_sum hcap hwraps)]

section

variable {A V : Type} {l : List A} {p : A → Nat} {g : A → V → V}

/-- Each element of an array that a loop changes is changed by its own rounds. -/
theorem getElem?_foldl_modify (l : List A) (p : A → Nat) (g : A → V → V) (hist : List V) (i : Nat) :
    (l.foldl (fun hist a => hist.modify (p a) (g a)) hist)[i]? =
      hist[i]?.map fun v => (l.filter fun a => p a = i).foldl (fun v a => g a v) v := by
  induction l generalizing hist with
  | nil => simp
  | cons a l ih =>
    rw [List.foldl_cons, ih, List.getElem?_modify]
    by_cases h : p a = i
    · have hfilter : ((a :: l).filter fun a => p a = i) = a :: l.filter fun a => p a = i :=
        List.filter_cons_of_pos (decide_eq_true h)
      simp only [hfilter, h, if_true, Option.map_eq_map, Option.map_map]
      rfl
    · have hfilter : ((a :: l).filter fun a => p a = i) = l.filter fun a => p a = i :=
        List.filter_cons_of_neg (by simpa using h)
      simp only [hfilter, h, if_false, Option.map_eq_map, Option.map_id']

theorem length_foldl_modify (l : List A) (p : A → Nat) (g : A → V → V) (hist : List V) :
    (l.foldl (fun hist a => hist.modify (p a) (g a)) hist).length = hist.length := by
  induction l generalizing hist with
  | nil => rfl
  | cons a l ih => rw [List.foldl_cons, ih, List.length_modify]

/-- Elements taken key by key are all elements. -/
theorem flatMap_filter_perm {K : Type} [DecidableEq K] (key : A → K) {ks : List K} (hks : ks.Nodup) (l : List A)
    (h : ∀ a ∈ l, key a ∈ ks) : (ks.flatMap fun k => l.filter fun a => key a = k).Perm l := by
  induction ks generalizing l with
  | nil =>
    have hnil : l = [] := List.eq_nil_iff_forall_not_mem.mpr fun a ha => List.not_mem_nil (h a ha)
    rw [hnil]
    exact List.Perm.refl _
  | cons k ks ih =>
    obtain ⟨hk, hks⟩ := List.nodup_cons.mp hks
    have hother : (ks.flatMap fun k' => l.filter fun a => key a = k') =
        ks.flatMap fun k' => (l.filter fun a => ¬key a = k).filter fun a => key a = k' := by
      refine List.flatMap_congr fun k' hk' => ?_
      rw [List.filter_filter]
      refine List.filter_congr fun a _ => ?_
      by_cases ha : key a = k'
      · have hne : ¬key a = k := fun heq => hk (heq ▸ ha ▸ hk')
        simp [ha, ha ▸ hne]
      · simp [ha]
    rw [List.flatMap_cons, hother]
    have hsplit : ((l.filter fun a => key a = k) ++ l.filter fun a => ¬key a = k).Perm l := by
      simp only [decide_not]
      exact List.filter_append_perm _ l
    refine (List.Perm.append_left _ (ih hks _ fun a ha => ?_)).trans hsplit
    obtain ⟨ha, hne⟩ := List.mem_filter.mp ha
    rcases List.mem_cons.mp (h a ha) with heq | hin
    · exact absurd heq (of_decide_eq_true hne)
    · exact hin

end

end Histogram
