import Mathlib.Algebra.BigOperators.Group.List.Basic
import Mathlib.Algebra.Order.BigOperators.Group.List
import Mathlib.Data.Nat.ModEq

/-! Half-open ranges of numbers, and what is counted in several of them. -/
namespace Ranges

/-- A number of the range from `lo` to before `hi`. -/
def Has (lo hi x : Nat) : Prop := lo ≤ x ∧ x < hi

instance (lo hi x : Nat) : Decidable (Has lo hi x) := inferInstanceAs (Decidable (_ ∧ _))

/-- Two ranges in order have a number in common when the second starts in the first and is not empty. -/
theorem exists_common_iff {lo hi lo' hi' : Nat} (h : lo ≤ lo') :
    (∃ x, Has lo hi x ∧ Has lo' hi' x) ↔ lo' < hi ∧ lo' < hi' := by
  constructor
  · rintro ⟨x, ⟨-, hx⟩, hx', hx''⟩
    exact ⟨Nat.lt_of_le_of_lt hx' hx, Nat.lt_of_le_of_lt hx' hx''⟩
  · rintro ⟨hlt, hlt'⟩
    exact ⟨lo', ⟨h, hlt⟩, Nat.le_refl _, hlt'⟩

/-- Ranges whose ends may go round: shifted by one distance, modulo `m`, they stay apart. -/
theorem shift_apart {m lo hi lo' hi' d x : Nat} (hhi : hi ≤ m) (hhi' : hi' ≤ m)
    (h : ∀ y, ¬(Has lo hi y ∧ Has lo' hi' y)) (hx : Has ((lo + d) % m) ((lo + d) % m + (hi - lo)) x)
    (hx' : Has ((lo' + d) % m) ((lo' + d) % m + (hi' - lo')) x) : False := by
  obtain ⟨t, rfl⟩ := Nat.exists_eq_add_of_le hx.1
  obtain ⟨u, hu⟩ := Nat.exists_eq_add_of_le hx'.1
  have ht := hx.2
  have hu' := hx'.2
  have hmod : (lo + t + d) % m = (lo' + u + d) % m := by
    have h1 : (lo + t + d) % m = ((lo + d) % m + t) % m := by
      rw [Nat.mod_add_mod]
      congr 1
      omega
    have h2 : (lo' + u + d) % m = ((lo' + d) % m + u) % m := by
      rw [Nat.mod_add_mod]
      congr 1
      omega
    rw [h1, h2, hu]
  have hcancel : (lo + t) % m = (lo' + u) % m := Nat.ModEq.add_right_cancel' d hmod
  rw [Nat.mod_eq_of_lt (by omega), Nat.mod_eq_of_lt (by omega)] at hcancel
  exact h (lo + t) ⟨⟨by omega, by omega⟩, by omega, by omega⟩

variable {A : Type*} {l : List A} {f : A → Nat}

theorem pairwise_iff {R : A → A → Prop} :
    l.Pairwise R ↔ ∀ (i j : Nat) (a b : A), i < j → l[i]? = some a → l[j]? = some b → R a b := by
  rw [List.pairwise_iff_getElem]
  constructor
  · intro h i j a b hlt hi hj
    obtain ⟨hilt, rfl⟩ := List.getElem?_eq_some_iff.mp hi
    obtain ⟨hjlt, rfl⟩ := List.getElem?_eq_some_iff.mp hj
    exact h i j hilt hjlt hlt
  · intro h i j hi hj hlt
    exact h i j _ _ hlt (List.getElem?_eq_getElem hi) (List.getElem?_eq_getElem hj)

/-- Where a symmetric relation holds of no two entries at different places, two entries it does not hold
of are at one place. -/
theorem place_eq_of_pairwise {R : A → A → Prop} (hsymm : ∀ {a b}, R a b → R b a) (h : l.Pairwise R)
    {i j : Nat} {a b : A} (hi : l[i]? = some a) (hj : l[j]? = some b) (hnot : ¬R a b) : i = j := by
  rcases Nat.lt_trichotomy i j with hlt | heq | hgt
  · exact absurd (pairwise_iff.mp h i j a b hlt hi hj) hnot
  · exact heq
  · exact absurd (hsymm (pairwise_iff.mp h j i b a hgt hj hi)) hnot

/-- So where the entries' keys differ, one key has one place. -/
theorem place_eq_of_nodup_map {B : Type*} {key : A → B} (h : (l.map key).Nodup) {i j : Nat} {a b : A}
    (hi : l[i]? = some a) (hj : l[j]? = some b) (heq : key a = key b) : i = j :=
  place_eq_of_pairwise (R := fun a b => key a ≠ key b) Ne.symm (List.pairwise_map.mp h) hi hj (not_not.mpr heq)

/-- What satisfies less adds up to less. -/
theorem sum_filter_le_of_imp {p q : A → Bool} (h : ∀ a ∈ l, p a = true → q a = true) :
    ((l.filter p).map f).sum ≤ ((l.filter q).map f).sum := by
  induction l with
  | nil => exact Nat.le_refl _
  | cons a l ih =>
    have ih' := ih fun b hb => h b (List.mem_cons_of_mem _ hb)
    by_cases hp : p a = true
    · rw [List.filter_cons_of_pos hp, List.filter_cons_of_pos (h a List.mem_cons_self hp)]
      simpa only [List.map_cons, List.sum_cons] using Nat.add_le_add_left ih' (f a)
    · rw [List.filter_cons_of_neg hp]
      refine Nat.le_trans ih' ?_
      by_cases hq : q a = true
      · rw [List.filter_cons_of_pos hq, List.map_cons, List.sum_cons]
        exact Nat.le_add_left _ _
      · rw [List.filter_cons_of_neg hq]

/-- What is counted for at most one of several conditions adds up to at most the whole. -/
theorem sum_filters_le (ps : List (A → Bool))
    (h : ps.Pairwise fun p q => ∀ a ∈ l, ¬(p a = true ∧ q a = true)) :
    (ps.map fun p => ((l.filter p).map f).sum).sum ≤ (l.map f).sum := by
  induction ps generalizing l with
  | nil => exact Nat.zero_le _
  | cons p ps ih =>
    obtain ⟨hp, hps⟩ := List.pairwise_cons.mp h
    have hrest := ih (l := l.filter fun a => !p a)
      (hps.imp fun hq a ha => hq a (List.mem_of_mem_filter ha))
    have hsame : (ps.map fun q => ((l.filter q).map f).sum) =
        ps.map fun q => (((l.filter fun a => !p a).filter q).map f).sum := by
      refine List.map_congr_left fun q hq => ?_
      rw [List.filter_filter]
      congr 2
      refine List.filter_congr fun a ha => ?_
      cases hpa : p a with
      | false => simp
      | true =>
        have hqa : q a = false := by
          by_contra hqa
          exact hp q hq a ha ⟨hpa, by simpa using hqa⟩
        simp [hqa]
    have hsplit : ((l.filter p).map f).sum + ((l.filter fun a => !p a).map f).sum = (l.map f).sum := by
      clear hrest hsame hp hps h ih
      induction l with
      | nil => rfl
      | cons a l ih =>
        cases hpa : p a with
        | true => simp [hpa, ← ih, Nat.add_assoc]
        | false => simp [hpa, ← ih, Nat.add_left_comm]
    rw [List.map_cons, List.sum_cons, hsame, ← hsplit]
    exact Nat.add_le_add_left hrest _

end Ranges
