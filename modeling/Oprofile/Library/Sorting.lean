import Mathlib.Data.List.Sort
import Mathlib.Data.List.TakeWhile

/-! What a sorting function of a C library promises, and lists in order. -/
namespace Sorting

/-- The same elements in order, equal ones in any order. -/
structure QSort {A : Type} (le : A → A → Prop) where
  sort : List A → List A
  perm : ∀ l, (sort l).Perm l
  sorted : ∀ l, (sort l).Pairwise le

/-- An insertion sort keeps the promise. -/
def insertion {A : Type} (le : A → A → Prop) [DecidableRel le] (total : ∀ a b, le a b ∨ le b a)
    (trans : ∀ a b c, le a b → le b c → le a c) : QSort le where
  sort := List.insertionSort le
  perm := List.perm_insertionSort le
  sorted l := by
    have htotal : Std.Total le := ⟨total⟩
    have htrans : IsTrans A le := ⟨trans⟩
    exact List.pairwise_insertionSort le l

/-! A list in an order that a predicate follows: what stands before its first failure has the predicate. -/

theorem takeWhile_eq_filter {A : Type} {p : A → Bool} {l : List A}
    (h : l.Pairwise fun a b => p b = true → p a = true) : l.takeWhile p = l.filter p := by
  induction l with
  | nil => rfl
  | cons a l ih =>
    obtain ⟨hfirst, hrest⟩ := List.pairwise_cons.mp h
    by_cases ha : p a = true
    · rw [List.takeWhile_cons_of_pos ha, List.filter_cons_of_pos ha, ih hrest]
    · rw [List.takeWhile_cons_of_neg ha, List.filter_cons_of_neg ha]
      refine (List.filter_eq_nil_iff.mpr ?_).symm
      intro x hx hp
      exact ha (hfirst x hx hp)

theorem dropWhile_eq_filter {A : Type} {p : A → Bool} {l : List A}
    (h : l.Pairwise fun a b => p b = true → p a = true) : l.dropWhile p = l.filter fun x => ¬p x = true := by
  induction l with
  | nil => rfl
  | cons a l ih =>
    obtain ⟨hfirst, hrest⟩ := List.pairwise_cons.mp h
    by_cases ha : p a = true
    · rw [List.dropWhile_cons_of_pos ha, List.filter_cons_of_neg (by simpa using ha), ih hrest]
    · rw [List.dropWhile_cons_of_neg ha, List.filter_cons_of_pos (by simpa using ha)]
      congr 1
      refine (List.filter_eq_self.mpr ?_).symm
      intro x hx
      exact decide_eq_true fun hp => ha (hfirst x hx hp)

theorem mem_takeWhile_iff {A : Type} {p : A → Bool} {l : List A} {x : A}
    (h : l.Pairwise fun a b => p b = true → p a = true) : x ∈ l.takeWhile p ↔ x ∈ l ∧ p x = true := by
  rw [takeWhile_eq_filter h, List.mem_filter]

theorem mem_dropWhile_iff {A : Type} {p : A → Bool} {l : List A} {x : A}
    (h : l.Pairwise fun a b => p b = true → p a = true) : x ∈ l.dropWhile p ↔ x ∈ l ∧ ¬p x = true := by
  rw [dropWhile_eq_filter h, List.mem_filter, decide_eq_true_eq]

/-- The last element that has the predicate. -/
theorem getLast?_filter_of_last {A : Type} {p : A → Bool} {l : List A} {k : Nat} {x : A} (hk : l[k]? = some x)
    (hx : p x = true) (hrest : ∀ j y, k < j → l[j]? = some y → p y = false) : (l.filter p).getLast? = some x := by
  obtain ⟨hlt, rfl⟩ := List.getElem?_eq_some_iff.mp hk
  have hdrop : (l.drop (k + 1)).filter p = [] := by
    refine List.filter_eq_nil_iff.mpr fun y hy => ?_
    obtain ⟨j, hj⟩ := List.mem_iff_getElem?.mp hy
    rw [List.getElem?_drop] at hj
    rw [hrest (k + 1 + j) y (by omega) hj]
    exact Bool.false_ne_true
  calc (l.filter p).getLast? = ((l.take k ++ l[k] :: l.drop (k + 1)).filter p).getLast? := by
        rw [← List.drop_eq_getElem_cons hlt, List.take_append_drop]
    _ = some l[k] := by
        rw [List.filter_append, List.filter_cons_of_pos hx, hdrop, List.getLast?_append, List.getLast?_singleton,
          Option.some_or]

end Sorting
