import Mathlib.Tactic.Common

/-! Merging two lists that are sorted by more than the key they are merged by. -/
namespace Joins

variable {A K : Type}

/-- An element of one list alone, or one of each. -/
inductive Joined (A : Type)
  | left (a : A)
  | right (b : A)
  | both (a b : A)

namespace Joined

/-- What it has of the first list, and of the second. -/
def fst? : Joined A → Option A
  | left a => some a
  | right _ => none
  | both a _ => some a

def snd? : Joined A → Option A
  | left _ => none
  | right b => some b
  | both _ b => some b

/-- The key, that of the second list for a pair. -/
def key (key : A → K) : Joined A → K
  | left a => key a
  | right b => key b
  | both _ b => key b

end Joined

open Joins.Joined

/-- The smaller head goes alone, equal heads go together. -/
def join (less : A → A → Bool) : List A → List A → List (Joined A)
  | [], bs => bs.map right
  | as, [] => as.map left
  | a :: as, b :: bs =>
    if less a b then left a :: join less as (b :: bs)
    else if less b a then right b :: join less (a :: as) bs
    else both a b :: join less as bs
termination_by as bs => as.length + bs.length

/-- A strict order of the keys. -/
structure Orders (less : A → A → Bool) (key : A → K) : Prop where
  irrefl : ∀ a b, key a = key b → less a b = false
  same : ∀ a b, less a b = false → less b a = false → key a = key b
  trans : ∀ a b c, less a b = true → less c b = false → less a c = true

/-- No element is greater than one behind it. -/
def InOrder (less : A → A → Bool) (l : List A) : Prop := l.Pairwise fun a b => less b a = false

section

variable {less : A → A → Bool} {key : A → K} {as bs : List A}

theorem join_nil_right : join less as [] = as.map left := by
  cases as with
  | nil => rw [join, List.map_nil, List.map_nil]
  | cons a as => rw [join]; exact List.cons_ne_nil a as

/-- Every element of the first list is in the result once, in order. -/
theorem join_fst (as bs : List A) : (join less as bs).filterMap fst? = as := by
  induction as, bs using join.induct less with
  | case1 bs => simp [join, fst?, List.filterMap_map, Function.comp_def]
  | case2 as has => simp [join_nil_right, fst?, List.filterMap_map, Function.comp_def]
  | case3 a as b bs hlt ih => rw [join, if_pos hlt, List.filterMap_cons, ih]; rfl
  | case4 a as b bs hlt hgt ih => rw [join, if_neg hlt, if_pos hgt, List.filterMap_cons, ih]; rfl
  | case5 a as b bs hlt hgt ih => rw [join, if_neg hlt, if_neg hgt, List.filterMap_cons, ih]; rfl

theorem join_snd (as bs : List A) : (join less as bs).filterMap snd? = bs := by
  induction as, bs using join.induct less with
  | case1 bs => simp [join, snd?, List.filterMap_map, Function.comp_def]
  | case2 as has => simp [join_nil_right, snd?, List.filterMap_map, Function.comp_def]
  | case3 a as b bs hlt ih => rw [join, if_pos hlt, List.filterMap_cons, ih]; rfl
  | case4 a as b bs hlt hgt ih => rw [join, if_neg hlt, if_pos hgt, List.filterMap_cons, ih]; rfl
  | case5 a as b bs hlt hgt ih => rw [join, if_neg hlt, if_neg hgt, List.filterMap_cons, ih]; rfl

/-- Pairs have one key. -/
theorem key_both (h : Orders less key) {a b : A} (hmem : both a b ∈ join less as bs) : key a = key b := by
  induction as, bs using join.induct less with
  | case1 bs => simp [join] at hmem
  | case2 as has => simp [join_nil_right] at hmem
  | case3 a' as b' bs hlt ih =>
    rw [join, if_pos hlt] at hmem
    rcases List.mem_cons.mp hmem with heq | hmem
    · cases heq
    · exact ih hmem
  | case4 a' as b' bs hlt hgt ih =>
    rw [join, if_neg hlt, if_pos hgt] at hmem
    rcases List.mem_cons.mp hmem with heq | hmem
    · cases heq
    · exact ih hmem
  | case5 a' as b' bs hlt hgt ih =>
    rw [join, if_neg hlt, if_neg hgt] at hmem
    rcases List.mem_cons.mp hmem with heq | hmem
    · cases heq
      exact h.same a b (by simpa using hlt) (by simpa using hgt)
    · exact ih hmem

variable [DecidableEq K]

/-- A key smaller than the head of a list in order is not in it. -/
theorem filter_of_less (h : Orders less key) {a b : A} (hlt : less a b = true) (hb : InOrder less (b :: bs)) :
    (b :: bs).filter (fun x => key x = key a) = [] := by
  refine List.filter_eq_nil_iff.mpr ?_
  intro x hx hkey
  have hxa : less a x = false := h.irrefl a x (of_decide_eq_true hkey).symm
  have hle : less x b = false := by
    rcases List.mem_cons.mp hx with rfl | hx
    · exact h.irrefl x x rfl
    · exact (List.pairwise_cons.mp hb).1 x hx
  have hax := h.trans a b x hlt hle
  rw [hxa] at hax
  cases hax

/-- The elements of one key: as many pairs as both lists have, then what one of them has more. -/
theorem join_filter (h : Orders less key) (hl : InOrder less as) (hr : InOrder less bs) (k : K) :
    (join less as bs).filter (fun e => e.key key = k) =
      List.zipWith both (as.filter (key · = k)) (bs.filter (key · = k)) ++
      (((as.filter (key · = k)).drop (bs.filter (key · = k)).length).map left ++
      ((bs.filter (key · = k)).drop (as.filter (key · = k)).length).map right) := by
  induction as, bs using join.induct less with
  | case1 bs =>
    simp only [join, List.filter_map, List.filter_nil, List.zipWith_nil_left, List.drop_nil, List.map_nil,
      List.length_nil, List.drop_zero, List.nil_append]
    rfl
  | case2 as has =>
    simp only [join_nil_right, List.filter_map, List.filter_nil, List.zipWith_nil_right, List.drop_nil, List.map_nil,
      List.length_nil, List.drop_zero, List.nil_append, List.append_nil]
    rfl
  | case3 a as b bs hlt ih =>
    have ih := ih (List.pairwise_cons.mp hl).2 hr
    rw [join, if_pos hlt, List.filter_cons, ih]
    by_cases hk : key a = k
    · subst hk
      have hnone := filter_of_less h hlt hr
      simp [hnone, Joined.key]
    · simp [hk, Joined.key]
  | case4 a as b bs hlt hgt ih =>
    have ih := ih hl (List.pairwise_cons.mp hr).2
    rw [join, if_neg hlt, if_pos hgt, List.filter_cons, ih]
    by_cases hk : key b = k
    · subst hk
      have hnone := filter_of_less h hgt hl
      simp [hnone, Joined.key]
    · simp [hk, Joined.key]
  | case5 a as b bs hlt hgt ih =>
    have ih := ih (List.pairwise_cons.mp hl).2 (List.pairwise_cons.mp hr).2
    have hsame : key a = key b := h.same a b (by simpa using hlt) (by simpa using hgt)
    rw [join, if_neg hlt, if_neg hgt, List.filter_cons, ih]
    by_cases hk : key b = k
    · simp [hk, hsame, Joined.key]
    · simp [hk, hsame, Joined.key]

end

end Joins
