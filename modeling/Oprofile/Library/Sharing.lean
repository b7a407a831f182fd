import Mathlib.Data.Finset.Card
import Mathlib.Logic.Function.Basic

/-! Objects that several handles point to, and how many of the open handles point to each. -/
namespace Sharing

variable {H A : Type} [DecidableEq A] {opened : Finset H} {points : H → Option A} {h : H} {a b : A}

/-- The number of open handles on an object. -/
def users (opened : Finset H) (points : H → Option A) (a : A) : Nat := (opened.filter (points · = some a)).card

theorem users_pos_iff : 0 < users opened points a ↔ ∃ h ∈ opened, points h = some a := by
  rw [users, Finset.card_pos]
  constructor
  · rintro ⟨h, hmem⟩
    exact ⟨h, Finset.mem_filter.mp hmem⟩
  · rintro ⟨h, hmem⟩
    exact ⟨h, Finset.mem_filter.mpr hmem⟩

theorem users_congr {points' : H → Option A} (hsame : ∀ h ∈ opened, points' h = points h) :
    users opened points' a = users opened points a := by
  rw [users, users]
  apply congrArg
  apply Finset.filter_congr
  intro h hmem
  rw [hsame h hmem]

variable [DecidableEq H]

/-- A handle on an object is closed. -/
theorem users_erase (hmem : h ∈ opened) (hpoints : points h = some a) :
    users (opened.erase h) points a + 1 = users opened points a := by
  rw [users, users, Finset.filter_erase]
  exact Finset.card_erase_add_one (Finset.mem_filter.mpr ⟨hmem, hpoints⟩)

theorem users_erase_other (hpoints : points h ≠ some b) : users (opened.erase h) points b = users opened points b := by
  rw [users, users, Finset.filter_erase, Finset.erase_eq_of_notMem]
  intro hmem
  exact hpoints (Finset.mem_filter.mp hmem).2

/-- A handle that was closed is opened on an object. -/
theorem users_open (hclosed : h ∉ opened) :
    users (insert h opened) (Function.update points h (some a)) a = users opened points a + 1 := by
  have hothers : ∀ g ∈ opened, Function.update points h (some a) g = points g := by
    intro g hg
    apply Function.update_of_ne
    rintro rfl
    exact hclosed hg
  rw [← users_congr hothers, users, Finset.filter_insert, if_pos (Function.update_self ..), Finset.card_insert_of_notMem]
  · rfl
  · intro hmem
    exact hclosed (Finset.mem_filter.mp hmem).1

theorem users_open_other (hclosed : h ∉ opened) (hne : b ≠ a) :
    users (insert h opened) (Function.update points h (some a)) b = users opened points b := by
  have hothers : ∀ g ∈ opened, Function.update points h (some a) g = points g := by
    intro g hg
    apply Function.update_of_ne
    rintro rfl
    exact hclosed hg
  rw [← users_congr hothers, users, Finset.filter_insert, if_neg]
  · rfl
  · rw [Function.update_self, Option.some_inj]
    exact hne.symm

end Sharing
