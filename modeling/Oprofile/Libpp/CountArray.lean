import Oprofile.Library.Tally
import Mathlib.Data.UInt

/-! Sample counts for each profile class (`sparse_array.h`, `symbol.h`). -/
namespace Oprofile.Libpp

/-- `count_array_t`: a `sparse_array` from classes to counts. -/
structure CountArray where
  container : List (UInt32 × UInt64)
  nodup : (container.map Prod.fst).Nodup
  deriving DecidableEq

namespace CountArray

def empty : CountArray := ⟨[], List.nodup_nil⟩

/-- The const `operator[]`. -/
def get (a : CountArray) (index : UInt32) : UInt64 := (Tally.find index a.container).getD 0

/-- `a[index] = value`. -/
def set (a : CountArray) (index : UInt32) (value : UInt64) : CountArray where
  container := Tally.upsert index (fun _ => value) value a.container
  nodup := Tally.nodup_upsert a.nodup

/-- `a[index] += value`. -/
def addAt (a : CountArray) (index : UInt32) (value : UInt64) : CountArray where
  container := Tally.upsert index (· + value) (0 + value) a.container
  nodup := Tally.nodup_upsert a.nodup

/-- `operator+=`. -/
def add (a rhs : CountArray) : CountArray := rhs.container.foldl (fun a e => a.addAt e.1 e.2) a

variable {a b : CountArray} {c index : UInt32} {value : UInt64}

@[simp] theorem get_empty : empty.get c = 0 := rfl

@[simp] theorem get_set : (a.set index value).get c = if c = index then value else a.get c := by
  rw [get, set, Tally.find_upsert]
  split_ifs with h
  · cases Tally.find index a.container <;> rfl
  · rfl

@[simp] theorem get_addAt :
    (a.addAt index value).get c = a.get c + if c = index then value else 0 := by
  rw [get, addAt, Tally.find_upsert]
  split_ifs with h
  · subst h
    rw [get]
    cases Tally.find c a.container <;> rfl
  · exact (add_zero _).symm

@[simp] theorem get_add : (a.add b).get c = a.get c + b.get c := by
  obtain ⟨xs, hnodup⟩ := b
  change (xs.foldl (fun a e => a.addAt e.1 e.2) a).get c = a.get c + (Tally.find c xs).getD 0
  induction xs generalizing a with
  | nil => exact (add_zero _).symm
  | cons e xs ih =>
    obtain ⟨k, v⟩ := e
    obtain ⟨hk, hxs⟩ := List.nodup_cons.mp hnodup
    rw [List.foldl_cons, ih hxs, get_addAt, Tally.find]
    by_cases hc : c = k
    · subst hc
      rw [if_pos rfl, if_pos rfl, Tally.find_eq_none_iff.mpr hk]
      exact add_zero _
    · rw [if_neg hc, if_neg (Ne.symm hc), add_zero]

end CountArray

/-- `has_sample_counts`: whether a class from `lo` to `hi` has samples. -/
def hasSampleCounts (counts : CountArray) (lo hi : Nat) : Bool :=
  (List.range' lo (hi + 1 - lo)).any fun i => counts.get (UInt32.ofNat i) ≠ 0

end Oprofile.Libpp
