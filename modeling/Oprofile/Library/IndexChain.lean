import Mathlib.Data.List.Perm.Subperm
import Mathlib.Tactic.Linarith

/-! Singly linked chains of indices ending at index zero, for an arbitrary successor map. -/
namespace IndexChain

/-- `Chain next i xs`: following `next` from `i` visits exactly `xs` and then reaches zero. -/
inductive Chain (next : Nat → Nat) : Nat → List Nat → Prop
  | nil : Chain next 0 []
  | cons {i : Nat} {xs : List Nat} (hi : i ≠ 0) (h : Chain next (next i) xs) :
      Chain next i (i :: xs)

variable {next next' : Nat → Nat} {i j : Nat} {xs ys : List Nat}

theorem chain_zero_iff : Chain next 0 xs ↔ xs = [] := by
  constructor
  · intro h
    cases h with
    | nil => rfl
    | cons hi _ => exact (hi rfl).elim
  · rintro rfl
    exact .nil

theorem chain_ne_zero (hi : i ≠ 0) (h : Chain next i xs) :
    ∃ ys, xs = i :: ys ∧ Chain next (next i) ys := by
  cases h with
  | nil => exact (hi rfl).elim
  | cons _ h => exact ⟨_, rfl, h⟩

/-- The successor map determines the chain. -/
theorem chain_unique (hx : Chain next i xs) (hy : Chain next i ys) : xs = ys := by
  induction hx generalizing ys with
  | nil => exact (chain_zero_iff.mp hy).symm
  | cons hi _ ih =>
    obtain ⟨zs, rfl, hz⟩ := chain_ne_zero hi hy
    rw [ih hz]

theorem chain_mem_ne_zero (h : Chain next i xs) (hj : j ∈ xs) : j ≠ 0 := by
  induction h with
  | nil => cases hj
  | cons hi _ ih =>
    rcases List.mem_cons.mp hj with rfl | hj
    · exact hi
    · exact ih hj

/-- Every visited index starts a chain that is no longer than the whole. -/
theorem chain_of_mem (h : Chain next i xs) (hj : j ∈ xs) :
    ∃ ys, Chain next j ys ∧ ys.length ≤ xs.length := by
  induction h with
  | nil => cases hj
  | @cons i xs hi h ih =>
    rcases List.mem_cons.mp hj with rfl | hj
    · exact ⟨_, .cons hi h, Nat.le_refl _⟩
    · obtain ⟨ys, hy, hl⟩ := ih hj
      exact ⟨ys, hy, Nat.le_succ_of_le hl⟩

/-- A finite chain cannot come back to an index it has left. -/
theorem chain_nodup (h : Chain next i xs) : xs.Nodup := by
  induction h with
  | nil => exact List.nodup_nil
  | @cons i xs hi h ih =>
    refine List.nodup_cons.mpr ⟨?_, ih⟩
    intro hmem
    obtain ⟨ys, hy, hl⟩ := chain_of_mem h hmem
    have he := chain_unique hy (.cons hi h)
    rw [he, List.length_cons] at hl
    omega

/-- Changing successors of indices that are not visited leaves the chain alone. -/
theorem chain_congr (h : Chain next i xs) (he : ∀ j ∈ xs, next' j = next j) :
    Chain next' i xs := by
  induction h with
  | nil => exact .nil
  | @cons i xs hi h ih =>
    refine .cons hi ?_
    rw [he i (List.mem_cons_self ..)]
    exact ih fun j hj => he j (List.mem_cons_of_mem _ hj)

/-- Distinct positive indices below a bound: a chain over them is shorter than the bound. -/
theorem chain_length_lt (h : Chain next i xs) {n : Nat} (hn : 0 < n)
    (hlt : ∀ j ∈ xs, j < n) : xs.length < n := by
  have hsub : xs ⊆ (List.range n).tail := by
    intro j hj
    have h0 := chain_mem_ne_zero h hj
    have h1 := hlt j hj
    obtain ⟨m, rfl⟩ := Nat.exists_eq_succ_of_ne_zero (Nat.pos_iff_ne_zero.mp hn)
    simp only [List.range_succ_eq_map, List.tail_cons, List.mem_map, List.mem_range]
    exact ⟨j - 1, by omega, by omega⟩
  have hle := (List.subperm_of_subset (chain_nodup h) hsub).length_le
  simp only [List.length_tail, List.length_range] at hle
  omega

/-- The walk `while (index) { .. ; index = next }` that stops at the first index satisfying
`stop`. It gives zero when the chain ends first, and nothing when `fuel` runs out. -/
def walk (next : Nat → Nat) (stop : Nat → Bool) : Nat → Nat → Option Nat
  | 0, _ => none
  | fuel + 1, i =>
    if i = 0 then some 0
    else if stop i then some i
    else walk next stop fuel (next i)

/-- Enough fuel for the chain: the walk ends, at its first stopping index or at zero. -/
theorem walk_eq (stop : Nat → Bool) (h : Chain next i xs) {fuel : Nat}
    (hf : xs.length < fuel) : walk next stop fuel i = some ((xs.find? stop).getD 0) := by
  induction h generalizing fuel with
  | nil =>
    obtain ⟨fuel, rfl⟩ := Nat.exists_eq_succ_of_ne_zero (Nat.pos_iff_ne_zero.mp hf)
    simp [walk]
  | @cons i xs hi h ih =>
    obtain ⟨fuel, rfl⟩ := Nat.exists_eq_succ_of_ne_zero (by omega : fuel ≠ 0)
    cases hs : stop i with
    | true => simp [walk, hi, hs]
    | false =>
      have hrec := ih (Nat.lt_of_succ_lt_succ hf)
      simp [walk, hi, hs, hrec]

end IndexChain
