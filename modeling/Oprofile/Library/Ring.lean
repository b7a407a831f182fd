import Mathlib.Data.List.Basic

/-! Reading a buffer whose positions run on modulo its size. -/
namespace Ring

variable {α : Type} {data stream : Nat → α} {size p n m : Nat}

/-- `n` cells from a place on. -/
def segment (data : Nat → α) (start n : Nat) : List α := (List.range n).map fun j => data (start + j)

/-- The cells at `n` positions of a ring of some size. -/
def around (data : Nat → α) (size p n : Nat) : List α := (List.range n).map fun j => data ((p + j) % size)

@[simp] theorem length_segment (data : Nat → α) (start n : Nat) : (segment data start n).length = n := by
  simp [segment]

theorem segment_append (data : Nat → α) (start n m : Nat) :
    segment data start (n + m) = segment data start n ++ segment data (start + n) m := by
  simp [segment, List.range_add, Function.comp_def, Nat.add_assoc]

theorem around_append (data : Nat → α) (size p n m : Nat) :
    around data size p (n + m) = around data size p n ++ around data size (p + n) m := by
  simp [around, List.range_add, Function.comp_def, Nat.add_assoc]

/-- Positions that do not reach the end of the ring lie side by side. -/
theorem around_straight (h : p % size + n ≤ size) : around data size p n = segment data (p % size) n := by
  apply List.map_congr_left
  intro j hj
  have hj := List.mem_range.mp hj
  rw [Nat.add_mod, Nat.mod_eq_of_lt (show j < size by omega), Nat.mod_eq_of_lt (by omega)]

/-- The end of the ring is its beginning. -/
theorem end_mod (hsize : 0 < size) : (p + (size - p % size)) % size = 0 := by
  have hp : p % size < size := Nat.mod_lt p hsize
  have hend : p + (size - p % size) = size * (p / size + 1) := by
    have hdiv := Nat.div_add_mod p size
    rw [Nat.mul_add]
    omega
  rw [hend, Nat.mul_mod_right]

/-- Positions that do are read in two pieces. -/
theorem around_split (hsize : 0 < size) (hlow : size ≤ p % size + n) (hn : n ≤ size) :
    around data size p n =
      segment data (p % size) (size - p % size) ++ segment data 0 (n - (size - p % size)) := by
  have hp : p % size < size := Nat.mod_lt p hsize
  obtain ⟨m, rfl⟩ := Nat.exists_eq_add_of_le (show size - p % size ≤ n by omega)
  rw [around_append, around_straight (by omega), around_straight (by rw [end_mod hsize]; omega), end_mod hsize, Nat.add_sub_cancel_left]

/-- A ring that holds a stream is read as the stream. -/
theorem around_stream (h : ∀ q, p ≤ q → q < p + n → data (q % size) = stream q) :
    around data size p n = segment stream p n := by
  apply List.map_congr_left
  intro j hj
  have hj := List.mem_range.mp hj
  exact h (p + j) (Nat.le_add_right p j) (by omega)

end Ring
