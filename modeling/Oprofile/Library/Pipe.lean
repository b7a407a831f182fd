import Mathlib.Tactic.Linarith

/-! The reading end of a pipe whose `read` calls may be interrupted or return less than asked. -/
namespace Pipe

/-- What the kernel does with one `read` call on a pipe that is not empty. -/
inductive Choice
  | eintr
  /-- Any other failure. -/
  | fails
  /-- At most `k + 1` bytes are delivered. -/
  | upTo (k : Nat)
  deriving DecidableEq

/-- The bytes written and not yet read, all writers gone, and the answers to the next calls;
past the end of the schedule calls deliver all they can. -/
structure ReadEnd where
  bytes : List UInt8
  schedule : List Choice
  deriving DecidableEq

inductive Result
  | eintr
  | fails
  | data (bs : List UInt8)
  deriving DecidableEq

/-- `read(fd, buf, n)`. An empty delivery is the end of the data, or a request for nothing. -/
def read (p : ReadEnd) (n : Nat) : Result × ReadEnd :=
  if n = 0 then (.data [], p)
  else
    match p.schedule with
    | [] => (.data (p.bytes.take n), { p with bytes := p.bytes.drop n })
    | .eintr :: s => (.eintr, { p with schedule := s })
    | .fails :: s => (.fails, { p with schedule := s })
    | .upTo k :: s =>
      (.data (p.bytes.take (min n (k + 1))),
        { bytes := p.bytes.drop (min n (k + 1)), schedule := s })

/-- More calls than this are never made by a loop that stops at the end of the data. -/
def ReadEnd.fuel (p : ReadEnd) : Nat := p.schedule.length + p.bytes.length + 1

theorem lt_fuel (bs : List UInt8) (s : List Choice) : s.length < (ReadEnd.mk bs s).fuel := by
  unfold ReadEnd.fuel
  exact Nat.lt_succ_of_le (Nat.le_add_right ..)

/-- The schedule left when a block of `n` bytes has been read completely. -/
def scheduleAfter : Nat → List Choice → List Choice
  | _, [] => []
  | n, .upTo k :: s => if n ≤ k + 1 then s else scheduleAfter (n - (k + 1)) s
  | n, _ :: s => scheduleAfter n s

/-- The first call that is not interrupted delivers a block of `n` bytes in one piece. -/
def Whole (n : Nat) : List Choice → Prop
  | [] => True
  | .eintr :: s => Whole n s
  | .fails :: _ => False
  | .upTo k :: _ => n ≤ k + 1

instance decidableWhole (n : Nat) : (s : List Choice) → Decidable (Whole n s)
  | [] => isTrue trivial
  | .eintr :: s => decidableWhole n s
  | .fails :: _ => isFalse id
  | .upTo k :: _ => inferInstanceAs (Decidable (n ≤ k + 1))

section Read

variable {block rest : List UInt8} {s : List Choice} {k n : Nat}

theorem read_eintr (h : n ≠ 0) : read ⟨block, .eintr :: s⟩ n = (.eintr, ⟨block, s⟩) := by
  simp [read, h]

theorem read_unscheduled (h : block ≠ []) :
    read ⟨block ++ rest, []⟩ block.length = (.data block, ⟨rest, []⟩) := by
  simp [read, h]

/-- A block no longer than what the kernel hands out arrives whole. -/
theorem read_whole (h : block ≠ []) (hk : block.length ≤ k + 1) :
    read ⟨block ++ rest, .upTo k :: s⟩ block.length = (.data block, ⟨rest, s⟩) := by
  simp [read, h, Nat.min_eq_left hk]

/-- A longer one does not. -/
theorem read_short (block : List UInt8) (hk : k + 1 < n) :
    read ⟨block, .upTo k :: s⟩ n =
      (.data (block.take (k + 1)), ⟨block.drop (k + 1), s⟩) := by
  have hn : n ≠ 0 := by omega
  simp [read, hn, Nat.min_eq_right (Nat.le_of_lt hk)]

theorem read_one {p q : ReadEnd} {b : UInt8} {bs : List UInt8}
    (h : read p 1 = (.data (b :: bs), q)) : bs = [] := by
  simp only [read, Nat.one_ne_zero, if_false] at h
  split at h <;> cases hp : p.bytes <;> simp_all

end Read

theorem mem_of_mem_scheduleAfter {n : Nat} {s : List Choice} {c : Choice}
    (h : c ∈ scheduleAfter n s) : c ∈ s := by
  fun_induction scheduleAfter n s <;> simp_all

end Pipe
