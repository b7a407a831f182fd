import Mathlib.Data.List.Basic

/-! A file descriptor whose `write` calls may be interrupted or take less than they are given. -/
namespace Output

/-- What the kernel does with one `write` call. -/
inductive Answer
  | eintr
  /-- Any other failure. -/
  | fails
  /-- At most `k` bytes are taken. -/
  | takes (k : Nat)
  deriving DecidableEq

/-- The most bytes one call transfers. -/
def maxTransfer : Nat := 0x7ffff000

/-- How many bytes of `n` a call takes. -/
def taken (k n : Nat) : Nat := min k (min n maxTransfer)

/-- What is written when the call is repeated until nothing is left, and the answers that are left then, if no
call fails; past the end of the answers calls take all they can. -/
def writeAll : List Answer → List UInt8 → Option (List UInt8 × List Answer)
  | answers, [] => some ([], answers)
  | [], bs => some (bs, [])
  | .eintr :: s, bs => writeAll s bs
  | .fails :: _, _ => none
  | .takes k :: s, bs =>
    (writeAll s (bs.drop (taken k bs.length))).map fun r => (bs.take (taken k bs.length) ++ r.1, r.2)

/-- No call fails. -/
def Unfailing (answers : List Answer) : Prop := .fails ∉ answers

theorem Unfailing.tail {a : Answer} {s : List Answer} (h : Unfailing (a :: s)) : Unfailing s :=
  fun hs => h (List.mem_cons_of_mem a hs)

/-- However the calls are answered, all the bytes are written, in order. -/
theorem writeAll_exact {answers : List Answer} (h : Unfailing answers) (bs : List UInt8) :
    ∃ rest, writeAll answers bs = some (bs, rest) ∧ Unfailing rest := by
  induction answers generalizing bs with
  | nil =>
    cases bs with
    | nil => exact ⟨[], rfl, h⟩
    | cons b bs => exact ⟨[], rfl, h⟩
  | cons a s ih =>
    cases bs with
    | nil => exact ⟨a :: s, rfl, h⟩
    | cons b bs =>
      cases a with
      | eintr => exact ih h.tail (b :: bs)
      | fails => exact absurd List.mem_cons_self h
      | takes k =>
        obtain ⟨rest, hrest, hunfailing⟩ := ih h.tail ((b :: bs).drop (taken k (b :: bs).length))
        refine ⟨rest, ?_, hunfailing⟩
        rw [writeAll, hrest, Option.map_some, List.take_append_drop]
        intro hnil
        cases hnil

end Output
