import Oprofile.Library.TextLines
import Oprofile.Libutil.OpFileio

/-! What `op_get_line` reads until it returns `NULL`, as `read_events` and `read_unit_masks` call it. -/
namespace Oprofile.Libutil

open TextLines

variable {heap : Heap} {buf l rest s : List UInt8} {cp max : Nat} {c : UInt8}

theorem opGetLineLoop_shorter {b : List UInt8} (h : opGetLineLoop heap buf cp max s = some (some b, rest)) :
    rest.length < s.length := by
  induction s generalizing buf cp max with
  | nil => simp [opGetLineLoop] at h
  | cons c s ih =>
    rw [opGetLineLoop] at h
    split_ifs at h with hc hfull
    · obtain ⟨b', -, hb⟩ := Option.map_eq_some_iff.mp h
      cases hb
      exact Nat.lt_succ_self _
    all_goals
      obtain ⟨b', -, hb⟩ := Option.bind_eq_some_iff.mp h
      exact Nat.lt_succ_of_lt (ih hb)

/-- The lines that repeated calls return; none is a store outside a block. -/
def readLines (heap : Heap) (fp : List UInt8) : Option (List (List UInt8)) :=
  match _h : opGetLine heap fp with
  | none => none
  | some (none, _) => some []
  | some (some buf, rest) => (readLines heap rest).map (text buf :: ·)
termination_by fp.length
decreasing_by exact opGetLineLoop_shorter _h

theorem length_xmalloc (heap : Heap) (n : Nat) : (heap.xmalloc n).length = n := by
  rw [Heap.xmalloc, List.length_map, List.length_range]

/-- The loop's state: the block has its size, and its first characters are the line so far. -/
structure Filling (begun buf : List UInt8) (cp max : Nat) : Prop where
  size : buf.length = max
  inside : cp < max
  stored : buf.take cp = begun

variable {begun : List UInt8}

theorem filling_start (heap : Heap) : Filling [] (heap.xmalloc 512) 0 512 :=
  ⟨length_xmalloc heap 512, by omega, List.take_zero⟩

theorem Filling.poke (h : Filling begun buf cp max) (c : UInt8) :
    poke buf cp c = some (buf.set cp c) ∧ (buf.set cp c).take (cp + 1) = begun ++ [c] := by
  have hcp : cp < buf.length := by
    rw [h.size]
    exact h.inside
  refine ⟨if_pos hcp, ?_⟩
  rw [List.take_add_one, List.take_set_of_le (Nat.le_refl cp), h.stored]
  rw [List.getElem?_set_self hcp, Option.toList_some]

theorem Filling.next (h : Filling begun buf cp max) (c : UInt8) (hroom : cp + 1 ≠ max) :
    Filling (begun ++ [c]) (buf.set cp c) (cp + 1) max := by
  refine ⟨?_, ?_, (h.poke c).2⟩
  · rw [List.length_set, h.size]
  · have := h.inside
    omega

/-- A full block grows, and what it held stays in front. -/
theorem Filling.grow (h : Filling begun buf cp max) (heap : Heap) (c : UInt8) (hfull : cp + 1 = max) :
    Filling (begun ++ [c]) (heap.xrealloc (buf.set cp c) (max + 128)) max (max + 128) := by
  have hlen : (buf.set cp c).length = max := by rw [List.length_set, h.size]
  have hkept : (buf.set cp c).take (max + 128) = buf.set cp c := List.take_of_length_le (by omega)
  refine ⟨?_, by omega, ?_⟩
  · rw [Heap.xrealloc, hkept, List.length_append, length_xmalloc, hlen]
    omega
  · have hstored := (h.poke c).2
    rw [hfull, List.take_of_length_le (Nat.le_of_eq hlen)] at hstored
    rw [Heap.xrealloc, hkept, List.take_left' hlen, hstored]

/-- Behind a character that ends no line the loop goes on with it stored. -/
theorem opGetLineLoop_store (h : Filling begun buf cp max) (heap : Heap) (s : List UInt8) (hline : c ≠ 10) (hnul : c ≠ 0) :
    ∃ buf' cp' max', Filling (begun ++ [c]) buf' cp' max' ∧
      opGetLineLoop heap buf cp max (c :: s) = opGetLineLoop heap buf' cp' max' s := by
  have hstep : opGetLineLoop heap buf cp max (c :: s) =
      if cp + 1 = max then opGetLineLoop heap (heap.xrealloc (buf.set cp c) (max + 128)) max (max + 128) s
      else opGetLineLoop heap (buf.set cp c) (cp + 1) max s := by
    rw [opGetLineLoop, if_neg (by simp [hline, hnul]), (h.poke c).1, Option.bind_some]
  rw [hstep]
  by_cases hfull : cp + 1 = max
  · exact ⟨_, _, _, h.grow heap c hfull, if_pos hfull⟩
  · exact ⟨_, _, _, h.next c hfull, if_neg hfull⟩

/-- A newline returns the block with the line as its string. -/
theorem opGetLineLoop_newline (h : Filling begun buf cp max) (hnul : 0 ∉ begun) :
    ∃ b, opGetLineLoop heap buf cp max (10 :: rest) = some (some b, rest) ∧ text b = begun := by
  refine ⟨buf.set cp 0, ?_, ?_⟩
  · rw [opGetLineLoop, if_pos (Or.inl rfl), (h.poke 0).1]
    rfl
  · have hsplit : buf.set cp 0 = begun ++ 0 :: (buf.set cp 0).drop (cp + 1) := by
      conv_lhs => rw [← List.take_append_drop (cp + 1) (buf.set cp 0), (h.poke 0).2, List.append_assoc]
      rfl
    have hbegun : ∀ x ∈ begun, decide (x ≠ 0) = true := by
      intro x hx
      apply decide_eq_true
      rintro rfl
      exact hnul hx
    rw [text, hsplit, List.takeWhile_append_of_pos hbegun]
    simp

theorem opGetLineLoop_line (rest : List UInt8) (h : Filling begun buf cp max) (hline : 10 ∉ l) (hnul : 0 ∉ begun ++ l) :
    ∃ b, opGetLineLoop heap buf cp max (l ++ 10 :: rest) = some (some b, rest) ∧ text b = begun ++ l := by
  induction l generalizing begun buf cp max with
  | nil =>
    rw [List.append_nil] at hnul ⊢
    exact opGetLineLoop_newline h hnul
  | cons c l ih =>
    have hc : c ≠ 0 := by
      rintro rfl
      exact hnul (by simp)
    obtain ⟨buf', cp', max', hfill, heq⟩ := opGetLineLoop_store h heap (l ++ 10 :: rest)
      (Ne.symm (List.ne_of_not_mem_cons hline)) hc
    have hrest : begun ++ [c] ++ l = begun ++ c :: l := by simp
    rw [List.cons_append, heq, ← hrest]
    apply ih hfill (List.not_mem_of_not_mem_cons hline)
    rw [hrest]
    exact hnul

/-- At the end of the file the line so far is freed with its block. -/
theorem opGetLineLoop_eof (h : Filling begun buf cp max) (hline : 10 ∉ l) (hnul : 0 ∉ l) :
    opGetLineLoop heap buf cp max l = some (none, []) := by
  induction l generalizing begun buf cp max with
  | nil => rfl
  | cons c l ih =>
    obtain ⟨buf', cp', max', hfill, heq⟩ := opGetLineLoop_store h heap l
      (Ne.symm (List.ne_of_not_mem_cons hline)) (Ne.symm (List.ne_of_not_mem_cons hnul))
    rw [heq]
    exact ih hfill (List.not_mem_of_not_mem_cons hline) (List.not_mem_of_not_mem_cons hnul)

theorem readLines_of_null (h : opGetLine heap s = some (none, rest)) : readLines heap s = some [] := by
  rw [readLines]
  split <;> simp_all

theorem readLines_of_line {b : List UInt8} (h : opGetLine heap s = some (some b, rest)) :
    readLines heap s = (readLines heap rest).map (text b :: ·) := by
  rw [readLines]
  split <;> simp_all

/-- Every line that a newline ends is read, whatever its length. -/
theorem readLines_ended (heap : Heap) (s : List UInt8) (hnul : 0 ∉ s) : readLines heap s = some (ended 10 s) := by
  induction hn : s.length using Nat.strongRecOn generalizing s with
  | ind n ih =>
    rcases cut 10 s with ⟨l, rest, hs, hl⟩ | hopen
    · have hrest : 0 ∉ rest := fun h => hnul (by simp [hs, h])
      obtain ⟨b, hread, htext⟩ := opGetLineLoop_line rest (filling_start heap) hl
        (fun h => hnul (by simp [hs, show 0 ∈ l from h]))
      rw [← hs] at hread
      rw [readLines_of_line hread, ih rest.length (by rw [← hn]; exact opGetLineLoop_shorter hread) rest hrest rfl,
        htext, Option.map_some, hs]
      exact congrArg some (endedFrom_cut hl [] rest).symm
    · rw [readLines_of_null (opGetLineLoop_eof (filling_start heap) hopen hnul), ended, endedFrom_open hopen]

/-- The lines read are those of the stream just when a newline ends the last of them. -/
theorem readLines_iff (heap : Heap) (s : List UInt8) (hnul : 0 ∉ s) :
    readLines heap s = some (lines 10 s) ↔ s = [] ∨ s.getLast? = some 10 := by
  rw [readLines_ended heap s hnul, Option.some_inj]
  exact ended_eq_lines_iff 10 s

theorem readLines_two_lines : readLines ⟨fun _ => 7⟩ [97, 10, 98, 10] = some [[97], [98]] := by
  have h := (readLines_iff ⟨fun _ => 7⟩ [97, 10, 98, 10] (by decide)).mpr (Or.inr (by decide))
  rw [h]
  decide

/-- A last line without its newline is dropped. -/
theorem readLines_open_line : readLines ⟨fun _ => 0⟩ [97, 10, 98] ≠ some (lines 10 [97, 10, 98]) := by
  rw [readLines_ended _ _ (by decide)]
  decide

end Oprofile.Libutil
