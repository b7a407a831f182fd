import Mathlib.Data.List.Basic
import Mathlib.Logic.Function.Basic

/-! Circular lists whose entries are linked both ways, in cells that can be overwritten. -/
namespace DoublyLinked

variable {A : Type}

/-- The two links of each cell. -/
structure Cells (A : Type) where
  next : A → A
  prev : A → A

/-- From a cell through others to a cell, with each link forth and back. -/
def Path (c : Cells A) : A → List A → A → Prop
  | a, [], b => c.next a = b ∧ c.prev b = a
  | a, x :: xs, b => (c.next a = x ∧ c.prev x = a) ∧ Path c x xs b

/-- A well-formed list: from its head through its entries, each once, back to the head. -/
structure Ring (c : Cells A) (head : A) (entries : List A) : Prop where
  path : Path c head entries head
  nodup : (head :: entries).Nodup

variable {c d : Cells A} {a b e x head : A} {xs ys : List A}

theorem Path.append (h₁ : Path c a xs e) (h₂ : Path c e ys b) : Path c a (xs ++ e :: ys) b := by
  induction xs generalizing a with
  | nil => exact ⟨h₁, h₂⟩
  | cons x xs ih => exact ⟨h₁.1, ih h₁.2⟩

theorem Path.split (h : Path c a (xs ++ e :: ys) b) : Path c a xs e ∧ Path c e ys b := by
  induction xs generalizing a with
  | nil => exact h
  | cons x xs ih =>
    obtain ⟨h₁, h₂⟩ := ih h.2
    exact ⟨⟨h.1, h₁⟩, h₂⟩

theorem Path.next_eq (h : Path c a xs b) : c.next a = xs.head?.getD b := by
  cases xs with
  | nil => exact h.1
  | cons x xs => exact h.1.1

theorem Path.next_mem (h : Path c a xs b) : c.next a ∈ xs ++ [b] := by
  cases xs with
  | nil => exact List.mem_singleton.mpr h.1
  | cons x xs =>
    rw [h.1.1]
    exact List.mem_cons_self

theorem Path.prev_mem (h : Path c a xs b) : c.prev b ∈ a :: xs := by
  induction xs generalizing a with
  | nil =>
    rw [h.2]
    exact List.mem_cons_self
  | cons x xs ih => exact List.mem_cons_of_mem a (ih h.2)

/-- A path stays where no link of it is overwritten. -/
theorem Path.frame (h : Path c a xs b) (hnext : ∀ x ∈ a :: xs, d.next x = c.next x)
    (hprev : ∀ x ∈ xs ++ [b], d.prev x = c.prev x) : Path d a xs b := by
  induction xs generalizing a with
  | nil =>
    refine ⟨?_, ?_⟩
    · rw [hnext a List.mem_cons_self, h.1]
    · rw [hprev b List.mem_cons_self, h.2]
  | cons x xs ih =>
    refine ⟨⟨?_, ?_⟩, ih h.2 ?_ ?_⟩
    · rw [hnext a List.mem_cons_self, h.1.1]
    · rw [hprev x List.mem_cons_self, h.1.2]
    · exact fun y hy => hnext y (List.mem_cons_of_mem a hy)
    · exact fun y hy => hprev y (List.mem_cons_of_mem x hy)

section Changes

variable [DecidableEq A]

/-- An entry between two cells. -/
def Cells.insert (c : Cells A) (entry prev next : A) : Cells A where
  next := Function.update (Function.update c.next entry next) prev entry
  prev := Function.update (Function.update c.prev next entry) entry prev

/-- The two cells around an entry are linked to each other. -/
def Cells.unlink (c : Cells A) (prev next : A) : Cells A where
  next := Function.update c.next prev next
  prev := Function.update c.prev next prev

def Cells.addTail (c : Cells A) (entry head : A) : Cells A := c.insert entry (c.prev head) head

def Cells.delete (c : Cells A) (entry : A) : Cells A := c.unlink (c.prev entry) (c.next entry)

/-- An entry is taken out of a path. -/
theorem Path.delete (h₁ : Path c a xs e) (h₂ : Path c e ys b) (hfrom : (a :: (xs ++ e :: ys)).Nodup)
    (hto : (xs ++ e :: (ys ++ [b])).Nodup) : Path (c.delete e) a (xs ++ ys) b := by
  induction xs generalizing a with
  | nil =>
    have hprev : c.prev e = a := h₁.2
    have hafrom : a ∉ ys := fun hmem => (List.nodup_cons.mp hfrom).1 (List.mem_cons_of_mem e hmem)
    cases ys with
    | nil =>
      have hnext : c.next e = b := h₂.1
      refine ⟨?_, ?_⟩
      · rw [Cells.delete, Cells.unlink, hprev, hnext]
        exact Function.update_self ..
      · rw [Cells.delete, Cells.unlink, hprev, hnext]
        exact Function.update_self ..
    | cons n ys =>
      have hnext : c.next e = n := h₂.1.1
      have hnto : n ∉ ys ++ [b] := (List.nodup_cons.mp (List.nodup_cons.mp hto).2).1
      refine ⟨⟨?_, ?_⟩, h₂.2.frame ?_ ?_⟩
      · rw [Cells.delete, Cells.unlink, hprev, hnext]
        exact Function.update_self ..
      · rw [Cells.delete, Cells.unlink, hprev, hnext]
        exact Function.update_self ..
      · intro x hx
        rw [Cells.delete, Cells.unlink, hprev]
        exact Function.update_of_ne (ne_of_mem_of_not_mem hx hafrom) ..
      · intro x hx
        rw [Cells.delete, Cells.unlink, hnext]
        exact Function.update_of_ne (ne_of_mem_of_not_mem hx hnto) ..
  | cons x xs ih =>
    have hrest := ih h₁.2 (List.nodup_cons.mp hfrom).2 (List.nodup_cons.mp hto).2
    refine ⟨⟨?_, ?_⟩, hrest⟩
    · have hne : a ≠ c.prev e := by
        rintro rfl
        exact (List.nodup_cons.mp hfrom).1 (List.mem_append_left (e :: ys) h₁.2.prev_mem)
      rw [Cells.delete, Cells.unlink, ← h₁.1.1]
      exact Function.update_of_ne hne ..
    · have hne : x ≠ c.next e := by
        rintro hx
        refine (List.nodup_cons.mp hto).1 (List.mem_append_right xs (List.mem_cons_of_mem e ?_))
        rw [hx]
        exact h₂.next_mem
      have hback : c.prev x = a := h₁.1.2
      rw [Cells.delete, Cells.unlink, ← hback]
      exact Function.update_of_ne hne ..

/-- A new entry is put before the end of a path. -/
theorem Path.addTail (h : Path c a xs b) (hfrom : (a :: xs).Nodup) (hto : (xs ++ [b]).Nodup) (ha : e ∉ a :: xs)
    (hb : e ≠ b) : Path (c.addTail e b) a (xs ++ [e]) b := by
  induction xs generalizing a with
  | nil =>
    have hprev : c.prev b = a := h.2
    have hea : e ≠ a := fun heq => ha (heq ▸ List.mem_cons_self)
    refine ⟨⟨?_, ?_⟩, ?_, ?_⟩
    · rw [Cells.addTail, Cells.insert, hprev]
      exact Function.update_self ..
    · rw [Cells.addTail, Cells.insert, hprev]
      exact Function.update_self ..
    · rw [Cells.addTail, Cells.insert, hprev]
      exact (Function.update_of_ne hea ..).trans (Function.update_self ..)
    · rw [Cells.addTail, Cells.insert, hprev]
      exact (Function.update_of_ne hb.symm ..).trans (Function.update_self ..)
  | cons x xs ih =>
    have hrest := ih h.2 (List.nodup_cons.mp hfrom).2 (List.nodup_cons.mp hto).2 fun hmem => ha (List.mem_cons_of_mem a hmem)
    have hae : a ≠ e := fun heq => ha (heq ▸ List.mem_cons_self)
    have hxe : x ≠ e := fun heq => ha (heq ▸ List.mem_cons_of_mem a List.mem_cons_self)
    refine ⟨⟨?_, ?_⟩, hrest⟩
    · have hne : a ≠ c.prev b := by
        rintro rfl
        exact (List.nodup_cons.mp hfrom).1 h.2.prev_mem
      rw [Cells.addTail, Cells.insert, ← h.1.1]
      exact (Function.update_of_ne hne ..).trans (Function.update_of_ne hae ..)
    · have hne : x ≠ b := by
        rintro rfl
        exact (List.nodup_cons.mp hto).1 (List.mem_append_right xs List.mem_cons_self)
      have hback : c.prev x = a := h.1.2
      rw [Cells.addTail, Cells.insert, ← hback]
      exact (Function.update_of_ne hxe ..).trans (Function.update_of_ne hne ..)

theorem Ring.delete (h : Ring c head (xs ++ e :: ys)) : Ring (c.delete e) head (xs ++ ys) := by
  obtain ⟨h₁, h₂⟩ := h.path.split
  have hto : (xs ++ e :: (ys ++ [head])).Nodup := by
    have hperm : (head :: (xs ++ e :: ys)).Perm (xs ++ e :: ys ++ [head]) := (List.perm_append_singleton ..).symm
    have hnodup := hperm.nodup_iff.mp h.nodup
    rwa [List.append_assoc, List.cons_append] at hnodup
  constructor
  · exact h₁.delete h₂ h.nodup hto
  · refine List.Nodup.sublist ?_ h.nodup
    exact (List.Sublist.append_left (List.sublist_cons_self e ys) xs).cons_cons head

theorem Ring.addTail (h : Ring c head xs) (hnew : e ∉ head :: xs) : Ring (c.addTail e head) head (xs ++ [e]) := by
  have hto : (xs ++ [head]).Nodup := (List.perm_append_singleton head xs).nodup_iff.mpr h.nodup
  have hhead : e ≠ head := fun heq => hnew (heq ▸ List.mem_cons_self)
  constructor
  · exact h.path.addTail h.nodup hto hnew hhead
  · have hperm : (e :: head :: xs).Perm (head :: (xs ++ [e])) := by
      rw [← List.cons_append]
      exact (List.perm_append_singleton e (head :: xs)).symm
    exact hperm.nodup_iff.mp (List.nodup_cons.mpr ⟨hnew, h.nodup⟩)

end Changes

/-- Behind an entry comes the one that follows it, or the head. -/
theorem Ring.next_eq (h : Ring c head (xs ++ e :: ys)) : c.next e = ys.head?.getD head := h.path.split.2.next_eq

theorem Ring.first_eq (h : Ring c head xs) : c.next head = xs.head?.getD head := h.path.next_eq

end DoublyLinked
