import Oprofile.Libutilpp.PathFilter

/-! A path filter looks at the components of a path, however many slashes part and end them. -/
namespace Oprofile.Libutilpp

open Operf

structure Component where
  name : CString
  nonempty : name ≠ []
  noSlash : '/' ∉ name

/-- A path from its first component down, with the slashes in front of it and the further ones between. -/
inductive Path
  | top (lead : Nat) (c : Component)
  | child (parent : Path) (extra : Nat) (c : Component)

namespace Path

def text : Path → CString
  | top lead c => List.replicate lead '/' ++ c.name
  | child parent extra c => parent.text ++ List.replicate (extra + 1) '/' ++ c.name

def last : Path → Component
  | top _ c => c
  | child _ _ c => c

def components : Path → List CString
  | top _ c => [c.name]
  | child parent _ c => parent.components ++ [c.name]

def relative : Path → Bool
  | top lead _ => lead = 0
  | child parent _ _ => parent.relative

/-- What the filter is to look at: the components, and `.` above a relative path. -/
def seen (p : Path) : List CString := if p.relative then ['.'] :: p.components else p.components

/-- The directory of a path as it is written. -/
def dirname : Path → CString
  | top lead _ => if lead = 0 then ['.'] else ['/']
  | child parent _ _ => parent.text

end Path

variable {p : Path} {c : Component} {s r : List Char} {n t : Nat}

theorem eraseTrailingSeparator_replicate (n : Nat) {x : Char} (hx : x ≠ '/') (r : List Char) :
    eraseTrailingSeparator (List.replicate n '/' ++ x :: r) = x :: r := by
  induction n with
  | zero =>
    cases r with
    | nil => rfl
    | cons y r => simp [eraseTrailingSeparator, hx]
  | succ n ih =>
    rw [List.replicate_succ, List.cons_append]
    cases n with
    | zero => simpa [eraseTrailingSeparator] using ih
    | succ n => simpa [eraseTrailingSeparator, List.replicate_succ] using ih

theorem eraseTrailingSeparator_slashes (n : Nat) : eraseTrailingSeparator (List.replicate (n + 1) '/') = ['/'] := by
  induction n with
  | zero => rfl
  | succ n ih => simpa [eraseTrailingSeparator, List.replicate_succ] using ih

/-- What a name ends in. -/
theorem Component.reverse_cons (c : Component) : ∃ x xs, c.name.reverse = x :: xs ∧ x ≠ '/' := by
  obtain ⟨x, xs, h⟩ := List.exists_cons_of_ne_nil (List.reverse_ne_nil_iff.mpr c.nonempty)
  refine ⟨x, xs, h, ?_⟩
  rintro rfl
  exact c.noSlash (List.mem_reverse.mp (h ▸ List.mem_cons_self))

/-- Trailing slashes are no part of a path, and there are none behind its last component. -/
theorem eraseTrailingSeparator_path {name front : CString} (c : Component) (hname : name = front ++ c.name) (t : Nat) :
    eraseTrailingSeparator (name ++ List.replicate t '/').reverse = c.name.reverse ++ front.reverse := by
  obtain ⟨x, xs, hrev, hx⟩ := c.reverse_cons
  rw [hname, List.reverse_append, List.reverse_replicate, List.reverse_append, hrev, List.cons_append]
  exact eraseTrailingSeparator_replicate t hx _

theorem Path.text_last (p : Path) : ∃ front, p.text = front ++ p.last.name ∧
    (front = [] ∨ ∃ front', front = front' ++ ['/']) := by
  cases p with
  | top lead c =>
    refine ⟨_, rfl, ?_⟩
    cases lead with
    | zero => exact Or.inl rfl
    | succ lead => exact Or.inr ⟨_, List.replicate_succ'⟩
  | child parent extra c =>
    refine ⟨_, rfl, Or.inr ⟨parent.text ++ List.replicate extra '/', ?_⟩⟩
    rw [List.replicate_succ', List.append_assoc]

/-- Up to the first slash from the end stands the last component. -/
theorem Component.takeWhile (c : Component) (front : CString) (hfront : front = [] ∨ ∃ front', front = front' ++ ['/']) :
    (c.name.reverse ++ front.reverse).takeWhile (· ≠ '/') = c.name.reverse := by
  have hall : ∀ x ∈ c.name.reverse, decide (x ≠ '/') = true := by
    intro x hx
    apply decide_eq_true
    rintro rfl
    exact c.noSlash (List.mem_reverse.mp hx)
  rw [List.takeWhile_append_of_pos hall]
  rcases hfront with rfl | ⟨front', rfl⟩
  · simp
  · simp

theorem opBasename_path (p : Path) (t : Nat) : opBasename (p.text ++ List.replicate t '/') = p.last.name := by
  obtain ⟨front, htext, hfront⟩ := p.text_last
  rw [opBasename, eraseTrailingSeparator_path p.last htext t]
  split_ifs with hone
  · -- a path of one character is its component
    have hlen : 0 < p.last.name.length := List.length_pos_iff.mpr p.last.nonempty
    rw [List.length_append, List.length_reverse, List.length_reverse] at hone
    have hfront : front = [] := List.length_eq_zero_iff.mp (by omega)
    obtain ⟨x, hx⟩ := List.length_eq_one_iff.mp (show p.last.name.length = 1 by omega)
    rw [hfront, hx]
    rfl
  · rw [p.last.takeWhile front hfront, List.reverse_reverse]

/-- Back from the last component, behind the slashes in front of it. -/
theorem Component.dropWhile (c : Component) (back : List Char) :
    (c.name.reverse ++ '/' :: back).dropWhile (· ≠ '/') = '/' :: back := by
  have hall : ∀ x ∈ c.name.reverse, decide (x ≠ '/') = true := by
    intro x hx
    apply decide_eq_true
    rintro rfl
    exact c.noSlash (List.mem_reverse.mp hx)
  rw [List.dropWhile_append_of_pos hall]
  simp

/-- The directory of a name whose last component has slashes in front. -/
theorem opDirname_cut {name front : CString} (c : Component) (n t : Nat)
    (hname : name = front ++ List.replicate (n + 1) '/' ++ c.name) :
    opDirname (name ++ List.replicate t '/') =
      (eraseTrailingSeparator (if List.replicate n '/' ++ front.reverse = [] then ['/']
        else List.replicate n '/' ++ front.reverse)).reverse := by
  have hrev : (front ++ List.replicate (n + 1) '/').reverse = '/' :: (List.replicate n '/' ++ front.reverse) := by
    rw [List.reverse_append, List.reverse_replicate, List.replicate_succ, List.cons_append]
  have hpos : 0 < c.name.length := List.length_pos_iff.mpr c.nonempty
  rw [opDirname, eraseTrailingSeparator_path c hname t, hrev]
  dsimp only
  rw [if_neg (by simp), if_neg (by simp; omega), c.dropWhile, List.tail_cons]

theorem Path.text_ne (p : Path) : p.text ≠ [] ∧ p.text ≠ ['/'] := by
  obtain ⟨front, htext, -⟩ := p.text_last
  obtain ⟨x, xs, hlast, hx⟩ := p.last.reverse_cons
  have hmem : x ∈ p.text := by
    rw [htext]
    exact List.mem_append_right _ (List.mem_reverse.mp (hlast ▸ List.mem_cons_self))
  constructor
  · exact List.ne_nil_of_mem hmem
  · intro hroot
    rw [hroot] at hmem
    exact hx (List.mem_singleton.mp hmem)

theorem opDirname_path (p : Path) (t : Nat) : opDirname (p.text ++ List.replicate t '/') = p.dirname := by
  cases p with
  | top lead c =>
    cases lead with
    | zero =>
      have herase := eraseTrailingSeparator_path c (List.nil_append c.name).symm t
      rw [List.reverse_nil, List.append_nil] at herase
      have hslash : '/' ∉ c.name.reverse := fun h => c.noSlash (List.mem_reverse.mp h)
      rw [opDirname, show (Path.top 0 c).text = c.name from rfl, herase]
      exact if_pos hslash
    | succ lead =>
      have hname : (Path.top (lead + 1) c).text = [] ++ List.replicate (lead + 1) '/' ++ c.name := rfl
      rw [opDirname_cut c lead t hname, List.reverse_nil, List.append_nil]
      cases lead with
      | zero => rfl
      | succ lead =>
        rw [if_neg (by simp [List.replicate_succ]), eraseTrailingSeparator_slashes]
        rfl
  | child parent extra c =>
    obtain ⟨front, htext, -⟩ := parent.text_last
    have hparent := eraseTrailingSeparator_path parent.last htext extra
    have hne : List.replicate extra '/' ++ parent.text.reverse ≠ [] := by
      intro hnil
      exact parent.text_ne.1 (List.reverse_eq_nil_iff.mp (List.append_eq_nil_iff.mp hnil).2)
    rw [List.reverse_append, List.reverse_replicate] at hparent
    have hname : (parent.child extra c).text = parent.text ++ List.replicate (extra + 1) '/' ++ c.name := rfl
    rw [opDirname_cut c extra t hname, if_neg hne, hparent, ← List.reverse_append, ← htext, List.reverse_reverse]
    rfl

theorem opBasename_text (p : Path) : opBasename p.text = p.last.name := by
  have h := opBasename_path p 0
  rwa [List.replicate_zero, List.append_nil] at h

theorem opDirname_text (p : Path) : opDirname p.text = p.dirname := by
  have h := opDirname_path p 0
  rwa [List.replicate_zero, List.append_nil] at h

section

variable {fnmatch : CString → CString → Bool} {patterns incl excl : List CString}

theorem anyComponent_root (fnmatch : CString → CString → Bool) (patterns : List CString) :
    anyComponent fnmatch patterns ['/'] = false := by
  rw [anyComponent, dif_neg (by simp)]

theorem anyComponent_dot (fnmatch : CString → CString → Bool) (patterns : List CString) :
    anyComponent fnmatch patterns ['.'] = patterns.any (fnmatch · ['.']) := by
  rw [anyComponent, dif_pos (by decide), dif_pos (by rfl)]
  have hbase : opBasename ['.'] = ['.'] := rfl
  rw [hbase]
  cases patterns.any (fnmatch · ['.']) <;> rfl

/-- A path is its own directory only as the current one. -/
theorem Path.dirname_eq_text (h : p.text = p.dirname) : p.dirname = ['.'] := by
  cases p with
  | top lead c =>
    rw [Path.dirname] at h ⊢
    split_ifs at h ⊢ with hlead
    · rfl
    · exact absurd h (Path.top lead c).text_ne.2
  | child parent extra c =>
    have hpos := List.length_pos_iff.mpr c.nonempty
    have hlen := congrArg List.length h
    rw [Path.text, Path.dirname, List.length_append, List.length_append] at hlen
    omega

/-- A loop up the directories of a path looks at its components and at what is above them. -/
theorem anyComponent_path (fnmatch : CString → CString → Bool) (patterns : List CString) (p : Path) :
    anyComponent fnmatch patterns p.text =
      (patterns.any (fnmatch · p.last.name) || anyComponent fnmatch patterns p.dirname) := by
  rw [anyComponent, dif_pos p.text_ne, opBasename_text, opDirname_text]
  cases hany : patterns.any (fnmatch · p.last.name) with
  | true => rfl
  | false =>
    rw [if_neg (by simp), Bool.false_or]
    split_ifs with hself
    · -- the loop stops at a path that is its own directory, and has looked at it
      have hdot := Path.dirname_eq_text hself
      have hlast : p.last.name = ['.'] := by
        rw [← opBasename_text, hself, hdot]
        rfl
      rw [hdot, anyComponent_dot, ← hlast, hany]
    · rfl

theorem anyComponent_seen (fnmatch : CString → CString → Bool) (patterns : List CString) (p : Path) :
    anyComponent fnmatch patterns p.text = p.seen.any fun c => patterns.any (fnmatch · c) := by
  induction p with
  | top lead c =>
    rw [anyComponent_path, Path.dirname, Path.seen, Path.relative, Path.components]
    by_cases hlead : lead = 0
    · simp [hlead, anyComponent_dot, Path.last, Bool.or_comm]
    · simp [hlead, anyComponent_root, Path.last]
  | child parent extra c ih =>
    rw [anyComponent_path, Path.dirname, ih, Path.seen, Path.seen, Path.relative, Path.components]
    by_cases hrel : parent.relative = true
    · simp [hrel, Path.last, Bool.or_comm, Bool.or_left_comm]
    · simp [hrel, Path.last, Bool.or_comm]

/-- The filter accepts a path that no exclude pattern matches in any component and, unless everything is
included, an include pattern in some. -/
theorem pathMatch_iff (fnmatch : CString → CString → Bool) (incl excl : List CString) (p : Path) (t : Nat) :
    pathMatch fnmatch incl excl (p.text ++ List.replicate t '/') = true ↔
      (¬∃ c ∈ p.seen, ∃ e ∈ excl, fnmatch e c = true) ∧
        (incl = [] ∨ ∃ c ∈ p.seen, ∃ i ∈ incl, fnmatch i c = true) := by
  have hany : ∀ patterns : List CString, (p.seen.any fun c => patterns.any (fnmatch · c)) = true ↔
      ∃ c ∈ p.seen, ∃ e ∈ patterns, fnmatch e c = true := by
    intro patterns
    simp only [List.any_eq_true]
  rw [← hany, ← hany, ← anyComponent_seen, ← anyComponent_seen, anyComponent_path, anyComponent_path, pathMatch,
    opDirname_path, opBasename_path]
  dsimp only
  generalize anyComponent fnmatch excl p.dirname = exclAbove
  generalize excl.any (fnmatch · p.last.name) = exclLast
  generalize incl.any (fnmatch · p.last.name) = inclLast
  generalize anyComponent fnmatch incl p.dirname = inclAbove
  cases exclAbove <;> cases exclLast <;> cases inclLast <;> cases inclAbove <;> simp

end

end Oprofile.Libutilpp
