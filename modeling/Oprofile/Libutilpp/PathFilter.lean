import Oprofile.Operf.ProcessInfo

/-! Filters on each component of a path (`path_filter.cpp`, `file_manip.cpp`). -/
namespace Oprofile.Libutilpp

open Operf

def opDirname (fileName : CString) : CString :=
  let result := eraseTrailingSeparator fileName.reverse
  if '/' ∉ result then ['.']
  else if result.length = 1 then result
  else
    let kept := (result.dropWhile (· ≠ '/')).tail
    -- a last separator at the front stays
    (eraseTrailingSeparator (if kept = [] then ['/'] else kept)).reverse

theorem length_eraseTrailingSeparator_le (s : List Char) : (eraseTrailingSeparator s).length ≤ s.length := by
  fun_induction eraseTrailingSeparator s with
  | case1 => exact Nat.le_refl _
  | case2 => exact Nat.le_refl _
  | case3 s _ ih => exact Nat.le_succ_of_le ih
  | case4 => exact Nat.le_refl _

/-- How far the climb from a directory to its parents can still go. -/
def climb (comp : CString) : Nat := if comp = ['.'] then 0 else comp.length + 1

/-- The directory of a name other than `/` is shorter than the name, or the current one. -/
theorem opDirname_shorter {comp : CString} (hempty : comp ≠ []) (hroot : comp ≠ ['/']) :
    (opDirname comp).length < comp.length ∨ opDirname comp = ['.'] := by
  have hpos : 0 < comp.length := List.length_pos_iff.mpr hempty
  have hle := length_eraseTrailingSeparator_le comp.reverse
  rw [List.length_reverse] at hle
  rw [opDirname]
  generalize hresult : eraseTrailingSeparator comp.reverse = result at hle
  dsimp only
  by_cases hslash : '/' ∉ result
  · exact Or.inr (if_pos hslash)
  · rw [if_neg hslash]
    left
    by_cases hone : result.length = 1
    · rw [if_pos hone, hone]
      by_contra hshort
      -- a single character is its own result, and would have to be the separator
      obtain ⟨c, rfl⟩ := List.length_eq_one_iff.mp (show comp.length = 1 by omega)
      have hc : c = '/' := by
        have hmem := not_not.mp hslash
        rw [← hresult] at hmem
        exact (List.mem_singleton.mp hmem).symm
      exact hroot (by rw [hc])
    · rw [if_neg hone, List.length_reverse]
      have hdrop : (result.dropWhile (· ≠ '/')).length ≤ result.length := (List.dropWhile_suffix _).length_le
      have hfront : 0 < result.length := List.length_pos_iff.mpr (List.ne_nil_of_mem (not_not.mp hslash))
      split_ifs with hkept
      · show 1 < comp.length
        omega
      · have hpast : 0 < (result.dropWhile (· ≠ '/')).tail.length := List.length_pos_iff.mpr hkept
        have herase := length_eraseTrailingSeparator_le (result.dropWhile (· ≠ '/')).tail
        rw [List.length_tail] at herase hpast
        omega

theorem climb_opDirname {comp : CString} (hempty : comp ≠ []) (hroot : comp ≠ ['/']) (hmoved : comp ≠ opDirname comp) :
    climb (opDirname comp) < climb comp := by
  have hdot : comp ≠ ['.'] := by
    rintro rfl
    exact hmoved rfl
  rw [climb, climb, if_neg hdot]
  split_ifs with hcurrent
  · omega
  · rcases opDirname_shorter hempty hroot with hshorter | hcurrent'
    · omega
    · exact absurd hcurrent' hcurrent

/-- A loop of `path_filter::match` up the directories: whether some pattern matches one of them. -/
def anyComponent (fnmatch : CString → CString → Bool) (patterns : List CString) (comp : CString) : Bool :=
  if _h : comp ≠ [] ∧ comp ≠ ['/'] then
    if patterns.any (fnmatch · (opBasename comp)) then true
    else if _h' : comp = opDirname comp then false
    else anyComponent fnmatch patterns (opDirname comp)
  else false
termination_by climb comp
decreasing_by exact climb_opDirname _h.1 _h.2 _h'

/-- `path_filter::match` -/
def pathMatch (fnmatch : CString → CString → Bool) (incl excl : List CString) (str : CString) : Bool :=
  if anyComponent fnmatch excl (opDirname str) then false
  else
    let base := opBasename str
    if excl.any (fnmatch · base) then false
    else if incl.any (fnmatch · base) then true
    else if anyComponent fnmatch incl (opDirname str) then true
    else incl.isEmpty

end Oprofile.Libutilpp
