import Oprofile.Libpp.ProfileClasses
import Mathlib.Tactic.Common

/-! The process tree of the XML reports (`build_process_tree` in `xml_utils.cpp`). -/
namespace Oprofile.Libpp

open SampleNames

structure ThreadInfo where
  threadId : Text
  lo : Nat
  hi : Nat
  deriving DecidableEq

structure ProcessInfo where
  processId : Text
  lo : Nat
  hi : Nat
  threads : List ThreadInfo
  deriving DecidableEq

/-- How many classes at the front have this value in a field. -/
def runLength (field : ProfileTemplate → Text) (cur : Text) : List ProfileTemplate → Nat
  | [] => 0
  | c :: classes => if field c = cur then runLength field cur classes + 1 else 0

/-- `get_next_tgid_pclass` and `get_next_tid_pclass`; nothing if `start` is past the end. -/
def getNextPclass (field : ProfileTemplate → Text) (classes : List ProfileTemplate) (start : Nat) :
    Option Nat :=
  classes[start]?.map fun c => start + runLength field (field c) (classes.drop start)

section

variable {field : ProfileTemplate → Text} {cur : Text} {classes : List ProfileTemplate}
  {start next i : Nat}

theorem runLength_le (field : ProfileTemplate → Text) (cur : Text) (classes : List ProfileTemplate) :
    runLength field cur classes ≤ classes.length := by
  induction classes with
  | nil => exact Nat.le_refl 0
  | cons c classes ih =>
    rw [runLength]
    split_ifs
    · exact Nat.succ_le_succ ih
    · exact Nat.zero_le _

theorem runLength_same (h : i < runLength field cur classes) : classes[i]?.map field = some cur := by
  induction classes generalizing i with
  | nil => exact absurd h (Nat.not_lt_zero i)
  | cons c classes ih =>
    rw [runLength] at h
    split_ifs at h with hc
    · cases i with
      | zero => exact congrArg some hc
      | succ i => exact ih (Nat.lt_of_succ_lt_succ h)
    · exact absurd h (Nat.not_lt_zero i)

theorem runLength_stop : classes[runLength field cur classes]?.map field ≠ some cur := by
  induction classes with
  | nil =>
    intro h
    cases h
  | cons c classes ih =>
    rw [runLength]
    split_ifs with hc
    · exact ih
    · exact fun h => hc (Option.some.inj h)

/-- The run of equal values from `start` on ends before `next`. -/
theorem getNextPclass_spec (h : getNextPclass field classes start = some next) :
    start < next ∧ next ≤ classes.length ∧
    (∀ i, start ≤ i → i < next → classes[i]?.map field = classes[start]?.map field) ∧
    classes[next]?.map field ≠ classes[start]?.map field := by
  obtain ⟨c, hc, rfl⟩ := Option.map_eq_some_iff.mp h
  obtain ⟨hlt, rfl⟩ := List.getElem?_eq_some_iff.mp hc
  have hle := runLength_le field (field classes[start]) (classes.drop start)
  have hpos : 0 < runLength field (field classes[start]) (classes.drop start) := by
    rw [List.drop_eq_getElem_cons hlt, runLength, if_pos rfl]
    exact Nat.succ_pos _
  rw [List.length_drop] at hle
  refine ⟨by omega, by omega, fun i hi hnext => ?_, ?_⟩
  · have hsame : ((classes.drop start)[i - start]?).map field = some (field classes[start]) :=
      runLength_same (by omega)
    rw [List.getElem?_drop, show start + (i - start) = i by omega] at hsame
    rw [hsame, hc]
    rfl
  · rw [hc, ← List.getElem?_drop]
    exact runLength_stop

theorem getNextPclass_isSome (h : start < classes.length) :
    ∃ next, getNextPclass field classes start = some next := by
  rw [getNextPclass, List.getElem?_eq_getElem h]
  exact ⟨_, rfl⟩

end

/-- The inner loop of `build_process_tree`: the threads up to `nextTgid` and where it stops; nothing
if it reads past the end. -/
def addThreads (classes : List ProfileTemplate) (nextTgid tid : Nat) : Option (List ThreadInfo × Nat) :=
  match h : getNextPclass ProfileTemplate.tid classes tid with
  | none => none
  | some nextTid =>
    have hgt := getNextPclass_spec h
    let thread : ThreadInfo := ⟨((classes[tid]?).map ProfileTemplate.tid).getD [], tid, nextTid - 1⟩
    if nextTid ≠ nextTgid then
      (addThreads classes nextTgid nextTid).map fun (threads, tid) => (thread :: threads, tid)
    else some ([thread], nextTid)
termination_by classes.length - tid
decreasing_by omega

/-- The outer loop. -/
def addProcesses (classes : List ProfileTemplate) (tgid tid : Nat) : Option (List ProcessInfo) :=
  match h : getNextPclass ProfileTemplate.tgid classes tgid with
  | none => none
  | some nextTgid =>
    have _hgt := getNextPclass_spec h
    match addThreads classes nextTgid tid with
    | none => none
    | some (threads, tid) =>
      let process : ProcessInfo :=
        ⟨((classes[tgid]?).map ProfileTemplate.tgid).getD [], tgid, nextTgid - 1, threads⟩
      if nextTgid ≠ classes.length then (addProcesses classes nextTgid tid).map (process :: ·)
      else some [process]
termination_by classes.length - tgid
decreasing_by omega

/-- `has_separated_thread_info`: only a tid of "all" says that the threads are not separated. -/
def hasSeparatedThreadInfo (classes : List ProfileTemplate) : Bool :=
  decide ((classes[0]?).map ProfileTemplate.tid ≠ some ['a', 'l', 'l'])

/-- `build_process_tree`. -/
def buildProcessTree (classes : List ProfileTemplate) : Option (List ProcessInfo) :=
  addProcesses classes 0 0

/-! What the tree should be. -/

/-- Ranges, each with its last class, one behind the other from `lo` to before `hi`. -/
def Tiles : Nat → Nat → List (Nat × Nat) → Prop
  | lo, hi, [] => lo = hi
  | lo, hi, r :: ranges => r.1 = lo ∧ lo ≤ r.2 ∧ Tiles (r.2 + 1) hi ranges

/-- Every class of the range has this value in the field. -/
def Uniform (field : ProfileTemplate → Text) (classes : List ProfileTemplate) (value : Text)
    (lo hi : Nat) : Prop :=
  ∀ i, lo ≤ i → i ≤ hi → classes[i]?.map field = some value

structure ThreadsOk (classes : List ProfileTemplate) (lo hi : Nat) (threads : List ThreadInfo) : Prop where
  tiles : Tiles lo hi (threads.map fun t => (t.lo, t.hi))
  uniform : ∀ t ∈ threads, Uniform ProfileTemplate.tid classes t.threadId t.lo t.hi

/-- The processes cover the classes from `lo` on, and the threads of each its classes. -/
structure TreeOk (classes : List ProfileTemplate) (lo : Nat) (tree : List ProcessInfo) : Prop where
  tiles : Tiles lo classes.length (tree.map fun p => (p.lo, p.hi))
  uniform : ∀ p ∈ tree, Uniform ProfileTemplate.tgid classes p.processId p.lo p.hi
  threads : ∀ p ∈ tree, ThreadsOk classes p.lo (p.hi + 1) p.threads

/-- From `lo` on, no thread id goes on where a process ends. -/
def NoCrossing (classes : List ProfileTemplate) (lo : Nat) : Prop :=
  ∀ i, lo ≤ i → i + 1 < classes.length →
    classes[i]?.map ProfileTemplate.tgid ≠ classes[i + 1]?.map ProfileTemplate.tgid →
    classes[i]?.map ProfileTemplate.tid ≠ classes[i + 1]?.map ProfileTemplate.tid

variable {classes : List ProfileTemplate} {tgid tid tid' nextTgid : Nat} {threads : List ThreadInfo}
  {tree : List ProcessInfo}

theorem uniform_of_run {field : ProfileTemplate → Text} {start next : Nat}
    (h : getNextPclass field classes start = some next) :
    Uniform field classes (((classes[start]?).map field).getD []) start (next - 1) := by
  obtain ⟨hgt, hle, hsame, -⟩ := getNextPclass_spec h
  intro i hi hlast
  rw [hsame i hi (by omega), List.getElem?_eq_getElem (by omega)]
  rfl

/-- The threads cover the range that the loop comes to an end in, and no thread goes on behind it. -/
theorem addThreads_some {classes : List ProfileTemplate} {nextTgid tid tid' : Nat} {threads : List ThreadInfo}
    (h : addThreads classes nextTgid tid = some (threads, tid')) :
    tid' = nextTgid ∧ tid < nextTgid ∧ ThreadsOk classes tid nextTgid threads ∧
    classes[nextTgid]?.map ProfileTemplate.tid ≠ classes[nextTgid - 1]?.map ProfileTemplate.tid := by
  rw [addThreads] at h
  split at h
  · cases h
  · next nextTid hnext =>
    obtain ⟨hgt, hle, hsame, hstop⟩ := getNextPclass_spec hnext
    have huniform := uniform_of_run hnext
    have hlast : tid ≤ nextTid - 1 := by omega
    have hback : nextTid - 1 + 1 = nextTid := by omega
    simp only at h
    split_ifs at h with hne
    · obtain ⟨⟨threads₁, tid₁⟩, hrec, hpair⟩ := Option.map_eq_some_iff.mp h
      obtain ⟨rfl, hlt, hok, hcross⟩ := addThreads_some hrec
      cases hpair
      refine ⟨rfl, by omega, ⟨⟨rfl, hlast, ?_⟩, ?_⟩, hcross⟩
      · change Tiles (nextTid - 1 + 1) tid₁ _
        rw [hback]
        exact hok.tiles
      · exact List.forall_mem_cons.mpr ⟨huniform, hok.uniform⟩
    · cases h
      have heq : tid' = nextTgid := not_not.mp hne
      subst heq
      refine ⟨rfl, hgt, ⟨⟨rfl, hlast, hback⟩, ?_⟩, ?_⟩
      · exact List.forall_mem_singleton.mpr huniform
      · rw [hsame (tid' - 1) hlast (by omega)]
        exact hstop
termination_by classes.length - tid
decreasing_by omega

theorem addThreads_isSome {classes : List ProfileTemplate} {nextTgid tid : Nat} (hlt : tid < nextTgid)
    (hle : nextTgid ≤ classes.length)
    (h : classes[nextTgid]?.map ProfileTemplate.tid ≠ classes[nextTgid - 1]?.map ProfileTemplate.tid) :
    ∃ threads, addThreads classes nextTgid tid = some (threads, nextTgid) := by
  rw [addThreads]
  split
  · next hnone =>
    obtain ⟨nextTid, hnext⟩ := getNextPclass_isSome (Nat.lt_of_lt_of_le hlt hle)
    rw [hnext] at hnone
    cases hnone
  · next nextTid hnext =>
    obtain ⟨hgt, -, hsame, -⟩ := getNextPclass_spec hnext
    have hstay : nextTid ≤ nextTgid := by
      by_contra hover
      apply h
      rw [hsame nextTgid (by omega) (by omega), hsame (nextTgid - 1) (by omega) (by omega)]
    by_cases hne : nextTid = nextTgid
    · subst hne
      simp only [ne_eq, not_true_eq_false, if_false]
      exact ⟨_, rfl⟩
    · obtain ⟨threads, hrec⟩ := addThreads_isSome (show nextTid < nextTgid by omega) hle h
      simp only [ne_eq, hne, not_false_eq_true, if_true, hrec]
      exact ⟨_, rfl⟩
termination_by classes.length - tid
decreasing_by omega

theorem NoCrossing.mono {lo lo' : Nat} (h : NoCrossing classes lo) (hle : lo ≤ lo') :
    NoCrossing classes lo' :=
  fun i hi => h i (Nat.le_trans hle hi)

/-- Inside one process no process ends. -/
theorem noCrossing_of_run (hnext : getNextPclass ProfileTemplate.tgid classes tgid = some nextTgid)
    (hlast : nextTgid < classes.length →
      classes[nextTgid]?.map ProfileTemplate.tid ≠ classes[nextTgid - 1]?.map ProfileTemplate.tid)
    (hrest : nextTgid < classes.length → NoCrossing classes nextTgid) : NoCrossing classes tgid := by
  obtain ⟨hgt, hle, hsame, -⟩ := getNextPclass_spec hnext
  intro i hi hlt hne
  rcases Nat.lt_trichotomy (i + 1) nextTgid with hin | heq | hout
  · rw [hsame i hi (by omega), hsame (i + 1) (by omega) hin] at hne
    exact absurd rfl hne
  · have h := hlast (by omega)
    rw [← heq] at h
    exact h.symm
  · exact hrest (by omega) i (by omega) hlt hne

/-- Where a process ends, no thread goes on. -/
theorem NoCrossing.at_end (h : NoCrossing classes tgid)
    (hnext : getNextPclass ProfileTemplate.tgid classes tgid = some nextTgid) :
    classes[nextTgid]?.map ProfileTemplate.tid ≠ classes[nextTgid - 1]?.map ProfileTemplate.tid := by
  obtain ⟨hgt, hle, hsame, hstop⟩ := getNextPclass_spec hnext
  have hback : nextTgid - 1 + 1 = nextTgid := by omega
  rcases Nat.lt_or_ge nextTgid classes.length with hlt | hge
  · have hne := h (nextTgid - 1) (by omega) (by omega)
    rw [hback, hsame (nextTgid - 1) (by omega) (by omega)] at hne
    exact (hne hstop.symm).symm
  · rw [List.getElem?_eq_none hge, List.getElem?_eq_getElem (by omega)]
    exact nofun

theorem addProcesses_some {classes : List ProfileTemplate} {tgid : Nat} {tree : List ProcessInfo}
    (h : addProcesses classes tgid tgid = some tree) : TreeOk classes tgid tree ∧ NoCrossing classes tgid := by
  rw [addProcesses] at h
  split at h
  · cases h
  · next nextTgid hnext =>
    obtain ⟨hgt, hle, hsame, hstop⟩ := getNextPclass_spec hnext
    have huniform := uniform_of_run hnext
    have hlast : tgid ≤ nextTgid - 1 := by omega
    have hback : nextTgid - 1 + 1 = nextTgid := by omega
    simp only at h
    split at h
    · cases h
    · next threads tid' hthreads =>
      obtain ⟨rfl, -, hok, hcross⟩ := addThreads_some hthreads
      have hok' : ThreadsOk classes tgid (tid' - 1 + 1) threads := by
        rw [hback]
        exact hok
      split_ifs at h with hne
      · obtain ⟨tree₁, hrec, rfl⟩ := Option.map_eq_some_iff.mp h
        obtain ⟨htree, hrest⟩ := addProcesses_some hrec
        refine ⟨⟨⟨rfl, hlast, ?_⟩, ?_, ?_⟩, ?_⟩
        · change Tiles (tid' - 1 + 1) classes.length _
          rw [hback]
          exact htree.tiles
        · exact List.forall_mem_cons.mpr ⟨huniform, htree.uniform⟩
        · exact List.forall_mem_cons.mpr ⟨hok', htree.threads⟩
        · exact noCrossing_of_run hnext (fun _ => hcross) (fun _ => hrest)
      · cases h
        have heq : tid' = classes.length := not_not.mp hne
        refine ⟨⟨⟨rfl, hlast, ?_⟩, ?_, ?_⟩, ?_⟩
        · change tid' - 1 + 1 = classes.length
          rw [hback]
          exact heq
        · exact List.forall_mem_singleton.mpr huniform
        · exact List.forall_mem_singleton.mpr hok'
        · exact noCrossing_of_run hnext (fun hlt => by omega) (fun hlt => by omega)
termination_by classes.length - tgid
decreasing_by omega

theorem addProcesses_isSome {classes : List ProfileTemplate} {tgid : Nat} (hlt : tgid < classes.length)
    (h : NoCrossing classes tgid) : ∃ tree, addProcesses classes tgid tgid = some tree := by
  rw [addProcesses]
  split
  · next hnone =>
    obtain ⟨nextTgid, hnext⟩ := getNextPclass_isSome hlt
    rw [hnext] at hnone
    cases hnone
  · next nextTgid hnext =>
    obtain ⟨hgt, hle, -, -⟩ := getNextPclass_spec hnext
    obtain ⟨threads, hthreads⟩ := addThreads_isSome hgt hle (h.at_end hnext)
    simp only [hthreads]
    by_cases hend : nextTgid = classes.length
    · rw [if_neg (not_not.mpr hend)]
      exact ⟨_, rfl⟩
    · obtain ⟨tree, hrec⟩ :=
        addProcesses_isSome (show nextTgid < classes.length by omega) (h.mono (Nat.le_of_lt hgt))
      rw [if_pos hend, hrec]
      exact ⟨_, rfl⟩
termination_by classes.length - tgid
decreasing_by omega

/-- The loops come to an end with a tree that covers the classes exactly when no thread id goes on from
the last class of a process to the first of the next. -/
theorem processTree_iff (classes : List ProfileTemplate) (h : classes ≠ []) :
    (∃ tree, buildProcessTree classes = some tree ∧ TreeOk classes 0 tree) ↔ NoCrossing classes 0 := by
  constructor
  · rintro ⟨tree, htree, -⟩
    exact (addProcesses_some htree).2
  · intro hcross
    obtain ⟨tree, htree⟩ := addProcesses_isSome (List.length_pos_iff.mpr h) hcross
    exact ⟨tree, htree, (addProcesses_some htree).1⟩

/-- Thread 7 of one process and thread 8 of another. -/
def sampleTwoProcesses : List ParsedFilename :=
  [⟨['a'], ['a'], [], ['e'], ['1'], ['0'], ['7'], ['7'], ['0'], [], false⟩,
   ⟨['a'], ['a'], [], ['e'], ['1'], ['0'], ['8'], ['8'], ['0'], [], false⟩]

theorem processTree_iff_two_processes :
    ∃ tree, buildProcessTree (sampleTwoProcesses.map (templateFromProfile · ⟨false, false, false, false, false⟩)) =
      some tree ∧
      TreeOk (sampleTwoProcesses.map (templateFromProfile · ⟨false, false, false, false, false⟩)) 0 tree := by
  refine (processTree_iff _ (by decide)).mpr fun i _ hlt _ => ?_
  obtain rfl : i = 0 := by
    change i + 1 < 2 at hlt
    omega
  decide

/-- With `--merge=tid` the blank thread id of the first process goes on in the second. -/
theorem merged_tid_reads_past :
    hasSeparatedThreadInfo (sampleTwoProcesses.map (templateFromProfile · ⟨false, false, true, false, false⟩)) = true ∧
    buildProcessTree (sampleTwoProcesses.map (templateFromProfile · ⟨false, false, true, false, false⟩)) = none := by
  decide +kernel

end Oprofile.Libpp
