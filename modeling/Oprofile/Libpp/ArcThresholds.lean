import Oprofile.Libpp.ArcRecorder
import Oprofile.Libpp.Ratio
import Mathlib.Data.List.Forall2

/-! Recording arcs, and keeping those that reach a threshold (`arc_recorder` in `callgraph_container.cpp`). -/
namespace Oprofile.Libpp

open SampleNames

/-- One call of `arc_recorder::add`. -/
structure ArcAdd where
  caller : SymbolEntry
  callee : Option SymbolEntry
  arcCount : CountArray

/-- `arc_recorder::add` -/
def arcAdd (symMap : SymMap) (arc : ArcAdd) : SymMap :=
  match arc.callee with
  | none => updateSymbol arc.caller id ⟨[], []⟩ symMap
  | some callee => recordArc symMap arc.caller callee arc.arcCount

def arcsAdded (arcs : List ArcAdd) : SymMap := arcs.foldl arcAdd []

/-- A `cg_symbol`. -/
structure CgSymbol where
  symbol : SymbolEntry
  callers : List SymbolEntry
  totalCallerCount : CountArray
  callees : List SymbolEntry
  totalCalleeCount : CountArray

/-- The count by which arcs are sorted. -/
def arcCount0 (s : SymbolEntry) : UInt64 := s.sample.counts.get 0

/-- The part of a total that a symbol has, by class 0. -/
def ratioOf (s : SymbolEntry) (total : CountArray) : ℚ := opRatio (countValue (arcCount0 s)) (countValue (total.get 0))

/-- What `sort` does with `compare_arc_count` and with `compare_arc_count_reverse`. -/
abbrev CallerSort := Sorting.QSort fun a b : SymbolEntry => arcCount0 a ≤ arcCount0 b

abbrev ArcCalleeSort := Sorting.QSort fun a b : SymbolEntry => arcCount0 b ≤ arcCount0 a

/-- What the processing uses: the two sorts, the demangled name of a symbol's id, the id of a name, and the
filter on names. -/
structure CgHost where
  sortCallers : CallerSort
  sortCallees : ArcCalleeSort
  demangle : Nat → Text
  create : Text → Nat
  symFilter : Text → Bool

/-- The synthetic entry for the symbol itself. -/
def selfEntry (host : CgHost) (sym : SymbolEntry) : SymbolEntry :=
  { sym with name := host.create (host.demangle sym.name ++ [' ', '[', 's', 'e', 'l', 'f', ']']) }

/-- `process_children` -/
def processChildren (host : CgHost) (sym : CgSymbol) (threshold : ℚ) : CgSymbol :=
  let self := selfEntry host sym.symbol
  let totalCalleeCount := sym.totalCalleeCount.add self.sample.counts
  let callers := host.sortCallers.sort sym.callers
  let callees := host.sortCallees.sort (sym.callees ++ [self])
  let cit := callers.dropWhile fun s => ratioOf s sym.totalCallerCount < threshold
  let callers := if cit ≠ [] then cit else callers
  let reaching := callees.takeWhile fun s => threshold ≤ ratioOf s totalCalleeCount
  let callees := if reaching.length ≠ callees.length then reaching else callees
  { sym with callers := callers, callees := callees, totalCalleeCount := totalCalleeCount }

/-- The children of a symbol, each with the counts of its arc. -/
def childEntries (children : List (SymbolEntry × CountArray)) : List SymbolEntry :=
  children.map fun e => { e.1 with sample := { e.1.sample with counts := e.2 } }

/-- The body of the loop of `process` behind its two tests. -/
def processSymbol (host : CgHost) (threshold : ℚ) (entry : SymbolEntry × CgData) : CgSymbol :=
  processChildren host
    { symbol := entry.1
      callers := childEntries entry.2.callers
      totalCallerCount := entry.2.callers.foldl (fun total e => total.add e.2) .empty
      callees := childEntries entry.2.callees
      totalCalleeCount := entry.2.callees.foldl (fun total e => total.add e.2) .empty }
    threshold

/-- The two tests of `process`. -/
def Emitted (host : CgHost) (total : CountArray) (threshold : ℚ) (sym : SymbolEntry) : Prop :=
  ¬ratioOf sym total < threshold ∧ host.symFilter (host.demangle sym.name) = true

instance (host : CgHost) (total : CountArray) (threshold : ℚ) (sym : SymbolEntry) :
    Decidable (Emitted host total threshold sym) := inferInstanceAs (Decidable (_ ∧ _))

/-- `arc_recorder::process`: the symbols it emits. -/
def arcProcess (host : CgHost) (total : CountArray) (threshold : ℚ) (symMap : SymMap) : List CgSymbol :=
  (symMap.filter fun entry => Emitted host total threshold entry.1).map (processSymbol host threshold)

/-! The arcs that were added. -/

section

variable {symMap : SymMap} {arcs : List ArcAdd} {a b : SymbolEntry} {c : UInt32}

/-- The arc goes from one symbol to the other. -/
def ArcAdd.Between (arc : ArcAdd) (a b : SymbolEntry) : Prop :=
  SameSymbol arc.caller a ∧ arc.callee.any (SameSymbol · b) = true

instance (arc : ArcAdd) (a b : SymbolEntry) : Decidable (arc.Between a b) := inferInstanceAs (Decidable (_ ∧ _))

/-- The sum of the counts of the arcs between two symbols. -/
def addedBetween (arcs : List ArcAdd) (a b : SymbolEntry) (c : UInt32) : UInt64 :=
  ((arcs.filter fun arc => arc.Between a b).map fun arc => arc.arcCount.get c).sum

theorem findSymbol_make (s : SymbolEntry) :
    (findSymbol a (updateSymbol s id ⟨[], []⟩ symMap)).getD ⟨[], []⟩ = (findSymbol a symMap).getD ⟨[], []⟩ := by
  rw [findSymbol_updateSymbol]
  split
  · rfl
  · rfl

/-- A count to which an arc between two symbols adds, and to which nothing else does, is the sum over the arcs. -/
theorem count_arcsAdded (count : SymMap → UInt64)
    (hmake : ∀ symMap s, count (updateSymbol s id ⟨[], []⟩ symMap) = count symMap)
    (harc : ∀ symMap s t arcCount, count (recordArc symMap s t arcCount) =
      count symMap + if SameSymbol s a ∧ SameSymbol t b then arcCount.get c else 0) (arcs : List ArcAdd) (symMap : SymMap) :
    count (arcs.foldl arcAdd symMap) = count symMap + addedBetween arcs a b c := by
  induction arcs generalizing symMap with
  | nil => exact (add_zero _).symm
  | cons arc arcs ih =>
    have hone : count (arcAdd symMap arc) = count symMap + if arc.Between a b then arc.arcCount.get c else 0 := by
      cases hcallee : arc.callee with
      | none => simp [arcAdd, ArcAdd.Between, hcallee, hmake]
      | some callee => simp [arcAdd, ArcAdd.Between, hcallee, harc]
    rw [List.foldl_cons, ih, hone, add_assoc]
    congr 1
    rw [addedBetween, addedBetween, List.filter_cons]
    by_cases hbetween : arc.Between a b
    · rw [if_pos hbetween, if_pos (decide_eq_true hbetween), List.map_cons, List.sum_cons]
    · rw [if_neg hbetween, if_neg (by simpa using hbetween), zero_add]

theorem calleesCount_arcsAdded : calleesCount (arcsAdded arcs) a b c = addedBetween arcs a b c := by
  have hsum := count_arcsAdded (a := a) (b := b) (c := c) (calleesCount · a b c)
    (fun symMap s => by rw [calleesCount, findSymbol_make, ← calleesCount])
    (fun symMap s t arcCount => calleesCount_recordArc) arcs []
  exact hsum.trans (zero_add _)

theorem callersCount_arcsAdded : callersCount (arcsAdded arcs) a b c = addedBetween arcs a b c := by
  have hsum := count_arcsAdded (a := a) (b := b) (c := c) (callersCount · a b c)
    (fun symMap s => by rw [callersCount, findSymbol_make, ← callersCount])
    (fun symMap s t arcCount => callersCount_recordArc) arcs []
  exact hsum.trans (zero_add _)

end

/-! What is kept of the children. -/

/-- The count is at least the fraction of the total. -/
def Reaches (threshold : ℚ) (total : UInt64) (s : SymbolEntry) : Prop :=
  threshold * countValue total ≤ countValue (arcCount0 s)

instance (threshold : ℚ) (total : UInt64) : DecidablePred (Reaches threshold total) := fun s =>
  inferInstanceAs (Decidable (threshold * countValue total ≤ countValue (arcCount0 s)))

section

variable {threshold : ℚ} {total : CountArray} {s : SymbolEntry}

theorem ratioOf_mono {a b : SymbolEntry} (h : arcCount0 a ≤ arcCount0 b) : ratioOf a total ≤ ratioOf b total :=
  opRatio_mono (countValue_nonneg _) (countValue_mono h)

theorem ratioOf_lt_iff (h : total.get 0 ≠ 0) : ratioOf s total < threshold ↔ ¬Reaches threshold (total.get 0) s := by
  rw [ratioOf, opRatio_lt_iff (countValue_pos h), Reaches, not_le]

/-- Every count reaches a fraction of nothing. -/
theorem reaches_zero (h : total.get 0 = 0) : Reaches threshold (total.get 0) s := by
  rw [Reaches, h, countValue_zero, mul_zero]
  exact countValue_nonneg _

theorem ratioOf_zero (h : total.get 0 = 0) : ratioOf s total = 0 := by
  rw [ratioOf, h, countValue_zero, opRatio_zero]

/-- The callers that are kept are right unless there are callers and none of them reaches the fraction. -/
theorem keptCallers_perm (sort : CallerSort) (threshold : ℚ) (total : CountArray) (children : List SymbolEntry) :
    (if (sort.sort children).dropWhile (fun s => ratioOf s total < threshold) ≠ [] then
      (sort.sort children).dropWhile (fun s => ratioOf s total < threshold) else sort.sort children).Perm
      (children.filter fun s => Reaches threshold (total.get 0) s) ↔
    children = [] ∨ ∃ s ∈ children, Reaches threshold (total.get 0) s := by
  have hperm := sort.perm children
  have hsorted : (sort.sort children).Pairwise fun a b => decide (ratioOf b total < threshold) = true →
      decide (ratioOf a total < threshold) = true := by
    refine (sort.sorted children).imp ?_
    intro a b hab hb
    exact decide_eq_true ((ratioOf_mono hab).trans_lt (of_decide_eq_true hb))
  by_cases htotal : total.get 0 = 0
  · -- every count reaches a fraction of zero, and all callers are kept
    have hall : (children.filter fun s => Reaches threshold (total.get 0) s) = children :=
      List.filter_eq_self.mpr fun s _ => decide_eq_true (reaches_zero htotal)
    have hkept : ∀ kept, (kept = [] ∨ kept = sort.sort children) →
        (if kept ≠ [] then kept else sort.sort children) = sort.sort children := by
      rintro kept (rfl | rfl)
      · rfl
      · split
        · rfl
        · rfl
    have hdrop : (sort.sort children).dropWhile (fun s => ratioOf s total < threshold) = [] ∨
        (sort.sort children).dropWhile (fun s => ratioOf s total < threshold) = sort.sort children := by
      simp only [ratioOf_zero htotal]
      by_cases hthreshold : 0 < threshold
      · left
        simp [hthreshold]
      · right
        simp [hthreshold]
    rw [hkept _ hdrop, hall]
    refine iff_of_true hperm ?_
    cases children with
    | nil => exact Or.inl rfl
    | cons s children => exact Or.inr ⟨s, List.mem_cons_self, reaches_zero htotal⟩
  · have hdrop : (sort.sort children).dropWhile (fun s => ratioOf s total < threshold) =
        (sort.sort children).filter fun s => Reaches threshold (total.get 0) s := by
      rw [Sorting.dropWhile_eq_filter hsorted]
      refine List.filter_congr ?_
      intro s _
      simp only [decide_eq_true_eq, ratioOf_lt_iff htotal, not_not]
    have hfilter := hperm.filter fun s => decide (Reaches threshold (total.get 0) s)
    rw [hdrop]
    by_cases hsome : ∃ s ∈ children, Reaches threshold (total.get 0) s
    · obtain ⟨s, hs, hreaches⟩ := hsome
      have hne : (sort.sort children).filter (fun s => Reaches threshold (total.get 0) s) ≠ [] := by
        refine List.ne_nil_of_mem (a := s) ?_
        exact List.mem_filter.mpr ⟨hperm.mem_iff.mpr hs, decide_eq_true hreaches⟩
      rw [if_pos hne]
      exact iff_of_true hfilter (Or.inr ⟨s, hs, hreaches⟩)
    · have hnone : (children.filter fun s => Reaches threshold (total.get 0) s) = [] := by
        refine List.filter_eq_nil_iff.mpr ?_
        intro s hs hreaches
        exact hsome ⟨s, hs, of_decide_eq_true hreaches⟩
      rw [hnone] at hfilter ⊢
      rw [List.perm_nil.mp hfilter, if_neg (not_not.mpr rfl), or_iff_left hsome, List.perm_nil]
      exact ⟨fun h => List.perm_nil.mp (h ▸ hperm.symm), fun h => List.perm_nil.mp (h ▸ hperm)⟩

/-- The callees that are kept are right unless their total is zero. -/
theorem keptCallees_perm (sort : ArcCalleeSort) (threshold : ℚ) (total : CountArray) {children : List SymbolEntry}
    (hne : children ≠ []) :
    (if ((sort.sort children).takeWhile (fun s => threshold ≤ ratioOf s total)).length ≠
        (sort.sort children).length then
      (sort.sort children).takeWhile (fun s => threshold ≤ ratioOf s total) else sort.sort children).Perm
      (children.filter fun s => Reaches threshold (total.get 0) s) ↔ (0 < threshold → total.get 0 ≠ 0) := by
  have hperm := sort.perm children
  have hsorted : (sort.sort children).Pairwise fun a b => decide (threshold ≤ ratioOf b total) = true →
      decide (threshold ≤ ratioOf a total) = true := by
    refine (sort.sorted children).imp ?_
    intro a b hab hb
    exact decide_eq_true ((of_decide_eq_true hb).trans (ratioOf_mono hab))
  have hkept : (if ((sort.sort children).takeWhile (fun s => threshold ≤ ratioOf s total)).length ≠
      (sort.sort children).length then
      (sort.sort children).takeWhile (fun s => threshold ≤ ratioOf s total) else sort.sort children) =
      (sort.sort children).filter fun s => threshold ≤ ratioOf s total := by
    rw [← Sorting.takeWhile_eq_filter hsorted]
    split
    · rfl
    · rename_i hall
      exact ((List.takeWhile_prefix _).eq_of_length (not_not.mp hall)).symm
  have hfilter := hperm.filter fun s => decide (threshold ≤ ratioOf s total)
  rw [hkept, hfilter.congr_left]
  by_cases htotal : total.get 0 = 0
  · have hall : (children.filter fun s => Reaches threshold (total.get 0) s) = children :=
      List.filter_eq_self.mpr fun s _ => decide_eq_true (reaches_zero htotal)
    rw [hall]
    simp only [ratioOf_zero htotal]
    by_cases hthreshold : threshold ≤ 0
    · refine iff_of_true ?_ fun h => absurd h (not_lt.mpr hthreshold)
      simp [hthreshold]
    · refine iff_of_false ?_ fun h => h (not_le.mp hthreshold) htotal
      intro h
      simp only [hthreshold, decide_false, List.filter_false] at h
      exact hne (List.nil_perm.mp h)
  · have heq : (children.filter fun s => threshold ≤ ratioOf s total) =
        children.filter fun s => Reaches threshold (total.get 0) s := by
      refine List.filter_congr ?_
      intro s _
      rw [decide_eq_decide, ← not_lt, ratioOf_lt_iff htotal, not_not]
    rw [heq]
    exact iff_of_true (List.Perm.refl _) fun _ => htotal

end

/-! What is emitted for a symbol. -/

/-- The totals of the counts of all its callers and callees, and those of its children that reach the threshold. -/
structure Exact (host : CgHost) (threshold : ℚ) (entry : SymbolEntry × CgData) (sym : CgSymbol) : Prop where
  symbol : sym.symbol = entry.1
  callerTotal : ∀ c, sym.totalCallerCount.get c = (entry.2.callers.map fun e => e.2.get c).sum
  calleeTotal : ∀ c, sym.totalCalleeCount.get c =
    (entry.2.callees.map fun e => e.2.get c).sum + entry.1.sample.counts.get c
  callers : sym.callers.Perm
    ((childEntries entry.2.callers).filter fun s => Reaches threshold (sym.totalCallerCount.get 0) s)
  callees : sym.callees.Perm
    ((childEntries entry.2.callees ++ [selfEntry host entry.1]).filter fun s =>
      Reaches threshold (sym.totalCalleeCount.get 0) s)

/-- The sums of class 0. -/
def callerSum (entry : SymbolEntry × CgData) : UInt64 := (entry.2.callers.map fun e => e.2.get 0).sum

def calleeSum (entry : SymbolEntry × CgData) : UInt64 :=
  (entry.2.callees.map fun e => e.2.get 0).sum + entry.1.sample.counts.get 0

/-- Some caller reaches the threshold, if there is any, and the callees do not sum up to zero. -/
def Thresholded (threshold : ℚ) (entry : SymbolEntry × CgData) : Prop :=
  (entry.2.callers = [] ∨ ∃ s ∈ childEntries entry.2.callers, Reaches threshold (callerSum entry) s) ∧
  (0 < threshold → calleeSum entry ≠ 0)

section

variable {host : CgHost} {threshold : ℚ} {entry : SymbolEntry × CgData}

theorem get_foldl_add (children : List (SymbolEntry × CountArray)) (start : CountArray) (c : UInt32) :
    (children.foldl (fun total e => total.add e.2) start).get c =
      start.get c + (children.map fun e => e.2.get c).sum := by
  induction children generalizing start with
  | nil => exact (add_zero _).symm
  | cons e children ih => rw [List.foldl_cons, ih, CountArray.get_add, List.map_cons, List.sum_cons, add_assoc]

theorem processSymbol_exact : Exact host threshold entry (processSymbol host threshold entry) ↔
    Thresholded threshold entry := by
  have hcaller : ∀ c, (processSymbol host threshold entry).totalCallerCount.get c =
      (entry.2.callers.map fun e => e.2.get c).sum := by
    intro c
    exact (get_foldl_add _ _ c).trans (zero_add _)
  have hcallee : ∀ c, (processSymbol host threshold entry).totalCalleeCount.get c =
      (entry.2.callees.map fun e => e.2.get c).sum + entry.1.sample.counts.get c := by
    intro c
    refine CountArray.get_add.trans ?_
    congr 1
    exact (get_foldl_add _ _ c).trans (zero_add _)
  have hnil : childEntries entry.2.callers = [] ↔ entry.2.callers = [] := List.map_eq_nil_iff
  have hself : childEntries entry.2.callees ++ [selfEntry host entry.1] ≠ [] := by simp
  have hcallers := keptCallers_perm host.sortCallers threshold (processSymbol host threshold entry).totalCallerCount
    (childEntries entry.2.callers)
  have hcallees := keptCallees_perm host.sortCallees threshold (processSymbol host threshold entry).totalCalleeCount hself
  rw [hnil] at hcallers
  rw [Thresholded, callerSum, ← hcaller, calleeSum, ← hcallee]
  constructor
  · intro h
    exact ⟨hcallers.mp h.callers, hcallees.mp h.callees⟩
  · rintro ⟨hreached, hnonzero⟩
    exact ⟨rfl, hcaller, hcallee, hcallers.mpr hreached, hcallees.mpr hnonzero⟩

end

/-- The arcs are counted alike from both sides. -/
def ArcsAgree (arcs : List ArcAdd) : Prop := ∀ a b c,
  calleesCount (arcsAdded arcs) a b c = callersCount (arcsAdded arcs) a b c ∧
  calleesCount (arcsAdded arcs) a b c = addedBetween arcs a b c

/-- The recorder's arcs and what it emits are exact. -/
def RecordsExactly (host : CgHost) (total : CountArray) (threshold : ℚ) (arcs : List ArcAdd) : Prop :=
  ArcsAgree arcs ∧
  List.Forall₂ (Exact host threshold)
    ((arcsAdded arcs).filter fun entry => Emitted host total threshold entry.1)
    (arcProcess host total threshold (arcsAdded arcs))

theorem arcsAgree (arcs : List ArcAdd) : ArcsAgree arcs := by
  intro a b c
  rw [calleesCount_arcsAdded, callersCount_arcsAdded]
  exact ⟨rfl, rfl⟩

/-- What is emitted is exact where every emitted symbol keeps the arcs that it has to keep. -/
theorem arcProcess_exact (host : CgHost) (total : CountArray) (threshold : ℚ) (symMap : SymMap) :
    List.Forall₂ (Exact host threshold) (symMap.filter fun entry => Emitted host total threshold entry.1)
      (arcProcess host total threshold symMap) ↔
    ∀ entry ∈ symMap, Emitted host total threshold entry.1 → Thresholded threshold entry := by
  rw [arcProcess, List.forall₂_map_right_iff, List.forall₂_same]
  simp only [processSymbol_exact, List.mem_filter, decide_eq_true_eq, and_imp]

/-- The recorder is exact for these arcs and thresholds. -/
theorem arc_recorder_exact_iff (host : CgHost) (total : CountArray) (threshold : ℚ) (arcs : List ArcAdd) :
    RecordsExactly host total threshold arcs ↔
    ∀ entry ∈ arcsAdded arcs, Emitted host total threshold entry.1 → Thresholded threshold entry := by
  rw [RecordsExactly, and_iff_right (arcsAgree arcs)]
  exact arcProcess_exact host total threshold (arcsAdded arcs)

/-! A function with three callers. -/

def plainHost : CgHost where
  sortCallers := Sorting.insertion _ (fun _ _ => UInt64.le_total _ _) fun _ _ _ => UInt64.le_trans
  sortCallees := Sorting.insertion _ (fun _ _ => UInt64.le_total _ _) fun _ _ _ h₁ h₂ => UInt64.le_trans h₂ h₁
  demangle _ := []
  create _ := 0
  symFilter _ := true

def function (name : Nat) (count : UInt64) : SymbolEntry where
  imageName := 1
  appName := 1
  symIndex := 0
  sample := ⟨⟨0, 0⟩, 0, CountArray.empty.set 0 count⟩
  name := name
  size := 16
  spuOffset := 0
  embeddingFilename := 0
  vmaAdj := 0

/-- Three functions call a fourth, once each. -/
def threeCallers : List ArcAdd :=
  [2, 3, 4].map fun name => ⟨function name 0, some (function 1 3), CountArray.empty.set 0 1⟩

/-- None of the callers has half of the calls, and all of them are kept. -/
theorem small_callers_kept : ¬RecordsExactly plainHost (CountArray.empty.set 0 3) (1 / 2) threeCallers := by
  intro h
  have hthree := (arcProcess_exact _ _ _ _).mp h.2
  let called : SymbolEntry × CgData :=
    (function 1 3, ⟨[2, 3, 4].map fun name => (function name 0, CountArray.empty.set 0 1), []⟩)
  have hcalled : called ∈ arcsAdded threeCallers := by decide
  have hemitted : Emitted plainHost (CountArray.empty.set 0 3) (1 / 2) called.1 := by decide +kernel
  have hnone : ∀ s ∈ childEntries called.2.callers, ¬Reaches (1 / 2) (callerSum called) s := by decide +kernel
  rcases (hthree called hcalled hemitted).1 with hempty | ⟨s, hs, hreaches⟩
  · cases hempty
  · exact hnone s hs hreaches

end Oprofile.Libpp
