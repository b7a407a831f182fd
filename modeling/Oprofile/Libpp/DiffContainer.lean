import Oprofile.Library.Joins
import Oprofile.Library.Sorting
import Oprofile.Libpp.Agreement
import Oprofile.Libpp.Ratio

/-! Two profiles against each other (`diff_container.cpp`). -/
namespace Oprofile.Libpp

open SampleNames Joins

theorem lessSymbol_iff {a b : SymbolEntry} : lessSymbol a b = true ↔
    a.imageName < b.imageName ∨ a.imageName = b.imageName ∧ (a.appName < b.appName ∨ a.appName = b.appName ∧
    (a.name < b.name ∨ a.name = b.name ∧ (a.sample.vma.toNat < b.sample.vma.toNat ∨
    a.sample.vma.toNat = b.sample.vma.toNat ∧ a.size.toNat < b.size.toNat))) := by
  rw [lessSymbol]
  split
  · simp only [decide_eq_true_eq]
    omega
  · split
    · simp only [decide_eq_true_eq]
      omega
    · split
      · simp only [decide_eq_true_eq]
        omega
      · split
        · rename_i hvma
          have hne : a.sample.vma.toNat ≠ b.sample.vma.toNat := fun h => hvma (UInt64.toNat_inj.mp h)
          simp only [decide_eq_true_eq, UInt64.lt_iff_toNat_lt]
          omega
        · rename_i hvma
          have heq : a.sample.vma.toNat = b.sample.vma.toNat := congrArg UInt64.toNat (not_not.mp hvma)
          simp only [decide_eq_true_eq, UInt64.lt_iff_toNat_lt]
          omega

theorem lessSymbol_false {a b : SymbolEntry} : lessSymbol a b = false ↔ ¬lessSymbol a b = true := by
  rw [Bool.not_eq_true]

/-- A set sorted by `less_symbol`. -/
def symbolOrder : Sorting.QSort fun a b : SymbolEntry => lessSymbol b a = false :=
  Sorting.insertion _
    (fun a b => by
      simp only [lessSymbol_false, lessSymbol_iff]
      omega)
    (fun a b c => by
      simp only [lessSymbol_false, lessSymbol_iff]
      omega)

/-- The symbols from `begin_symbol` to `end_symbol`. -/
def ProfileContainer.orderedSymbols (pc : ProfileContainer) : List SymbolEntry := symbolOrder.sort pc.symbols

/-- `column_flags` -/
structure ColumnFlags where
  cf64bitVma : Bool
  cfImageName : Bool
  deriving DecidableEq

/-- `output_hint` -/
def SymbolEntry.outputHint (sym : SymbolEntry) (fl : ColumnFlags) : ColumnFlags :=
  let fl := if sym.appName ≠ sym.imageName then { fl with cfImageName := true } else fl
  if sym.sample.vma &&& ~~~0xffffffff ≠ 0 then { fl with cf64bitVma := true } else fl

/-- What a `double` of `diffs` holds, without its rounding. -/
inductive Diff
  | negInfinity
  | infinity
  | percent (value : ℚ)
  deriving DecidableEq

/-- `fabs(diff) < threshold` -/
def Diff.absLess (diff : Diff) (threshold : ℚ) : Bool :=
  match diff with
  | .percent value => |value| < threshold
  | _ => false

structure DiffSymbol where
  symbol : SymbolEntry
  diffs : List Diff

/-- `profile_container::symbol_choice` -/
structure SymbolChoice where
  hints : ColumnFlags
  threshold : ℚ
  matchImage : Bool
  imageName : Text

/-- `choice.hints = sym.output_hint(choice.hints)` -/
def SymbolChoice.hinted (choice : SymbolChoice) (sym : SymbolEntry) : SymbolChoice :=
  { choice with hints := sym.outputHint choice.hints }

/-- `size()` of a `sparse_array` -/
def CountArray.size (a : CountArray) : Nat := (a.container.map fun e => e.1.toNat + 1).foldl max 0

/-- `rough_less` -/
def roughLess (lhs rhs : SymbolEntry) : Bool :=
  if lhs.imageName ≠ rhs.imageName then lhs.imageName < rhs.imageName
  else if lhs.appName ≠ rhs.appName then lhs.appName < rhs.appName
  else if lhs.name ≠ rhs.name then lhs.name < rhs.name
  else false

/-- The collection of diffed symbols and the choice, both changed by each symbol. -/
abbrev DiffState := List DiffSymbol × SymbolChoice

/-- `add_sym`; the names of images are those of `image_names`. -/
def addSym (imageNames : Nat → Text) (sym : DiffSymbol) (state : DiffState) : DiffState :=
  let (syms, choice) := state
  if choice.matchImage ∧ imageNames sym.symbol.imageName ≠ choice.imageName then state
  else if (sym.diffs.getD 0 (.percent 0)).absLess choice.threshold then state
  else (syms ++ [sym], choice.hinted sym.symbol)

/-- The symbol that `symbol_old` adds, that of `symbol_new`, and that of `symbol_diff`. -/
def oldSymbol (sym : SymbolEntry) : DiffSymbol := ⟨sym, List.replicate sym.sample.counts.size .negInfinity⟩

def newSymbol (sym : SymbolEntry) : DiffSymbol := ⟨sym, List.replicate sym.sample.counts.size .infinity⟩

def diffSymbol (total1 total2 : CountArray) (sym1 sym2 : SymbolEntry) : DiffSymbol where
  symbol := sym2
  diffs := (List.range sym2.sample.counts.size).map fun i =>
    let count (counts : CountArray) := countValue (counts.get (UInt32.ofNat i))
    let percent1 := opRatio (count sym1.sample.counts) (count total1)
    let percent2 := opRatio (count sym2.sample.counts) (count total2)
    .percent (opRatio (percent2 - percent1) percent1 * 100)

/-- The loops of `get_symbols`. -/
def diffLoop (imageNames : Nat → Text) (total1 total2 : CountArray) :
    List SymbolEntry → List SymbolEntry → DiffState → DiffState
  | [], it2, state => it2.foldl (fun state sym => addSym imageNames (newSymbol sym) state) state
  | it1, [], state => it1.foldl (fun state sym => addSym imageNames (oldSymbol sym) state) state
  | sym1 :: it1, sym2 :: it2, state =>
    if roughLess sym1 sym2 then
      diffLoop imageNames total1 total2 it1 (sym2 :: it2) (addSym imageNames (oldSymbol sym1) state)
    else if roughLess sym2 sym1 then
      diffLoop imageNames total1 total2 (sym1 :: it1) it2 (addSym imageNames (newSymbol sym2) state)
    else
      diffLoop imageNames total1 total2 it1 it2 (addSym imageNames (diffSymbol total1 total2 sym1 sym2) state)
termination_by it1 it2 => it1.length + it2.length

/-- `diff_container::get_symbols` -/
def diffGetSymbols (imageNames : Nat → Text) (pc1 pc2 : ProfileContainer) (choice : SymbolChoice) : DiffState :=
  diffLoop imageNames pc1.totalCount pc2.totalCount pc1.orderedSymbols pc2.orderedSymbols ([], choice)

/-! The order of the containers and the comparison. -/

/-- Image, application and name. -/
def SymbolEntry.group (sym : SymbolEntry) : Nat × Nat × Nat := (sym.imageName, sym.appName, sym.name)

theorem roughLess_iff {a b : SymbolEntry} : roughLess a b = true ↔
    a.imageName < b.imageName ∨ a.imageName = b.imageName ∧ (a.appName < b.appName ∨ a.appName = b.appName ∧
    a.name < b.name) := by
  rw [roughLess]
  split
  · simp only [decide_eq_true_eq]
    omega
  · split
    · simp only [decide_eq_true_eq]
      omega
    · split
      · simp only [decide_eq_true_eq]
        omega
      · exact iff_of_false Bool.false_ne_true (by omega)

theorem roughLess_false {a b : SymbolEntry} : roughLess a b = false ↔ ¬roughLess a b = true := by
  rw [Bool.not_eq_true]

theorem roughLess_orders : Orders roughLess SymbolEntry.group where
  irrefl a b h := by
    simp only [SymbolEntry.group, Prod.mk.injEq] at h
    simp only [roughLess_false, roughLess_iff]
    omega
  same a b hab hba := by
    simp only [roughLess_false, roughLess_iff] at hab hba
    simp only [SymbolEntry.group, Prod.mk.injEq]
    omega
  trans a b c hab hcb := by
    simp only [roughLess_false, roughLess_iff] at hab hcb ⊢
    omega

/-- The coarse order is consistent with the fine one. -/
theorem orderedSymbols_inOrder (pc : ProfileContainer) : InOrder roughLess pc.orderedSymbols := by
  refine (symbolOrder.sorted pc.symbols).imp ?_
  intro a b hab
  simp only [lessSymbol_false, lessSymbol_iff, roughLess_false, roughLess_iff] at hab ⊢
  omega

/-! Without a threshold and without an image to match. -/

section

variable {imageNames : Nat → Text} {total1 total2 : CountArray} {as bs : List SymbolEntry}

/-- The diffed symbol of an element. -/
def elementSymbol (total1 total2 : CountArray) : Joined SymbolEntry → DiffSymbol
  | .left sym => oldSymbol sym
  | .right sym => newSymbol sym
  | .both sym1 sym2 => diffSymbol total1 total2 sym1 sym2

/-- Everything is wanted. -/
def SymbolChoice.All (choice : SymbolChoice) : Prop := choice.threshold = 0 ∧ choice.matchImage = false

theorem SymbolChoice.All.hinted {choice : SymbolChoice} (h : choice.All) (sym : SymbolEntry) : (choice.hinted sym).All := h

theorem addSym_all (sym : DiffSymbol) {syms : List DiffSymbol} {choice : SymbolChoice} (h : choice.All) :
    addSym imageNames sym (syms, choice) = (syms ++ [sym], choice.hinted sym.symbol) := by
  have hless : (sym.diffs.getD 0 (.percent 0)).absLess choice.threshold = false := by
    rw [h.1]
    cases sym.diffs.getD 0 (.percent 0) with
    | negInfinity => rfl
    | infinity => rfl
    | percent value => exact decide_eq_false (not_lt.mpr (abs_nonneg value))
  have himage : ¬(choice.matchImage ∧ imageNames sym.symbol.imageName ≠ choice.imageName) := by
    rw [h.2]
    exact fun hboth => Bool.false_ne_true hboth.1
  rw [addSym, if_neg himage, hless, if_neg Bool.false_ne_true]

/-- A run of symbols is appended to what there is. -/
theorem foldl_addSym (make : SymbolEntry → DiffSymbol) (l : List SymbolEntry) {syms : List DiffSymbol}
    {choice : SymbolChoice} (h : choice.All) :
    (l.foldl (fun state sym => addSym imageNames (make sym) state) (syms, choice)).1 = syms ++ l.map make := by
  induction l generalizing syms choice with
  | nil => simp
  | cons s l ih =>
    rw [List.foldl_cons, addSym_all _ h]
    rw [ih (h.hinted _)]
    simp

theorem diffLoop_all (as bs : List SymbolEntry) {syms : List DiffSymbol} {choice : SymbolChoice} (h : choice.All) :
    (diffLoop imageNames total1 total2 as bs (syms, choice)).1 =
      syms ++ (join roughLess as bs).map (elementSymbol total1 total2) := by
  induction as, bs using join.induct roughLess generalizing syms choice with
  | case1 bs =>
    rw [diffLoop, foldl_addSym _ _ h, join, List.map_map]
    rfl
  | case2 as has =>
    have hloop : diffLoop imageNames total1 total2 as [] (syms, choice) =
        as.foldl (fun state sym => addSym imageNames (oldSymbol sym) state) (syms, choice) := by
      rw [diffLoop]
      exact has
    rw [hloop, foldl_addSym _ _ h, join_nil_right, List.map_map]
    rfl
  | case3 a as b bs hlt ih =>
    rw [diffLoop, if_pos hlt, addSym_all _ h, ih (h.hinted _), join, if_pos hlt]
    simp [elementSymbol]
  | case4 a as b bs hlt hgt ih =>
    rw [diffLoop, if_neg hlt, if_pos hgt, addSym_all _ h, ih (h.hinted _), join, if_neg hlt, if_pos hgt]
    simp [elementSymbol]
  | case5 a as b bs hlt hgt ih =>
    rw [diffLoop, if_neg hlt, if_neg hgt, addSym_all _ h, ih (h.hinted _), join, if_neg hlt, if_neg hgt]
    simp [elementSymbol]

end

/-- The symbols of a container in one group. -/
def ProfileContainer.ofGroup (pc : ProfileContainer) (g : Nat × Nat × Nat) : List SymbolEntry :=
  pc.orderedSymbols.filter (·.group = g)

/-- Elements that are complete: each group has its pairs and what one container has more of it, every symbol
is in one element, and the two of a pair are of one group. -/
structure Complete (pc1 pc2 : ProfileContainer) (elements : List (Joined SymbolEntry)) : Prop where
  groups : ∀ g, elements.filter (fun e => e.key SymbolEntry.group = g) =
    List.zipWith .both (pc1.ofGroup g) (pc2.ofGroup g) ++
    (((pc1.ofGroup g).drop (pc2.ofGroup g).length).map .left ++
    ((pc2.ofGroup g).drop (pc1.ofGroup g).length).map .right)
  first : elements.filterMap Joined.fst? = pc1.orderedSymbols
  second : elements.filterMap Joined.snd? = pc2.orderedSymbols
  matched : ∀ a b, .both a b ∈ elements → a.group = b.group

/-- Reports without a threshold and without an image to match are complete. -/
theorem diff_complete (imageNames : Nat → Text) (pc1 pc2 : ProfileContainer) (hints : ColumnFlags) (image : Text) :
    ∃ elements, Complete pc1 pc2 elements ∧
      (diffGetSymbols imageNames pc1 pc2 ⟨hints, 0, false, image⟩).1 =
        elements.map (elementSymbol pc1.totalCount pc2.totalCount) := by
  refine ⟨join roughLess pc1.orderedSymbols pc2.orderedSymbols, ?_, ?_⟩
  · exact {
      groups := join_filter roughLess_orders (orderedSymbols_inOrder pc1) (orderedSymbols_inOrder pc2)
      first := join_fst _ _
      second := join_snd _ _
      matched := fun _ _ hmem => key_both roughLess_orders hmem }
  · exact diffLoop_all _ _ ⟨rfl, rfl⟩

end Oprofile.Libpp
