import Oprofile.Libpp.Agreement
import Oprofile.Libpp.Callgraph

/-! What the recorder counts for a pair of symbols. -/
namespace Oprofile.Libpp

section

variable {V : Type} {s t : SymbolEntry} {f : V → V} {init : V} {map : List (SymbolEntry × V)}

/-- After an update the symbol has the changed value, and every other symbol what it had. -/
theorem findSymbol_updateSymbol : findSymbol s (updateSymbol t f init map) =
    if SameSymbol t s then some (f ((findSymbol s map).getD init)) else findSymbol s map := by
  induction map with
  | nil =>
    rw [updateSymbol, findSymbol, List.find?_cons]
    split_ifs with h
    · simp only [h, decide_true]
      rfl
    · simp only [h, decide_false]
      rfl
  | cons e map ih =>
    obtain ⟨u, v⟩ := e
    rw [findSymbol] at ih
    rw [updateSymbol]
    by_cases hut : SameSymbol u t
    · rw [if_pos hut, findSymbol, findSymbol, List.find?_cons, List.find?_cons]
      by_cases hts : SameSymbol t s
      · rw [if_pos hts, decide_eq_true (hut.trans hts)]
        rfl
      · have hus : ¬SameSymbol u s := fun h => hts (hut.symm.trans h)
        rw [if_neg hts, decide_eq_false hus]
    · rw [if_neg hut, findSymbol, findSymbol, List.find?_cons, List.find?_cons]
      by_cases hus : SameSymbol u s
      · have hts : ¬SameSymbol t s := fun h => hut (hus.trans h.symm)
        rw [if_neg hts, decide_eq_true hus]
      · rw [decide_eq_false hus]
        exact ih

end

/-- The count that a caller has for a callee, and that a callee has for a caller. -/
def calleesCount (symMap : SymMap) (caller callee : SymbolEntry) (c : UInt32) : UInt64 :=
  ((findSymbol callee ((findSymbol caller symMap).getD ⟨[], []⟩).callees).getD .empty).get c

def callersCount (symMap : SymMap) (caller callee : SymbolEntry) (c : UInt32) : UInt64 :=
  ((findSymbol caller ((findSymbol callee symMap).getD ⟨[], []⟩).callers).getD .empty).get c

section

variable {symMap : SymMap} {a b caller callee : SymbolEntry} {arcCount : CountArray} {c pclass : UInt32}

/-- An arc is counted on both sides of its own two symbols, and nowhere else. -/
theorem calleesCount_recordArc : calleesCount (recordArc symMap a b arcCount) caller callee c =
    calleesCount symMap caller callee c +
      if SameSymbol a caller ∧ SameSymbol b callee then arcCount.get c else 0 := by
  rw [calleesCount, calleesCount, recordArc]
  simp only [findSymbol_updateSymbol]
  by_cases ha : SameSymbol a caller <;> by_cases hb : SameSymbol b caller <;>
    by_cases hc : SameSymbol b callee <;>
    simp [ha, hb, hc, findSymbol_updateSymbol]

theorem callersCount_recordArc : callersCount (recordArc symMap a b arcCount) caller callee c =
    callersCount symMap caller callee c +
      if SameSymbol a caller ∧ SameSymbol b callee then arcCount.get c else 0 := by
  rw [callersCount, callersCount, recordArc]
  simp only [findSymbol_updateSymbol]
  by_cases ha : SameSymbol a callee <;> by_cases hb : SameSymbol b callee <;>
    by_cases hc : SameSymbol a caller <;>
    simp [ha, hb, hc, findSymbol_updateSymbol]

end

/-- The samples of the calls, each with the places of its caller and callee. -/
def attributions (calls : List ArcCall) : List (Nat × Nat × Sample) :=
  calls.flatMap fun call => call.samples.map fun s => (call.caller, call.callee, s)

/-- The sum of the samples of the arcs between two symbols. -/
def arcTotal (callers callees : Nat → SymbolEntry) (caller callee : SymbolEntry)
    (attributed : List (Nat × Nat × Sample)) : UInt64 :=
  ((attributed.filter fun a => SameSymbol (callers a.1) caller ∧ SameSymbol (callees a.2.1) callee).map
    fun a => a.2.2.2).sum

section

variable {callers callees : Nat → SymbolEntry} {caller callee : SymbolEntry} {c pclass : UInt32}

theorem arcTotal_cons (call : ArcCall) (calls : List ArcCall) :
    arcTotal callers callees caller callee (attributions (call :: calls)) =
      (if SameSymbol (callers call.caller) caller ∧ SameSymbol (callees call.callee) callee then
        accumulate call.samples else 0) + arcTotal callers callees caller callee (attributions calls) := by
  rw [arcTotal, attributions, List.flatMap_cons, List.filter_append, List.map_append, List.sum_append]
  congr 1
  rw [List.filter_map, List.map_map]
  split_ifs with h
  · rw [accumulate_eq_sum, List.filter_eq_self.mpr fun _ _ => by exact decide_eq_true h]
    rfl
  · rw [List.filter_eq_nil_iff.mpr fun _ _ => by exact fun hcall => h (of_decide_eq_true hcall)]
    rfl

theorem get_set_empty {value : UInt64} :
    (CountArray.empty.set pclass value).get c = if c = pclass then value else 0 := by
  rw [CountArray.get_set, CountArray.get_empty]

/-- The calls add their samples to any count that an arc adds its own to. -/
theorem count_calls (count : SymMap → UInt64)
    (harc : ∀ symMap a b arcCount, count (recordArc symMap a b arcCount) =
      count symMap + if SameSymbol a caller ∧ SameSymbol b callee then arcCount.get c else 0)
    (calls : List ArcCall) (symMap : SymMap) :
    count (calls.foldl (fun symMap call => recordArc symMap (callers call.caller) (callees call.callee)
        (CountArray.empty.set pclass (accumulate call.samples))) symMap) =
      count symMap + if c = pclass then arcTotal callers callees caller callee (attributions calls) else 0 := by
  induction calls generalizing symMap with
  | nil =>
    have hnone : arcTotal callers callees caller callee (attributions []) = 0 := rfl
    rw [List.foldl_nil, hnone, ite_self, add_zero]
  | cons call calls ih =>
    rw [List.foldl_cons, ih, harc, get_set_empty, arcTotal_cons, add_assoc]
    split_ifs <;> simp

end

end Oprofile.Libpp
