import Oprofile.Libpp.XmlModules

/-! Summaries of modules and the counts of the symbols that they list. -/
namespace Oprofile.Libpp

open SampleNames

/-- Whether a class is one of a range. -/
def InRange (lo hi : Nat) (c : UInt32) : Prop := lo ≤ c.toNat ∧ c.toNat ≤ hi

instance (lo hi : Nat) (c : UInt32) : Decidable (InRange lo hi c) := inferInstanceAs (Decidable (_ ∧ _))

/-- The counts of the symbols from place `b` to before place `e`. -/
def countsSum (symbols : List ReportSymbol) (b e : Nat) (c : UInt32) : UInt64 :=
  (((symbols.take e).drop b).map fun s => s.counts.get c).sum

/-- The summary of a module is the sum over the symbols that it lists. -/
def ModuleOk (symbols : List ReportSymbol) (m : ModuleInfo) : Prop :=
  (m.beginSym = none ∧ ∀ c, m.summary.get c = 0) ∨
  ∃ b e, m.beginSym = some b ∧ m.endSym = some e ∧ e ≤ symbols.length ∧
    ∀ c, m.summary.get c = if InRange m.lo m.hi c then countsSum symbols b e c else 0

/-- One of the modules lists the symbol, and it has the symbol's image name. -/
def ListedOnce (modules : List ModuleInfo) (name : Text) (k : Nat) : Prop :=
  ∃ (i : Nat) (m : ModuleInfo), modules[i]? = some m ∧ m.Lists k ∧ m.name = name ∧
    ∀ (j : Nat) (m' : ModuleInfo), modules[j]? = some m' → m'.Lists k → j = i

section

variable {symbols : List ReportSymbol} {s : ReportSymbol} {m : ModuleInfo} {modules : List ModuleInfo}
  {counts summary : CountArray} {lo hi b e n it k : Nat} {c : UInt32}

theorem countsSum_self : countsSum symbols n n c = 0 := by
  rw [countsSum, List.drop_eq_nil_of_le ((List.length_take_le _ _))]
  rfl

theorem countsSum_succ (hs : symbols[n]? = some s) (hb : b ≤ n) :
    countsSum symbols b (n + 1) c = countsSum symbols b n c + s.counts.get c := by
  have hlt := (List.getElem?_eq_some_iff.mp hs).1
  rw [countsSum, countsSum, List.take_add_one, hs, List.drop_append_of_le_length]
  · simp
  · rw [List.length_take]
    omega

/-- The loop of `add_to_summary` adds the count of every class once. -/
theorem get_addLoop (n lo : Nat) (h : lo + n ≤ 2 ^ 32) (summary : CountArray) :
    ((List.range' lo n).foldl
      (fun summary pclass => summary.addAt (UInt32.ofNat pclass) (counts.get (UInt32.ofNat pclass))) summary).get c =
      summary.get c + if lo ≤ c.toNat ∧ c.toNat < lo + n then counts.get c else 0 := by
  induction n generalizing lo summary with
  | zero =>
    have hnot : ¬(lo ≤ c.toNat ∧ c.toNat < lo + 0) := by omega
    rw [if_neg hnot]
    exact (add_zero _).symm
  | succ n ih =>
    rw [List.range'_succ, List.foldl_cons, ih (lo + 1) (by omega), CountArray.get_addAt]
    have hlo : (UInt32.ofNat lo).toNat = lo := UInt32.toNat_ofNat_of_lt' (show lo < 2 ^ 32 by omega)
    by_cases hc : c = UInt32.ofNat lo
    · have hnat : c.toNat = lo := by rw [hc, hlo]
      rw [if_pos hc, if_neg (by omega), if_pos (by omega), hc, add_zero]
    · have hne : c.toNat ≠ lo := fun hnat => hc (UInt32.toNat_inj.mp (by rw [hnat, hlo]))
      rw [if_neg hc, add_zero]
      congr 1
      by_cases hin : lo + 1 ≤ c.toNat ∧ c.toNat < lo + 1 + n
      · rw [if_pos hin, if_pos (by omega)]
      · rw [if_neg hin, if_neg (by omega)]

theorem get_addToSummary (h : m.hi < 2 ^ 32) : (m.addToSummary counts).summary.get c =
    m.summary.get c + if InRange m.lo m.hi c then counts.get c else 0 := by
  rw [ModuleInfo.addToSummary]
  by_cases hle : m.lo ≤ m.hi
  · rw [get_addLoop _ _ (by omega)]
    congr 1
    by_cases hin : InRange m.lo m.hi c
    · rw [if_pos hin, if_pos ⟨hin.1, by have := hin.2; omega⟩]
    · rw [if_neg hin, if_neg fun h => hin ⟨h.1, by omega⟩]
  · have hzero : m.hi + 1 - m.lo = 0 := by omega
    have hout : ¬InRange m.lo m.hi c := fun hin => hle (Nat.le_trans hin.1 hin.2)
    rw [hzero, if_neg hout]
    exact (add_zero _).symm

theorem hasSampleCounts_iff (h : hi < 2 ^ 32) :
    hasSampleCounts counts lo hi = true ↔ ∃ c, InRange lo hi c ∧ counts.get c ≠ 0 := by
  rw [hasSampleCounts, List.any_eq_true]
  constructor
  · rintro ⟨i, hi', hne⟩
    rw [List.mem_range'_1] at hi'
    have hnat : (UInt32.ofNat i).toNat = i := UInt32.toNat_ofNat_of_lt' (show i < 2 ^ 32 by omega)
    exact ⟨UInt32.ofNat i, ⟨by omega, by omega⟩, of_decide_eq_true hne⟩
  · rintro ⟨c, ⟨hlo, hhi⟩, hne⟩
    refine ⟨c.toNat, List.mem_range'_1.mpr ⟨hlo, by omega⟩, decide_eq_true ?_⟩
    rwa [UInt32.ofNat_toNat]

/-- A symbol without counts in the range adds nothing. -/
theorem get_eq_zero_of_not_has (h : hi < 2 ^ 32) (hnone : hasSampleCounts counts lo hi = false)
    (hc : InRange lo hi c) : counts.get c = 0 := by
  by_contra hne
  have hhas := (hasSampleCounts_iff h).mpr ⟨c, hc, hne⟩
  rw [hnone] at hhas
  cases hhas

theorem modifyLast_append {f : ModuleInfo → ModuleInfo} (modules : List ModuleInfo) (m : ModuleInfo) :
    modifyLast f (modules ++ [m]) = modules ++ [f m] := by
  rw [modifyLast, List.length_append]
  change (modules ++ [m]).modify modules.length f = _
  induction modules with
  | nil => rfl
  | cons a modules ih => exact congrArg (a :: ·) ih

theorem lastName_append (modules : List ModuleInfo) (m : ModuleInfo) : lastName (modules ++ [m]) = m.name := by
  rw [lastName, List.getLast?_concat]
  rfl

@[simp] theorem setEnd_name : (m.setEnd e).name = m.name := by
  rw [ModuleInfo.setEnd]
  split_ifs <;> rfl

@[simp] theorem setEnd_beginSym : (m.setEnd e).beginSym = m.beginSym := by
  rw [ModuleInfo.setEnd]
  split_ifs <;> rfl

@[simp] theorem setEnd_summary : (m.setEnd e).summary = m.summary := by
  rw [ModuleInfo.setEnd]
  split_ifs <;> rfl

@[simp] theorem setEnd_lo : (m.setEnd e).lo = m.lo := by
  rw [ModuleInfo.setEnd]
  split_ifs <;> rfl

@[simp] theorem setEnd_hi : (m.setEnd e).hi = m.hi := by
  rw [ModuleInfo.setEnd]
  split_ifs <;> rfl

theorem setEnd_endSym : (m.setEnd e).endSym = some (m.endSym.getD e) := by
  rw [ModuleInfo.setEnd]
  cases h : m.endSym with
  | none => rfl
  | some e' => exact h

end

end Oprofile.Libpp
