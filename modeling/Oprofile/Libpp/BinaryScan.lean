import Oprofile.Libpp.ModuleSummary

/-! The modules of one binary along the sorted symbol list. -/
namespace Oprofile.Libpp

open SampleNames

def symbolNames (s : ReportSymbol) : Text × Text := (s.appName, s.imageName)

/-- The symbols in the order of their applications, and those of one application in that of their images. -/
def SortedBy (le : Text → Text → Prop) (symbols : List ReportSymbol) : Prop :=
  symbols.Pairwise fun a b => (a.appName ≠ b.appName ∧ le a.appName b.appName) ∨
    (a.appName = b.appName ∧ le a.imageName b.imageName)

/-- The symbols of an application stand together, and so do those of an image in it. -/
structure Contiguous (symbols : List ReportSymbol) : Prop where
  apps : ∀ (i j k : Nat) (a b d : ReportSymbol), i ≤ j → j ≤ k → symbols[i]? = some a → symbols[j]? = some b →
    symbols[k]? = some d → a.appName = d.appName → b.appName = d.appName
  names : ∀ (i j k : Nat) (a b d : ReportSymbol), i ≤ j → j ≤ k → symbols[i]? = some a → symbols[j]? = some b →
    symbols[k]? = some d → symbolNames a = symbolNames d → symbolNames b = symbolNames d

section

variable {le : Text → Text → Prop} {symbols : List ReportSymbol} {s : ReportSymbol} {m : ModuleInfo}
  {modules : List ModuleInfo} {b : BinaryInfo} {a name : Text} {counts : CountArray} {nrClasses n k : Nat}
  {c : UInt32}

theorem contiguous_of_sorted (hle : ∀ a b, le a b → le b a → a = b) (h : SortedBy le symbols) :
    Contiguous symbols := by
  have hpair : ∀ {i j : Nat} {a b : ReportSymbol}, i < j → symbols[i]? = some a → symbols[j]? = some b →
      (a.appName ≠ b.appName ∧ le a.appName b.appName) ∨ (a.appName = b.appName ∧ le a.imageName b.imageName) := by
    intro i j a b hij ha hb
    obtain ⟨hi, rfl⟩ := List.getElem?_eq_some_iff.mp ha
    obtain ⟨hj, rfl⟩ := List.getElem?_eq_some_iff.mp hb
    exact List.pairwise_iff_getElem.mp h i j hi hj hij
  have happs : ∀ (i j k : Nat) (a b d : ReportSymbol), i ≤ j → j ≤ k → symbols[i]? = some a →
      symbols[j]? = some b → symbols[k]? = some d → a.appName = d.appName → b.appName = d.appName := by
    intro i j k a b d hij hjk ha hb hd heq
    rcases Nat.eq_or_lt_of_le hij with rfl | hij
    · obtain rfl := Option.some.inj (ha.symm.trans hb)
      exact heq
    · rcases Nat.eq_or_lt_of_le hjk with rfl | hjk
      · obtain rfl := Option.some.inj (hb.symm.trans hd)
        rfl
      · rcases hpair hij ha hb with ⟨hne, hab⟩ | ⟨hab, -⟩
        · rcases hpair hjk hb hd with ⟨-, hbd⟩ | ⟨hbd, -⟩
          · rw [heq] at hab
            exact hle _ _ hbd hab
          · exact hbd
        · exact hab.symm.trans heq
  refine ⟨happs, fun i j k a b d hij hjk ha hb hd heq => ?_⟩
  obtain ⟨happ, himage⟩ := Prod.mk.inj heq
  have hbapp := happs i j k a b d hij hjk ha hb hd happ
  refine Prod.ext hbapp ?_
  rcases Nat.eq_or_lt_of_le hij with rfl | hij
  · obtain rfl := Option.some.inj (ha.symm.trans hb)
    exact himage
  · rcases Nat.eq_or_lt_of_le hjk with rfl | hjk
    · obtain rfl := Option.some.inj (hb.symm.trans hd)
      rfl
    · obtain ⟨-, hab⟩ := (hpair hij ha hb).resolve_left fun h => h.1 (happ.trans hbapp.symm)
      obtain ⟨-, hbd⟩ := (hpair hjk hb hd).resolve_left fun h => h.1 hbapp
      rw [himage] at hab
      exact hle _ _ hbd hab

/-- A module of an application lists exactly the symbols of its names before the place of the pass. -/
structure Follows (symbols : List ReportSymbol) (nrClasses n : Nat) (a : Text) (m : ModuleInfo) : Prop where
  range : m.lo = 0 ∧ m.hi = nrClasses - 1
  ends : ∀ e, m.endSym = some e → e < n
  lists : (m.beginSym = none ∧ (∀ c, m.summary.get c = 0) ∧
      ∀ (k : Nat) (s : ReportSymbol), k < n → symbols[k]? = some s → symbolNames s ≠ (a, m.name)) ∨
    ∃ b, m.beginSym = some b ∧ b < m.endSym.getD n ∧
      (∀ (k : Nat) (s : ReportSymbol), k < n → symbols[k]? = some s →
        (b ≤ k ∧ k < m.endSym.getD n ↔ symbolNames s = (a, m.name))) ∧
      ∀ c, m.summary.get c = if InRange 0 (nrClasses - 1) c then countsSum symbols b (m.endSym.getD n) c else 0

theorem stop_none {m : ModuleInfo} (h : m.endSym = none) : m.endSym.getD n = n := by
  rw [h]
  rfl

theorem stop_some {m : ModuleInfo} {e : Nat} (h : m.endSym = some e) : m.endSym.getD n = e := by
  rw [h]
  rfl

/-- Once closed, a module has nothing to do with symbols of other names. -/
theorem Follows.close (h : Follows symbols nrClasses n a m) (hs : symbols[n]? = some s)
    (hother : symbolNames s ≠ (a, m.name)) : Follows symbols nrClasses (n + 1) a (m.setEnd n) := by
  have hstop : (m.setEnd n).endSym.getD (n + 1) = m.endSym.getD n := stop_some setEnd_endSym
  have hle : m.endSym.getD n ≤ n := by
    cases hend : m.endSym with
    | none => exact Nat.le_refl n
    | some e => exact Nat.le_of_lt (h.ends e hend)
  refine ⟨by rw [setEnd_lo, setEnd_hi]; exact h.range, fun e he => ?_, ?_⟩
  · rw [setEnd_endSym] at he
    obtain rfl := Option.some.inj he
    omega
  · rw [hstop, setEnd_beginSym, setEnd_name, setEnd_summary]
    rcases h.lists with ⟨hnone, hzero, hnot⟩ | ⟨b, hb, hlt, hnames, hsum⟩
    · refine Or.inl ⟨hnone, hzero, fun k s' hk hs' => ?_⟩
      rcases Nat.lt_succ_iff_lt_or_eq.mp hk with hk | rfl
      · exact hnot k s' hk hs'
      · obtain rfl := Option.some.inj (hs.symm.trans hs')
        exact hother
    · refine Or.inr ⟨b, hb, hlt, fun k s' hk hs' => ?_, hsum⟩
      rcases Nat.lt_succ_iff_lt_or_eq.mp hk with hk | rfl
      · exact hnames k s' hk hs'
      · obtain rfl := Option.some.inj (hs.symm.trans hs')
        exact ⟨fun hin => by omega, fun heq => absurd heq hother⟩

theorem setEnd_closed (h : m.endSym ≠ none) : m.setEnd n = m := by
  rw [ModuleInfo.setEnd, if_neg h]

theorem Follows.skip (h : Follows symbols nrClasses n a m) (hs : symbols[n]? = some s)
    (hother : symbolNames s ≠ (a, m.name)) (hclosed : m.beginSym = none ∨ m.endSym ≠ none) :
    Follows symbols nrClasses (n + 1) a m := by
  by_cases hend : m.endSym = none
  · have hbegin := hclosed.resolve_right (not_not.mpr hend)
    refine ⟨h.range, fun e he => Nat.lt_succ_of_lt (h.ends e he), ?_⟩
    rcases h.lists with ⟨hnone, hzero, hnot⟩ | ⟨b, hb, -⟩
    · refine Or.inl ⟨hnone, hzero, fun k s' hk hs' => ?_⟩
      rcases Nat.lt_succ_iff_lt_or_eq.mp hk with hk | rfl
      · exact hnot k s' hk hs'
      · obtain rfl := Option.some.inj (hs.symm.trans hs')
        exact hother
    · rw [hbegin] at hb
      cases hb
  · have hclose := h.close hs hother
    rwa [setEnd_closed hend] at hclose

/-- An open module takes the next symbol of its names. -/
theorem Follows.extend (h : Follows symbols nrClasses n a m) (hnr : nrClasses ≤ 2 ^ 32) (hs : symbols[n]? = some s)
    (hnames : symbolNames s = (a, m.name)) (hbegin : m.beginSym ≠ none) (hopen : m.endSym = none) :
    Follows symbols nrClasses (n + 1) a (m.addToSummary s.counts) := by
  have hfits : m.hi < 2 ^ 32 := by
    rw [h.range.2]
    omega
  refine ⟨h.range, fun e he => ?_, ?_⟩
  · change m.endSym = some e at he
    rw [hopen] at he
    cases he
  · rcases h.lists with ⟨hnone, -⟩ | ⟨b, hb, hlt, hin, hsum⟩
    · exact absurd hnone hbegin
    · rw [stop_none hopen] at hlt hin hsum
      refine Or.inr ⟨b, hb, ?_, fun k s' hk hs' => ?_, fun c => ?_⟩
      · change b < m.endSym.getD (n + 1)
        rw [stop_none hopen]
        omega
      · change b ≤ k ∧ k < m.endSym.getD (n + 1) ↔ symbolNames s' = (a, m.name)
        rw [stop_none hopen]
        rcases Nat.lt_succ_iff_lt_or_eq.mp hk with hk | rfl
        · rw [← hin k s' hk hs']
          omega
        · obtain rfl := Option.some.inj (hs.symm.trans hs')
          exact ⟨fun _ => hnames, fun _ => ⟨by omega, hk⟩⟩
      · change (m.addToSummary s.counts).summary.get c =
          if InRange 0 (nrClasses - 1) c then countsSum symbols b (m.endSym.getD (n + 1)) c else 0
        rw [get_addToSummary hfits, hsum, h.range.1, h.range.2, stop_none hopen,
          countsSum_succ hs (Nat.le_of_lt hlt)]
        split_ifs <;> simp

/-- A module that begins with the first symbol of its names. -/
theorem follows_begin (hnr : nrClasses ≤ 2 ^ 32) (hs : symbols[n]? = some s) (hnames : symbolNames s = (a, m.name))
    (hnot : ∀ (k : Nat) (s' : ReportSymbol), k < n → symbols[k]? = some s' → symbolNames s' ≠ (a, m.name))
    (hrange : m.lo = 0 ∧ m.hi = nrClasses - 1) (hbegin : m.beginSym = some n) (hopen : m.endSym = none)
    (hzero : ∀ c, m.summary.get c = 0) : Follows symbols nrClasses (n + 1) a (m.addToSummary s.counts) := by
  have hfits : m.hi < 2 ^ 32 := by
    rw [hrange.2]
    omega
  refine ⟨hrange, fun e he => ?_, Or.inr ⟨n, hbegin, ?_, fun k s' hk hs' => ?_, fun c => ?_⟩⟩
  · change m.endSym = some e at he
    rw [hopen] at he
    cases he
  · change n < m.endSym.getD (n + 1)
    rw [stop_none hopen]
    exact Nat.lt_succ_self n
  · change n ≤ k ∧ k < m.endSym.getD (n + 1) ↔ symbolNames s' = (a, m.name)
    rw [stop_none hopen]
    rcases Nat.lt_succ_iff_lt_or_eq.mp hk with hlt | rfl
    · exact ⟨fun hin => by omega, fun heq => absurd heq (hnot k s' hlt hs')⟩
    · obtain rfl := Option.some.inj (hs.symm.trans hs')
      exact ⟨fun _ => hnames, fun _ => ⟨Nat.le_refl k, hk⟩⟩
  · change (m.addToSummary s.counts).summary.get c =
      if InRange 0 (nrClasses - 1) c then countsSum symbols n (m.endSym.getD (n + 1)) c else 0
    rw [get_addToSummary hfits, hzero, hrange.1, hrange.2, stop_none hopen, countsSum_succ hs (Nat.le_refl n),
      countsSum_self]
    split_ifs <;> simp

/-- What is open has the names of the symbol before the place of the pass, and what has them is open. -/
theorem Follows.of_open (h : Follows symbols nrClasses n a m) (hbegin : m.beginSym ≠ none) (hopen : m.endSym = none)
    (hs : symbols[n - 1]? = some s) : symbolNames s = (a, m.name) := by
  rcases h.lists with ⟨hnone, -⟩ | ⟨b, hb, hlt, hin, -⟩
  · exact absurd hnone hbegin
  · rw [stop_none hopen] at hlt hin
    exact (hin (n - 1) s (by omega) hs).mp ⟨by omega, by omega⟩

theorem Follows.open_of_names (h : Follows symbols nrClasses n a m) (hcontiguous : Contiguous symbols)
    (hs : symbols[n]? = some s) (hnames : symbolNames s = (a, m.name)) (hbegin : m.beginSym ≠ none) :
    m.endSym = none := by
  rcases h.lists with ⟨hnone, -⟩ | ⟨b, hb, hlt, hin, -⟩
  · exact absurd hnone hbegin
  · cases hend : m.endSym with
    | none => rfl
    | some e =>
      have he := h.ends e hend
      rw [stop_some hend] at hlt hin
      have hlength := (List.getElem?_eq_some_iff.mp hs).1
      have hb' : symbols[b]? = some symbols[b] := List.getElem?_eq_getElem (by omega)
      have hprev : symbols[n - 1]? = some symbols[n - 1] := List.getElem?_eq_getElem (by omega)
      have hsame := hcontiguous.names b (n - 1) n _ _ s (by omega) (by omega) hb' hprev hs
        (((hin b _ (by omega) hb').mp ⟨Nat.le_refl b, hlt⟩).trans hnames.symm)
      have hlast := (hin (n - 1) _ (by omega) hprev).mpr (hsame.trans hnames)
      omega

end

end Oprofile.Libpp
