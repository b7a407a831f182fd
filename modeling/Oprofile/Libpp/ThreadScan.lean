import Oprofile.Libpp.ModuleSummary

/-! The modules of one thread along the symbol list. -/
namespace Oprofile.Libpp

open SampleNames

/-- What the pass over the symbols leaves of a thread, up to a place. -/
def scanTo (symbols : List ReportSymbol) (t : ThreadModules) (n : Nat) : ThreadModules :=
  (symbols.take n).zipIdx.foldl (fun t s => (t.addModules s.1.imageName s.2 s.1.counts).1) t

/-- Between two symbols of one image that have counts in the range, with no counts of another image between
them, stands no symbol of another image. -/
def Unbroken (symbols : List ReportSymbol) (lo hi : Nat) : Prop :=
  ∀ (i j k : Nat) (a b d : ReportSymbol), i < j → j < k →
    symbols[i]? = some a → symbols[j]? = some b → symbols[k]? = some d →
    hasSampleCounts a.counts lo hi = true → hasSampleCounts d.counts lo hi = true → d.imageName = a.imageName →
    (∀ (l : Nat) (s : ReportSymbol), i < l → l < k → symbols[l]? = some s →
      hasSampleCounts s.counts lo hi = true → s.imageName = a.imageName) →
    b.imageName = a.imageName

section

variable {symbols : List ReportSymbol} {s : ReportSymbol} {t : ThreadModules} {m : ModuleInfo}
  {modules : List ModuleInfo} {counts : CountArray} {module : Text} {lo hi b e n it i j k : Nat} {c : UInt32}

theorem scanTo_zero : scanTo symbols t 0 = t := rfl

theorem scanTo_succ (hs : symbols[n]? = some s) :
    scanTo symbols t (n + 1) = ((scanTo symbols t n).addModules s.imageName n s.counts).1 := by
  have hlt := (List.getElem?_eq_some_iff.mp hs).1
  rw [scanTo, List.take_add_one, hs, Option.toList_some, List.zipIdx_append, List.foldl_append,
    List.length_take, Nat.min_eq_left (Nat.le_of_lt hlt)]
  simp only [Nat.zero_add]
  rfl

/-- The module that a symbol opens. -/
def openedModule (t : ThreadModules) (module : Text) (it : Nat) (counts : CountArray) : ModuleInfo :=
  (ModuleInfo.new.buildModule module it t.thread.lo t.thread.hi).addToSummary counts

/-- The modules that a symbol opens when none of its image is the last: one if it has counts. -/
def opened (t : ThreadModules) (module : Text) (it : Nat) (counts : CountArray) : List ModuleInfo :=
  if hasSampleCounts counts t.thread.lo t.thread.hi then [openedModule t module it counts] else []

theorem addModules_thread : (t.addModules module it counts).1.thread = t.thread := by
  rw [ThreadModules.addModules]
  split_ifs <;> rfl

theorem addModules_summary : (t.addModules module it counts).1.summary = t.summary := by
  rw [ThreadModules.addModules]
  split_ifs <;> rfl

theorem addModules_nil (h : t.modules = []) :
    (t.addModules module it counts).1.modules = opened t module it counts := by
  obtain ⟨thread, summary, modules⟩ := t
  obtain rfl : modules = [] := h
  simp only [ThreadModules.addModules, ne_eq, not_true_eq_false, false_and, if_false, true_or, if_true, opened]
  split_ifs <;> rfl

/-- A symbol of the last module's image is added to it, closed or not. -/
theorem addModules_same (h : t.modules = modules ++ [m]) (hname : m.name = module) :
    (t.addModules module it counts).1.modules = modules ++ [m.addToSummary counts] := by
  obtain ⟨thread, summary, modules'⟩ := t
  obtain rfl : modules' = modules ++ [m] := h
  simp only [ThreadModules.addModules, lastName_append, hname, ne_eq, not_true_eq_false, and_false, if_false,
    List.concat_ne_nil, or_false, modifyLast_append]

/-- A symbol of another image closes the last module. -/
theorem addModules_other (h : t.modules = modules ++ [m]) (hname : m.name ≠ module) :
    (t.addModules module it counts).1.modules = modules ++ [m.setEnd it] ++ opened t module it counts := by
  obtain ⟨thread, summary, modules'⟩ := t
  obtain rfl : modules' = modules ++ [m] := h
  have hclose : (if ¬m.isClosed m.name = true then m.setEnd it else m) = m.setEnd it := by
    split_ifs with hclosed
    · have hend : m.endSym ≠ none := (of_decide_eq_true hclosed).2
      rw [ModuleInfo.setEnd, if_neg hend]
    · rfl
  simp only [ThreadModules.addModules, lastName_append, hname, Ne.symm hname, ne_eq, List.concat_ne_nil,
    not_false_eq_true, and_true, if_true, or_true, modifyLast_append, hclose, opened]
  split_ifs
  · rfl
  · exact (List.append_nil _).symm

theorem scanTo_thread (hn : n ≤ symbols.length) : (scanTo symbols t n).thread = t.thread := by
  induction n with
  | zero => rfl
  | succ n ih =>
    rw [scanTo_succ (List.getElem?_eq_getElem hn), addModules_thread]
    exact ih (by omega)

theorem scanTo_summary (hn : n ≤ symbols.length) : (scanTo symbols t n).summary = t.summary := by
  induction n with
  | zero => rfl
  | succ n ih =>
    rw [scanTo_succ (List.getElem?_eq_getElem hn), addModules_summary]
    exact ih (by omega)

/-- The module lists symbols of its image from a first one with counts on, and sums them. -/
structure Segment (symbols : List ReportSymbol) (lo hi : Nat) (m : ModuleInfo) (b e : Nat) : Prop where
  beginSym : m.beginSym = some b
  range : m.lo = lo ∧ m.hi = hi
  lt : b < e
  names : ∀ (k : Nat) (s : ReportSymbol), symbols[k]? = some s → b ≤ k → k < e → s.imageName = m.name
  opens : ∃ s, symbols[b]? = some s ∧ hasSampleCounts s.counts lo hi = true
  summary : ∀ c, m.summary.get c = if InRange lo hi c then countsSum symbols b e c else 0

/-- The modules one behind the other, an open one up to the place of the pass, list all symbols with counts. -/
structure Scanned (symbols : List ReportSymbol) (lo hi n : Nat) (modules : List ModuleInfo) : Prop where
  each : ∀ m ∈ modules, ∃ b, Segment symbols lo hi m b (m.endSym.getD n) ∧ m.endSym.getD n ≤ n
  apart : modules.Pairwise fun a b => ∃ e q, a.endSym = some e ∧ b.beginSym = some q ∧ e ≤ q
  covered : ∀ (k : Nat) (s : ReportSymbol), k < n → symbols[k]? = some s → hasSampleCounts s.counts lo hi = true →
    ∃ m ∈ modules, ∃ b, m.beginSym = some b ∧ b ≤ k ∧ k < m.endSym.getD n

def AllClosed (modules : List ModuleInfo) : Prop := ∀ m ∈ modules, ∃ e, m.endSym = some e

theorem Scanned.front_closed (h : Scanned symbols lo hi n (modules ++ [m])) : AllClosed modules := by
  intro a ha
  obtain ⟨e, q, he, -, -⟩ := (List.pairwise_append.mp h.apart).2.2 a ha m (List.mem_singleton_self m)
  exact ⟨e, he⟩

theorem getD_closed {m : ModuleInfo} (h : m.endSym = some e) : m.endSym.getD n = e := by
  rw [h]
  rfl

theorem Scanned.close (h : Scanned symbols lo hi n (modules ++ [m])) :
    Scanned symbols lo hi n (modules ++ [m.setEnd n]) ∧ AllClosed (modules ++ [m.setEnd n]) := by
  have hstop : (m.setEnd n).endSym.getD n = m.endSym.getD n := getD_closed setEnd_endSym
  refine ⟨⟨fun a ha => ?_, ?_, fun k s hk hs hhas => ?_⟩, fun a ha => ?_⟩
  · rcases List.mem_append.mp ha with ha | ha
    · exact h.each a (List.mem_append_left _ ha)
    · obtain rfl := List.mem_singleton.mp ha
      obtain ⟨b, hseg, hle⟩ := h.each m (List.mem_append_right _ (List.mem_singleton_self m))
      rw [hstop]
      exact ⟨b, ⟨setEnd_beginSym.trans hseg.beginSym, ⟨setEnd_lo.trans hseg.range.1, setEnd_hi.trans hseg.range.2⟩,
        hseg.lt, fun k s hs hb he => (hseg.names k s hs hb he).trans setEnd_name.symm, hseg.opens,
        fun c => by rw [setEnd_summary]; exact hseg.summary c⟩, hle⟩
  · obtain ⟨hfront, -, hlast⟩ := List.pairwise_append.mp h.apart
    refine List.pairwise_append.mpr ⟨hfront, List.pairwise_singleton _ _, fun a ha d hd => ?_⟩
    obtain rfl := List.mem_singleton.mp hd
    obtain ⟨e, q, he, hq, hle⟩ := hlast a ha m (List.mem_singleton_self m)
    exact ⟨e, q, he, setEnd_beginSym.trans hq, hle⟩
  · obtain ⟨a, ha, b, hb, hbk, hka⟩ := h.covered k s hk hs hhas
    rcases List.mem_append.mp ha with ha | ha
    · exact ⟨a, List.mem_append_left _ ha, b, hb, hbk, hka⟩
    · obtain rfl := List.mem_singleton.mp ha
      exact ⟨_, List.mem_append_right _ (List.mem_singleton_self _), b, setEnd_beginSym.trans hb, hbk,
        by rwa [hstop]⟩
  · rcases List.mem_append.mp ha with ha | ha
    · exact h.front_closed a ha
    · obtain rfl := List.mem_singleton.mp ha
      exact ⟨_, setEnd_endSym⟩

/-- A symbol without counts in the range leaves closed modules as they are. -/
theorem Scanned.skip (h : Scanned symbols lo hi n modules) (hclosed : AllClosed modules)
    (hs : symbols[n]? = some s) (hnone : hasSampleCounts s.counts lo hi = false) :
    Scanned symbols lo hi (n + 1) modules := by
  have hstop : ∀ a ∈ modules, a.endSym.getD (n + 1) = a.endSym.getD n := by
    intro a ha
    obtain ⟨e, he⟩ := hclosed a ha
    rw [getD_closed he, getD_closed he]
  refine ⟨fun a ha => ?_, h.apart, fun k s' hk hs' hhas => ?_⟩
  · obtain ⟨b, hseg, hle⟩ := h.each a ha
    rw [hstop a ha]
    exact ⟨b, hseg, by omega⟩
  · rcases Nat.lt_succ_iff_lt_or_eq.mp hk with hk | rfl
    · obtain ⟨a, ha, b, hb, hbk, hka⟩ := h.covered k s' hk hs' hhas
      exact ⟨a, ha, b, hb, hbk, by rwa [hstop a ha]⟩
    · obtain rfl := Option.some.inj (hs.symm.trans hs')
      rw [hnone] at hhas
      cases hhas

theorem Scanned.open (h : Scanned symbols t.thread.lo t.thread.hi n modules) (hclosed : AllClosed modules)
    (hhi : t.thread.hi < 2 ^ 32) (hs : symbols[n]? = some s)
    (hhas : hasSampleCounts s.counts t.thread.lo t.thread.hi = true) :
    Scanned symbols t.thread.lo t.thread.hi (n + 1) (modules ++ [openedModule t s.imageName n s.counts]) := by
  have hstop : ∀ a ∈ modules, a.endSym.getD (n + 1) = a.endSym.getD n := by
    intro a ha
    obtain ⟨e, he⟩ := hclosed a ha
    rw [getD_closed he, getD_closed he]
  refine ⟨fun a ha => ?_, ?_, fun k s' hk hs' hhas' => ?_⟩
  · rcases List.mem_append.mp ha with ha | ha
    · obtain ⟨b, hseg, hle⟩ := h.each a ha
      rw [hstop a ha]
      exact ⟨b, hseg, by omega⟩
    · obtain rfl := List.mem_singleton.mp ha
      refine ⟨n, ⟨rfl, ⟨rfl, rfl⟩, Nat.lt_succ_self n, fun k s' hs' hle hlt => ?_, ⟨s, hs, hhas⟩, fun c => ?_⟩,
        Nat.le_refl _⟩
      · obtain rfl : k = n := Nat.le_antisymm (Nat.le_of_lt_succ hlt) hle
        obtain rfl := Option.some.inj (hs.symm.trans hs')
        rfl
      · rw [openedModule, get_addToSummary (show t.thread.hi < 2 ^ 32 from hhi)]
        change 0 + (if InRange t.thread.lo t.thread.hi c then s.counts.get c else 0) =
          if InRange t.thread.lo t.thread.hi c then countsSum symbols n (n + 1) c else 0
        rw [countsSum_succ hs (Nat.le_refl n), countsSum_self]
        split_ifs <;> simp
  · refine List.pairwise_append.mpr ⟨h.apart, List.pairwise_singleton _ _, fun a ha d hd => ?_⟩
    obtain rfl := List.mem_singleton.mp hd
    obtain ⟨e, he⟩ := hclosed a ha
    obtain ⟨b, -, hle⟩ := h.each a ha
    rw [getD_closed he] at hle
    exact ⟨e, n, he, rfl, hle⟩
  · rcases Nat.lt_succ_iff_lt_or_eq.mp hk with hk | rfl
    · obtain ⟨a, ha, b, hb, hbk, hka⟩ := h.covered k s' hk hs' hhas'
      exact ⟨a, List.mem_append_left _ ha, b, hb, hbk, by rwa [hstop a ha]⟩
    · exact ⟨_, List.mem_append_right _ (List.mem_singleton_self _), k, rfl, Nat.le_refl _, Nat.lt_succ_self _⟩

/-- A symbol of the last module's image goes on with it if it is open, or if the symbol has no counts. -/
theorem Scanned.extend (h : Scanned symbols lo hi n (modules ++ [m])) (hhi : hi < 2 ^ 32)
    (hs : symbols[n]? = some s) (hname : m.name = s.imageName)
    (hopen : m.endSym = none ∨ hasSampleCounts s.counts lo hi = false) :
    Scanned symbols lo hi (n + 1) (modules ++ [m.addToSummary s.counts]) := by
  have hstop : ∀ a ∈ modules, a.endSym.getD (n + 1) = a.endSym.getD n := by
    intro a ha
    obtain ⟨e, he⟩ := h.front_closed a ha
    rw [getD_closed he, getD_closed he]
  have hlast : m ∈ modules ++ [m] := List.mem_append_right _ (List.mem_singleton_self m)
  obtain ⟨b, hseg, hle⟩ := h.each m hlast
  have hget : ∀ c, (m.addToSummary s.counts).summary.get c =
      m.summary.get c + if InRange lo hi c then s.counts.get c else 0 := by
    intro c
    rw [get_addToSummary (by rw [hseg.range.2]; exact hhi), hseg.range.1, hseg.range.2]
  refine ⟨fun a ha => ?_, ?_, fun k s' hk hs' hhas => ?_⟩
  · rcases List.mem_append.mp ha with ha | ha
    · obtain ⟨b, hseg, hle⟩ := h.each a (List.mem_append_left _ ha)
      rw [hstop a ha]
      exact ⟨b, hseg, by omega⟩
    · obtain rfl := List.mem_singleton.mp ha
      cases hend : m.endSym with
      | none =>
        have hn : m.endSym.getD n = n := by rw [hend]; rfl
        rw [hn] at hseg
        change ∃ b, Segment symbols lo hi (m.addToSummary s.counts) b (m.endSym.getD (n + 1)) ∧
          m.endSym.getD (n + 1) ≤ n + 1
        rw [hend]
        refine ⟨b, ⟨hseg.beginSym, hseg.range, Nat.lt_succ_of_lt hseg.lt, fun k s' hs' hb he => ?_, hseg.opens,
          fun c => ?_⟩, Nat.le_refl _⟩
        · rcases Nat.lt_succ_iff_lt_or_eq.mp he with hlt | rfl
          · exact hseg.names k s' hs' hb hlt
          · obtain rfl := Option.some.inj (hs.symm.trans hs')
            exact hname.symm
        · rw [hget, hseg.summary, Option.getD_none, countsSum_succ hs (Nat.le_of_lt hseg.lt)]
          split_ifs <;> simp
      | some e =>
        have hnone := hopen.resolve_left (by rw [hend]; exact nofun)
        rw [getD_closed hend] at hseg hle
        change ∃ b, Segment symbols lo hi (m.addToSummary s.counts) b (m.endSym.getD (n + 1)) ∧
          m.endSym.getD (n + 1) ≤ n + 1
        rw [getD_closed hend]
        refine ⟨b, ⟨hseg.beginSym, hseg.range, hseg.lt, hseg.names, hseg.opens, fun c => ?_⟩, by omega⟩
        rw [hget, hseg.summary]
        split_ifs with hin
        · rw [get_eq_zero_of_not_has hhi hnone hin, add_zero]
        · exact add_zero 0
  · obtain ⟨hfront, -, hlast⟩ := List.pairwise_append.mp h.apart
    refine List.pairwise_append.mpr ⟨hfront, List.pairwise_singleton _ _, fun a ha d hd => ?_⟩
    obtain rfl := List.mem_singleton.mp hd
    exact hlast a ha m (List.mem_singleton_self m)
  · rcases Nat.lt_succ_iff_lt_or_eq.mp hk with hk | rfl
    · obtain ⟨a, ha, b, hb, hbk, hka⟩ := h.covered k s' hk hs' hhas
      rcases List.mem_append.mp ha with ha | ha
      · exact ⟨a, List.mem_append_left _ ha, b, hb, hbk, by rwa [hstop a ha]⟩
      · obtain rfl := List.mem_singleton.mp ha
        refine ⟨_, List.mem_append_right _ (List.mem_singleton_self _), b, hb, hbk, ?_⟩
        change k < a.endSym.getD (n + 1)
        cases hend : a.endSym with
        | none => exact Nat.lt_succ_of_lt hk
        | some e => rwa [hend] at hka
    · refine ⟨_, List.mem_append_right _ (List.mem_singleton_self _), b, hseg.beginSym, ?_, ?_⟩
      · have hlt := hseg.lt
        omega
      · obtain rfl := Option.some.inj (hs.symm.trans hs')
        have hend := hopen.resolve_right (by rw [hhas]; exact nofun)
        change k < m.endSym.getD (k + 1)
        rw [hend]
        exact Nat.lt_succ_self k

end

end Oprofile.Libpp
