import Oprofile.Libpp.ThreadScan

/-! When the modules of a thread list and sum every symbol that has counts for it. -/
namespace Oprofile.Libpp

open SampleNames

/-- Each symbol with counts for the thread is in one module of it, and the summaries are what is listed. -/
structure ThreadOk (symbols : List ReportSymbol) (t : ThreadModules) : Prop where
  listed : ∀ (k : Nat) (s : ReportSymbol), symbols[k]? = some s →
    hasSampleCounts s.counts t.thread.lo t.thread.hi = true → ListedOnce t.modules s.imageName k
  modules : ∀ m ∈ t.modules, m.lo = t.thread.lo ∧ m.hi = t.thread.hi ∧ ModuleOk symbols m
  summary : ∀ c, t.summary.get c = (t.modules.map fun m => m.summary.get c).sum

/-- If the last module is closed, a symbol of another image did it, and none since then has counts. -/
def Stopped (symbols : List ReportSymbol) (lo hi n : Nat) (modules : List ModuleInfo) : Prop :=
  ∀ (front : List ModuleInfo) (m : ModuleInfo) (e : Nat), modules = front ++ [m] → m.endSym = some e →
    e < n ∧ (∃ s, symbols[e]? = some s ∧ s.imageName ≠ m.name) ∧
    ∀ (k : Nat) (s : ReportSymbol), e ≤ k → k < n → symbols[k]? = some s → hasSampleCounts s.counts lo hi = false

section

variable {symbols : List ReportSymbol} {s : ReportSymbol} {t : ThreadModules} {m : ModuleInfo}
  {modules : List ModuleInfo} {lo hi b e n i j k : Nat} {c : UInt32}

/-- No symbol with counts goes to a closed module if no symbol stands between those of an image. -/
theorem open_or_none (h : Scanned symbols lo hi n (modules ++ [m])) (hstopped : Stopped symbols lo hi n (modules ++ [m]))
    (hunbroken : Unbroken symbols lo hi) (hs : symbols[n]? = some s) (hname : m.name = s.imageName) :
    m.endSym = none ∨ hasSampleCounts s.counts lo hi = false := by
  cases hend : m.endSym with
  | none => exact Or.inl rfl
  | some e =>
    right
    by_contra hhas
    obtain ⟨hlt, ⟨d, hd, hother⟩, hnone⟩ := hstopped modules m e rfl hend
    obtain ⟨b, hseg, -⟩ := h.each m (List.mem_append_right _ (List.mem_singleton_self m))
    rw [getD_closed hend] at hseg
    obtain ⟨a, ha, hahas⟩ := hseg.opens
    have haname := hseg.names b a ha (Nat.le_refl b) hseg.lt
    refine hother ((hunbroken b e n a d s hseg.lt hlt ha hd hs hahas (by simpa using hhas)
      (hname.symm.trans haname.symm) fun l s' hbl hln hs' hhas' => ?_).trans haname)
    rcases Nat.lt_or_ge l e with hle | hge
    · exact (hseg.names l s' hs' (Nat.le_of_lt hbl) hle).trans haname.symm
    · rw [hnone l s' hge hln hs'] at hhas'
      cases hhas'

/-- After an opening the last module is open. -/
theorem stopped_open (modules : List ModuleInfo) (module : Text) (it : Nat) (counts : CountArray) :
    Stopped symbols lo hi n (modules ++ [openedModule t module it counts]) := by
  intro front m e heq hend
  obtain ⟨-, hm⟩ := List.append_inj' heq rfl
  obtain rfl := List.singleton_inj.mp hm
  cases hend

/-- One symbol of the pass. -/
theorem scan_step (h : Scanned symbols t.thread.lo t.thread.hi n t.modules)
    (hstopped : Stopped symbols t.thread.lo t.thread.hi n t.modules)
    (hunbroken : Unbroken symbols t.thread.lo t.thread.hi) (hhi : t.thread.hi < 2 ^ 32) (hs : symbols[n]? = some s) :
    Scanned symbols t.thread.lo t.thread.hi (n + 1) (t.addModules s.imageName n s.counts).1.modules ∧
    Stopped symbols t.thread.lo t.thread.hi (n + 1) (t.addModules s.imageName n s.counts).1.modules := by
  rcases List.eq_nil_or_concat' t.modules with hnil | ⟨modules, m, hmodules⟩
  · have hclosed : AllClosed t.modules := by
      rw [hnil]
      exact fun a ha => absurd ha List.not_mem_nil
    rw [addModules_nil hnil, opened]
    split_ifs with hhas
    · have hopen := h.open hclosed hhi hs hhas
      rw [hnil] at hopen
      exact ⟨hopen, stopped_open [] _ _ _⟩
    · have hskip := h.skip hclosed hs (by simpa using hhas)
      rw [hnil] at hskip
      refine ⟨hskip, fun front m e heq => ?_⟩
      exact absurd heq.symm (List.concat_ne_nil m front)
  · rw [hmodules] at h hstopped
    by_cases hname : m.name = s.imageName
    · have hopen := open_or_none h hstopped hunbroken hs hname
      rw [addModules_same hmodules hname]
      refine ⟨h.extend hhi hs hname hopen, fun front m' e heq hend => ?_⟩
      obtain ⟨-, hm⟩ := List.append_inj' heq rfl
      obtain rfl := List.singleton_inj.mp hm
      obtain ⟨hlt, hother, hnone⟩ := hstopped modules m e rfl hend
      refine ⟨by omega, hother, fun k s' hek hk hs' => ?_⟩
      rcases Nat.lt_succ_iff_lt_or_eq.mp hk with hk | rfl
      · exact hnone k s' hek hk hs'
      · obtain rfl := Option.some.inj (hs.symm.trans hs')
        refine hopen.resolve_left ?_
        rw [show m.endSym = some e from hend]
        exact Option.some_ne_none e
    · obtain ⟨hclose, hclosed⟩ := h.close
      rw [addModules_other hmodules hname, opened]
      split_ifs with hhas
      · exact ⟨hclose.open hclosed hhi hs hhas, stopped_open _ _ _ _⟩
      · have hnone : hasSampleCounts s.counts t.thread.lo t.thread.hi = false := by simpa using hhas
        rw [List.append_nil]
        refine ⟨hclose.skip hclosed hs hnone, fun front m' e heq hend => ?_⟩
        obtain ⟨-, hm⟩ := List.append_inj' heq rfl
        obtain rfl := List.singleton_inj.mp hm
        rw [setEnd_endSym] at hend
        obtain rfl := Option.some.inj hend
        cases hold : m.endSym with
        | none =>
          refine ⟨Nat.lt_succ_self n, ⟨s, hs, ?_⟩, fun k s' hnk hk hs' => ?_⟩
          · rw [setEnd_name]
            exact Ne.symm hname
          · obtain rfl : k = n := Nat.le_antisymm (Nat.le_of_lt_succ hk) hnk
            obtain rfl := Option.some.inj (hs.symm.trans hs')
            exact hnone
        | some e =>
          obtain ⟨hlt, hother, hrest⟩ := hstopped modules m e rfl hold
          rw [setEnd_name]
          refine ⟨Nat.lt_succ_of_lt hlt, hother, fun k s' hek hk hs' => ?_⟩
          rcases Nat.lt_succ_iff_lt_or_eq.mp hk with hk | rfl
          · exact hrest k s' hek hk hs'
          · obtain rfl := Option.some.inj (hs.symm.trans hs')
            exact hnone

/-- The whole pass. -/
theorem scan_run (hmodules : t.modules = []) (hunbroken : Unbroken symbols t.thread.lo t.thread.hi)
    (hhi : t.thread.hi < 2 ^ 32) (hn : n ≤ symbols.length) :
    Scanned symbols t.thread.lo t.thread.hi n (scanTo symbols t n).modules ∧
    Stopped symbols t.thread.lo t.thread.hi n (scanTo symbols t n).modules := by
  induction n with
  | zero =>
    rw [scanTo_zero, hmodules]
    refine ⟨⟨fun a ha => absurd ha List.not_mem_nil, List.Pairwise.nil, fun k s hk => absurd hk (Nat.not_lt_zero k)⟩, ?_⟩
    intro front m e heq
    exact absurd heq.symm (List.concat_ne_nil m front)
  | succ n ih =>
    obtain ⟨h, hstopped⟩ := ih (by omega)
    have hthread : (scanTo symbols t n).thread = t.thread := scanTo_thread (by omega)
    rw [scanTo_succ (List.getElem?_eq_getElem hn)]
    rw [← hthread] at h hstopped hunbroken hhi ⊢
    exact scan_step h hstopped hunbroken hhi (List.getElem?_eq_getElem hn)

/-- What `add_to_summary` makes of a list of summaries. -/
theorem get_addRanges (lo hi : Nat) (c : UInt32) (hhi : hi < 2 ^ 32) {A : Type} (f : A → CountArray) (l : List A)
    (hout : ∀ a ∈ l, ¬InRange lo hi c → (f a).get c = 0) (summary : CountArray) :
    (l.foldl (fun summary a => ThreadModules.addRange lo hi summary (f a)) summary).get c =
      summary.get c + (l.map fun a => (f a).get c).sum := by
  induction l generalizing summary with
  | nil => exact (add_zero _).symm
  | cons a l ih =>
    rw [List.foldl_cons, ih (fun a' ha' => hout a' (List.mem_cons_of_mem a ha')), ThreadModules.addRange,
      get_addToSummary (show (⟨[], none, none, summary, lo, hi⟩ : ModuleInfo).hi < 2 ^ 32 from hhi), List.map_cons,
      List.sum_cons, add_assoc]
    change summary.get c + ((if InRange lo hi c then (f a).get c else 0) + _) = _
    split_ifs with hin
    · rfl
    · rw [hout a List.mem_cons_self hin]

theorem ModuleOk.out_of_range (h : ModuleOk symbols m) (hc : ¬InRange m.lo m.hi c) : m.summary.get c = 0 := by
  rcases h with ⟨-, hzero⟩ | ⟨b, e, -, -, -, hsum⟩
  · exact hzero c
  · rw [hsum, if_neg hc]

/-- The thread after the pass. -/
def finishThread (symbols : List ReportSymbol) (t : ThreadModules) : ThreadModules :=
  ((scanTo symbols t symbols.length).setEnd symbols.length).summarize

theorem finishThread_thread : (finishThread symbols t).thread = t.thread := scanTo_thread (Nat.le_refl _)

/-- In a pass that nothing interrupts the thread gets what it should. -/
theorem threadOk_of_unbroken (hmodules : t.modules = []) (hsummary : ∀ c, t.summary.get c = 0)
    (hhi : t.thread.hi < 2 ^ 32) (hunbroken : Unbroken symbols t.thread.lo t.thread.hi) :
    ThreadOk symbols (finishThread symbols t) := by
  obtain ⟨h, -⟩ := scan_run hmodules hunbroken hhi (Nat.le_refl symbols.length)
  have hthread : (finishThread symbols t).thread = t.thread := finishThread_thread
  have heq : (finishThread symbols t).modules =
      (scanTo symbols t symbols.length).modules.map (·.setEnd symbols.length) := rfl
  have hall : ∀ m ∈ (finishThread symbols t).modules,
      m.lo = t.thread.lo ∧ m.hi = t.thread.hi ∧ ModuleOk symbols m := by
    intro m hm
    rw [heq] at hm
    obtain ⟨a, ha, rfl⟩ := List.mem_map.mp hm
    obtain ⟨b, hseg, hle⟩ := h.each a ha
    refine ⟨setEnd_lo.trans hseg.range.1, setEnd_hi.trans hseg.range.2,
      Or.inr ⟨b, _, setEnd_beginSym.trans hseg.beginSym, setEnd_endSym, hle, fun c => ?_⟩⟩
    rw [setEnd_summary, setEnd_lo, setEnd_hi, hseg.range.1, hseg.range.2]
    exact hseg.summary c
  refine ⟨fun k s hs hhas => ?_, fun m hm => ?_, fun c => ?_⟩
  · rw [hthread] at hhas
    obtain ⟨m, hm, b, hb, hbk, hkm⟩ := h.covered k s (List.getElem?_eq_some_iff.mp hs).1 hs hhas
    obtain ⟨i, hi⟩ := List.mem_iff_getElem?.mp hm
    obtain ⟨b', hseg, -⟩ := h.each m hm
    obtain rfl := Option.some.inj (hb.symm.trans hseg.beginSym)
    have hplace : (finishThread symbols t).modules[i]? = some (m.setEnd symbols.length) := by
      rw [heq, List.getElem?_map, hi]
      rfl
    refine ⟨i, m.setEnd symbols.length, hplace, ⟨b, _, setEnd_beginSym.trans hb, setEnd_endSym, hbk, hkm⟩,
      setEnd_name.trans (hseg.names k s hs hbk hkm).symm, fun j m' hj hlists => ?_⟩
    rw [heq, List.getElem?_map] at hj
    obtain ⟨a, ha, rfl⟩ := Option.map_eq_some_iff.mp hj
    obtain ⟨q, e, hq, he, hqk, hke⟩ := hlists
    rw [setEnd_beginSym] at hq
    rw [setEnd_endSym] at he
    obtain rfl := Option.some.inj he
    -- of two modules that list it, the first would end before the second begins
    rcases Nat.lt_trichotomy i j with hlt | rfl | hgt
    · obtain ⟨e, q', he, hq', hle⟩ := List.pairwise_iff_getElem.mp h.apart i j
        (List.getElem?_eq_some_iff.mp hi).1 (List.getElem?_eq_some_iff.mp ha).1 hlt
      rw [(List.getElem?_eq_some_iff.mp hi).2] at he
      rw [(List.getElem?_eq_some_iff.mp ha).2, hq] at hq'
      obtain rfl := Option.some.inj hq'
      rw [getD_closed he] at hkm
      omega
    · rfl
    · obtain ⟨e, q', he, hq', hle⟩ := List.pairwise_iff_getElem.mp h.apart j i
        (List.getElem?_eq_some_iff.mp ha).1 (List.getElem?_eq_some_iff.mp hi).1 hgt
      rw [(List.getElem?_eq_some_iff.mp ha).2] at he
      rw [(List.getElem?_eq_some_iff.mp hi).2, hb] at hq'
      obtain rfl := Option.some.inj hq'
      rw [getD_closed he] at hke
      omega
  · rw [hthread]
    exact hall m hm
  · have hlo : (scanTo symbols t symbols.length).thread = t.thread := scanTo_thread (Nat.le_refl _)
    have hzero : (scanTo symbols t symbols.length).summary.get c = 0 := by
      rw [scanTo_summary (Nat.le_refl _)]
      exact hsummary c
    have hsum := get_addRanges (scanTo symbols t symbols.length).thread.lo
      (scanTo symbols t symbols.length).thread.hi c (by rw [hlo]; exact hhi) ModuleInfo.summary
      (finishThread symbols t).modules (fun m hm hc => by
        obtain ⟨hmlo, hmhi, hok⟩ := hall m hm
        refine hok.out_of_range ?_
        rwa [hmlo, hmhi, ← hlo]) (scanTo symbols t symbols.length).summary
    rw [hzero, zero_add] at hsum
    exact hsum

/-! A symbol that goes to a closed module is in none. -/

/-- Every module ends by a place or begins behind another. -/
def Around (j k : Nat) (modules : List ModuleInfo) : Prop :=
  ∀ m ∈ modules, (∃ e, m.endSym = some e ∧ e ≤ j) ∨ ∃ b, m.beginSym = some b ∧ k < b

theorem Around.addModules (h : Around j k t.modules) (hn : k < n) :
    Around j k (t.addModules s.imageName n s.counts).1.modules := by
  have hopened : Around j k (opened t s.imageName n s.counts) := by
    intro m hm
    rw [opened] at hm
    split_ifs at hm
    · obtain rfl := List.mem_singleton.mp hm
      exact Or.inr ⟨n, rfl, hn⟩
    · cases hm
  rcases List.eq_nil_or_concat' t.modules with hnil | ⟨modules, m, hmodules⟩
  · rw [addModules_nil hnil]
    exact hopened
  · rw [hmodules] at h
    have hfront : ∀ a ∈ modules, (∃ e, a.endSym = some e ∧ e ≤ j) ∨ ∃ b, a.beginSym = some b ∧ k < b :=
      fun a ha => h a (List.mem_append_left _ ha)
    have hlast := h m (List.mem_append_right _ (List.mem_singleton_self m))
    by_cases hname : m.name = s.imageName
    · rw [addModules_same hmodules hname]
      intro a ha
      rcases List.mem_append.mp ha with ha | ha
      · exact hfront a ha
      · obtain rfl := List.mem_singleton.mp ha
        exact hlast
    · rw [addModules_other hmodules hname]
      intro a ha
      rcases List.mem_append.mp ha with ha | ha
      · rcases List.mem_append.mp ha with ha | ha
        · exact hfront a ha
        · obtain rfl := List.mem_singleton.mp ha
          rw [setEnd_endSym, setEnd_beginSym]
          refine hlast.imp_left ?_
          rintro ⟨e, he, hle⟩
          exact ⟨e, by rw [getD_closed he], hle⟩
      · exact hopened a ha

/-- Ends lie before the pass, and only the last module can be open. -/
structure Ends (n : Nat) (modules : List ModuleInfo) : Prop where
  front : ∀ (front : List ModuleInfo) (m : ModuleInfo), modules = front ++ [m] → AllClosed front
  before : ∀ m ∈ modules, ∀ e, m.endSym = some e → e < n

def LastNamed (name : Text) (modules : List ModuleInfo) : Prop :=
  ∃ (front : List ModuleInfo) (m : ModuleInfo), modules = front ++ [m] ∧ m.name = name

theorem front_eq {front : List ModuleInfo} {m' : ModuleInfo} (h : modules ++ [m] = front ++ [m']) :
    modules = front ∧ m = m' := by
  obtain ⟨hfront, hm⟩ := List.append_inj' h rfl
  exact ⟨hfront, List.singleton_inj.mp hm⟩

theorem Ends.addModules (h : Ends n t.modules) : Ends (n + 1) (t.addModules s.imageName n s.counts).1.modules := by
  rcases List.eq_nil_or_concat' t.modules with hnil | ⟨modules, m, hmodules⟩
  · rw [addModules_nil hnil, opened]
    split_ifs
    · refine ⟨fun front m heq => ?_, fun m hm e he => ?_⟩
      · obtain ⟨rfl, -⟩ := front_eq (show [] ++ [_] = front ++ [m] from heq)
        exact fun a ha => absurd ha List.not_mem_nil
      · obtain rfl := List.mem_singleton.mp hm
        cases he
    · exact ⟨fun front m heq => absurd heq.symm (List.concat_ne_nil m front), fun m hm => absurd hm List.not_mem_nil⟩
  · rw [hmodules] at h
    have hfront := h.front modules m rfl
    have hbefore : ∀ a ∈ modules, ∀ e, a.endSym = some e → e < n + 1 :=
      fun a ha e he => Nat.lt_succ_of_lt (h.before a (List.mem_append_left _ ha) e he)
    have hlast : ∀ e, m.endSym = some e → e < n :=
      h.before m (List.mem_append_right _ (List.mem_singleton_self m))
    by_cases hname : m.name = s.imageName
    · rw [addModules_same hmodules hname]
      refine ⟨fun front m' heq => ?_, fun a ha e he => ?_⟩
      · obtain ⟨rfl, -⟩ := front_eq heq
        exact hfront
      · rcases List.mem_append.mp ha with ha | ha
        · exact hbefore a ha e he
        · obtain rfl := List.mem_singleton.mp ha
          exact Nat.lt_succ_of_lt (hlast e he)
    · have hclosed : AllClosed (modules ++ [m.setEnd n]) := by
        intro a ha
        rcases List.mem_append.mp ha with ha | ha
        · exact hfront a ha
        · obtain rfl := List.mem_singleton.mp ha
          exact ⟨_, setEnd_endSym⟩
      have hends : ∀ a ∈ modules ++ [m.setEnd n], ∀ e, a.endSym = some e → e < n + 1 := by
        intro a ha e he
        rcases List.mem_append.mp ha with ha | ha
        · exact hbefore a ha e he
        · obtain rfl := List.mem_singleton.mp ha
          rw [setEnd_endSym] at he
          obtain rfl := Option.some.inj he
          cases hend : m.endSym with
          | none => exact Nat.lt_succ_self n
          | some e => exact Nat.lt_succ_of_lt (hlast e hend)
      rw [addModules_other hmodules hname, opened]
      split_ifs
      · refine ⟨fun front m' heq => ?_, fun a ha e he => ?_⟩
        · obtain ⟨rfl, -⟩ := front_eq heq
          exact hclosed
        · rcases List.mem_append.mp ha with ha | ha
          · exact hends a ha e he
          · obtain rfl := List.mem_singleton.mp ha
            cases he
      · rw [List.append_nil]
        refine ⟨fun front m' heq => ?_, hends⟩
        obtain ⟨rfl, -⟩ := front_eq heq
        exact hfront

theorem ends_run (hmodules : t.modules = []) (hn : n ≤ symbols.length) : Ends n (scanTo symbols t n).modules := by
  induction n with
  | zero =>
    rw [scanTo_zero, hmodules]
    exact ⟨fun front m heq => absurd heq.symm (List.concat_ne_nil m front), fun m hm => absurd hm List.not_mem_nil⟩
  | succ n ih =>
    rw [scanTo_succ (List.getElem?_eq_getElem hn)]
    exact (ih (by omega)).addModules

/-- A symbol with counts leaves a last module of its image. -/
theorem lastNamed_of_has (hhas : hasSampleCounts s.counts t.thread.lo t.thread.hi = true) :
    LastNamed s.imageName (t.addModules s.imageName n s.counts).1.modules := by
  rcases List.eq_nil_or_concat' t.modules with hnil | ⟨modules, m, hmodules⟩
  · rw [addModules_nil hnil, opened, if_pos hhas]
    exact ⟨[], _, rfl, rfl⟩
  · by_cases hname : m.name = s.imageName
    · rw [addModules_same hmodules hname]
      exact ⟨modules, _, rfl, hname⟩
    · rw [addModules_other hmodules hname, opened, if_pos hhas]
      exact ⟨_, _, rfl, rfl⟩

/-- A symbol of the last module's image, or one without counts, leaves it the last, and all that is closed
as it is. -/
theorem lastNamed_step {name : Text} (h : LastNamed name t.modules)
    (hquiet : hasSampleCounts s.counts t.thread.lo t.thread.hi = true → s.imageName = name) :
    LastNamed name (t.addModules s.imageName n s.counts).1.modules ∧
    ((∀ m ∈ t.modules, ∃ e, m.endSym = some e ∧ e ≤ j) →
      ∀ m ∈ (t.addModules s.imageName n s.counts).1.modules, ∃ e, m.endSym = some e ∧ e ≤ j) := by
  obtain ⟨modules, m, hmodules, rfl⟩ := h
  by_cases hname : m.name = s.imageName
  · rw [addModules_same hmodules hname]
    refine ⟨⟨modules, _, rfl, rfl⟩, fun hall a ha => ?_⟩
    rw [hmodules] at hall
    rcases List.mem_append.mp ha with ha | ha
    · exact hall a (List.mem_append_left _ ha)
    · obtain rfl := List.mem_singleton.mp ha
      exact hall m (List.mem_append_right _ (List.mem_singleton_self m))
  · rw [addModules_other hmodules hname, opened, if_neg fun hhas => hname (hquiet hhas).symm, List.append_nil]
    refine ⟨⟨modules, _, rfl, setEnd_name⟩, fun hall a ha => ?_⟩
    rw [hmodules] at hall
    rcases List.mem_append.mp ha with ha | ha
    · exact hall a (List.mem_append_left _ ha)
    · obtain rfl := List.mem_singleton.mp ha
      obtain ⟨e, he, hle⟩ := hall m (List.mem_append_right _ (List.mem_singleton_self m))
      exact ⟨e, by rw [setEnd_endSym, getD_closed he], hle⟩

/-- A symbol of another image without counts leaves all modules closed. -/
theorem lastNamed_close {name : Text} (h : LastNamed name t.modules) (hends : Ends j t.modules)
    (hother : s.imageName ≠ name) (hnone : hasSampleCounts s.counts t.thread.lo t.thread.hi ≠ true) :
    ∀ m ∈ (t.addModules s.imageName j s.counts).1.modules, ∃ e, m.endSym = some e ∧ e ≤ j := by
  obtain ⟨modules, m, hmodules, rfl⟩ := h
  rw [hmodules] at hends
  rw [addModules_other hmodules (Ne.symm hother), opened, if_neg hnone, List.append_nil]
  intro a ha
  rcases List.mem_append.mp ha with ha | ha
  · obtain ⟨e, he⟩ := hends.front modules m rfl a ha
    exact ⟨e, he, Nat.le_of_lt (hends.before a (List.mem_append_left _ ha) e he)⟩
  · obtain rfl := List.mem_singleton.mp ha
    refine ⟨_, setEnd_endSym, ?_⟩
    cases hend : m.endSym with
    | none => exact Nat.le_refl j
    | some e => exact Nat.le_of_lt (hends.before m (List.mem_append_right _ (List.mem_singleton_self m)) e hend)

/-- The second of two symbols of an image with one of another image between them is in no module. -/
theorem around_of_broken {a b d : ReportSymbol} (hmodules : t.modules = []) (hij : i < j) (hjk : j < k)
    (ha : symbols[i]? = some a) (hb : symbols[j]? = some b) (hd : symbols[k]? = some d)
    (hahas : hasSampleCounts a.counts t.thread.lo t.thread.hi = true) (hname : d.imageName = a.imageName)
    (hbetween : ∀ (l : Nat) (s : ReportSymbol), i < l → l < k → symbols[l]? = some s →
      hasSampleCounts s.counts t.thread.lo t.thread.hi = true → s.imageName = a.imageName)
    (hother : b.imageName ≠ a.imageName) : Around j k (scanTo symbols t symbols.length).modules := by
  have hlength := (List.getElem?_eq_some_iff.mp hd).1
  have hthread : ∀ n, n ≤ symbols.length → (scanTo symbols t n).thread = t.thread := fun n hn => scanTo_thread hn
  have hnamed : ∀ n, i + 1 ≤ n → n ≤ k → LastNamed a.imageName (scanTo symbols t n).modules := by
    intro n hn
    induction n, hn using Nat.le_induction with
    | base =>
      intro _
      rw [scanTo_succ ha]
      refine lastNamed_of_has ?_
      rwa [hthread i (by omega)]
    | succ n hn ih =>
      intro hnk
      rw [scanTo_succ (List.getElem?_eq_getElem (by omega))]
      refine (lastNamed_step (j := j) (ih (by omega)) fun hhas => ?_).1
      rw [hthread n (by omega)] at hhas
      exact hbetween n _ (by omega) (by omega) (List.getElem?_eq_getElem (by omega)) hhas
  have hclosed : ∀ n, j + 1 ≤ n → n ≤ k + 1 →
      ∀ m ∈ (scanTo symbols t n).modules, ∃ e, m.endSym = some e ∧ e ≤ j := by
    intro n hn
    induction n, hn using Nat.le_induction with
    | base =>
      intro _
      rw [scanTo_succ hb]
      refine lastNamed_close (hnamed j hij (by omega)) (ends_run hmodules (by omega)) hother fun hhas => hother ?_
      rw [hthread j (by omega)] at hhas
      exact hbetween j b hij hjk hb hhas
    | succ n hn ih =>
      intro hnk
      rw [scanTo_succ (List.getElem?_eq_getElem (by omega))]
      refine (lastNamed_step (hnamed n (by omega) (by omega)) fun hhas => ?_).2 (ih (by omega))
      rw [hthread n (by omega)] at hhas
      rcases Nat.lt_or_ge n k with hlt | hge
      · exact hbetween n _ (by omega) hlt (List.getElem?_eq_getElem (by omega)) hhas
      · obtain rfl : n = k := by omega
        rw [(List.getElem?_eq_some_iff.mp hd).2]
        exact hname
  have haround : ∀ n, k + 1 ≤ n → n ≤ symbols.length → Around j k (scanTo symbols t n).modules := by
    intro n hn
    induction n, hn using Nat.le_induction with
    | base => exact fun _ m hm => Or.inl (hclosed (k + 1) (by omega) (Nat.le_refl _) m hm)
    | succ n hn ih =>
      intro hle
      rw [scanTo_succ (List.getElem?_eq_getElem hle)]
      exact (ih (by omega)).addModules (by omega)
  exact haround symbols.length hlength (Nat.le_refl _)

/-- A thread gets what it should exactly when nothing interrupts its modules. -/
theorem threadOk_iff (hmodules : t.modules = []) (hsummary : ∀ c, t.summary.get c = 0)
    (hhi : t.thread.hi < 2 ^ 32) :
    ThreadOk symbols (finishThread symbols t) ↔ Unbroken symbols t.thread.lo t.thread.hi := by
  refine ⟨fun h i j k a b d hij hjk ha hb hd hahas hdhas hname hbetween => ?_,
    threadOk_of_unbroken hmodules hsummary hhi⟩
  by_contra hother
  have haround := around_of_broken hmodules hij hjk ha hb hd hahas hname hbetween hother
  obtain ⟨p, m, hm, ⟨q, e, hq, he, hqk, hke⟩, -⟩ := h.listed k d hd (by rwa [finishThread_thread])
  have heq : (finishThread symbols t).modules =
      (scanTo symbols t symbols.length).modules.map (·.setEnd symbols.length) := rfl
  rw [heq, List.getElem?_map] at hm
  obtain ⟨m', hm', rfl⟩ := Option.map_eq_some_iff.mp hm
  rw [setEnd_beginSym] at hq
  rw [setEnd_endSym] at he
  obtain rfl := Option.some.inj he
  rcases haround m' (List.mem_of_getElem? hm') with ⟨e, he, hle⟩ | ⟨b', hb', hlt⟩
  · rw [getD_closed he] at hke
    omega
  · obtain rfl := Option.some.inj (hq.symm.trans hb')
    omega

end

end Oprofile.Libpp
