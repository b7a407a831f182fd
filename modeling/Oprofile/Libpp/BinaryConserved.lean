import Oprofile.Libpp.BinaryScan

/-! The binaries list and sum every symbol of a sorted list. -/
namespace Oprofile.Libpp

open SampleNames

/-- Each module of the binary lists the symbols of its names, and every symbol of the binary has a module. -/
structure BinaryFollows (symbols : List ReportSymbol) (nrClasses n : Nat) (b : BinaryInfo) : Prop where
  own : Follows symbols nrClasses n b.own.name b.own
  modules : ∀ m ∈ b.modules, Follows symbols nrClasses n b.own.name m ∧ m.beginSym ≠ none
  names : (b.own.name :: b.modules.map ModuleInfo.name).Nodup
  covers : ∀ (k : Nat) (s : ReportSymbol), k < n → symbols[k]? = some s → s.appName = b.own.name →
    s.imageName ∈ b.own.name :: b.modules.map ModuleInfo.name

def BinaryClosed (b : BinaryInfo) : Prop := b.own.endSym ≠ none ∧ ∀ m ∈ b.modules, m.endSym ≠ none

/-- What can be open of the current binary. -/
structure Current (symbols : List ReportSymbol) (n : Nat) (b : BinaryInfo) : Prop where
  front : ∀ (front : List ModuleInfo) (m : ModuleInfo), b.modules = front ++ [m] → ∀ a ∈ front, a.endSym ≠ none
  own : b.own.beginSym = none → b.own.endSym = none
  last : ∀ s, 0 < n → symbols[n - 1]? = some s → s.appName = b.own.name →
    s.imageName = b.own.name ∨ lastName b.modules = s.imageName

section

variable {le : Text → Text → Prop} {symbols : List ReportSymbol} {s : ReportSymbol} {m : ModuleInfo}
  {modules : List ModuleInfo} {b : BinaryInfo} {a name : Text} {counts : CountArray} {nrClasses n k : Nat}
  {c : UInt32}

theorem mem_modifyLast {f : ModuleInfo → ModuleInfo} {modules : List ModuleInfo} {a : ModuleInfo}
    (h : a ∈ modifyLast f modules) : ∃ front m, modules = front ++ [m] ∧ (a ∈ front ∨ a = f m) := by
  rcases List.eq_nil_or_concat' modules with rfl | ⟨front, m, rfl⟩
  · cases h
  · rw [modifyLast_append] at h
    refine ⟨front, m, rfl, ?_⟩
    rcases List.mem_append.mp h with h | h
    · exact Or.inl h
    · exact Or.inr (List.mem_singleton.mp h)

theorem names_modifyLast {f : ModuleInfo → ModuleInfo} (h : ∀ m, (f m).name = m.name) (modules : List ModuleInfo) :
    (modifyLast f modules).map ModuleInfo.name = modules.map ModuleInfo.name := by
  rcases List.eq_nil_or_concat' modules with rfl | ⟨front, m, rfl⟩
  · rfl
  · rw [modifyLast_append, List.map_append, List.map_append]
    exact congrArg (_ ++ [·]) (h m)

/-- The modules of the binary but the last one, closed with a place of the pass, go on without a symbol of
other names. -/
theorem BinaryFollows.modules_closed (h : BinaryFollows symbols nrClasses n b) (hcurrent : Current symbols n b)
    (hs : symbols[n]? = some s) (hother : ∀ m ∈ b.modules, symbolNames s ≠ (b.own.name, m.name)) :
    ∀ m ∈ modifyLast (·.setEnd n) b.modules,
      Follows symbols nrClasses (n + 1) b.own.name m ∧ m.beginSym ≠ none ∧ m.endSym ≠ none := by
  intro a ha
  obtain ⟨front, m, hmodules, ha⟩ := mem_modifyLast ha
  rcases ha with ha | rfl
  · have hmem : a ∈ b.modules := by
      rw [hmodules]
      exact List.mem_append_left _ ha
    obtain ⟨hfollows, hbegin⟩ := h.modules a hmem
    have hclosed := hcurrent.front front m hmodules a ha
    exact ⟨hfollows.skip hs (hother a hmem) (Or.inr hclosed), hbegin, hclosed⟩
  · have hmem : m ∈ b.modules := by
      rw [hmodules]
      exact List.mem_append_right _ (List.mem_singleton_self m)
    obtain ⟨hfollows, hbegin⟩ := h.modules m hmem
    refine ⟨hfollows.close hs (hother m hmem), by rwa [setEnd_beginSym], ?_⟩
    rw [setEnd_endSym]
    exact nofun

/-- A binary that another one follows. -/
theorem BinaryFollows.close (h : BinaryFollows symbols nrClasses n b) (hcurrent : Current symbols n b)
    (hs : symbols[n]? = some s) (hother : s.appName ≠ b.own.name) :
    BinaryFollows symbols nrClasses (n + 1) (b.closeBinary n) ∧ BinaryClosed (b.closeBinary n) := by
  have hnames : ∀ name, symbolNames s ≠ (b.own.name, name) := fun name heq => hother (Prod.mk.inj heq).1
  have hmodules := h.modules_closed hcurrent hs fun m _ => hnames m.name
  have hsame : (b.closeBinary n).own.name = b.own.name := setEnd_name
  have hlist : (b.closeBinary n).modules.map ModuleInfo.name = b.modules.map ModuleInfo.name :=
    names_modifyLast (fun _ => setEnd_name) b.modules
  refine ⟨⟨?_, ?_, ?_, fun k s' hk hs' happ => ?_⟩, ?_, fun m hm => (hmodules m hm).2.2⟩
  · rw [hsame]
    exact h.own.close hs (hnames _)
  · rw [hsame]
    exact fun m hm => ⟨(hmodules m hm).1, (hmodules m hm).2.1⟩
  · rw [hsame, hlist]
    exact h.names
  · rw [hsame] at happ
    rw [hsame, hlist]
    rcases Nat.lt_succ_iff_lt_or_eq.mp hk with hk | rfl
    · exact h.covers k s' hk hs' happ
    · obtain rfl := Option.some.inj (hs.symm.trans hs')
      exact absurd happ hother
  · change (b.own.setEnd n).endSym ≠ none
    rw [setEnd_endSym]
    exact nofun

theorem BinaryFollows.skip (h : BinaryFollows symbols nrClasses n b) (hclosed : BinaryClosed b)
    (hs : symbols[n]? = some s) (hother : s.appName ≠ b.own.name) : BinaryFollows symbols nrClasses (n + 1) b := by
  have hnames : ∀ name, symbolNames s ≠ (b.own.name, name) := fun name heq => hother (Prod.mk.inj heq).1
  refine ⟨h.own.skip hs (hnames _) (Or.inr hclosed.1), fun m hm => ?_, h.names, fun k s' hk hs' happ => ?_⟩
  · obtain ⟨hfollows, hbegin⟩ := h.modules m hm
    exact ⟨hfollows.skip hs (hnames _) (Or.inr (hclosed.2 m hm)), hbegin⟩
  · rcases Nat.lt_succ_iff_lt_or_eq.mp hk with hk | rfl
    · exact h.covers k s' hk hs' happ
    · obtain rfl := Option.some.inj (hs.symm.trans hs')
      exact absurd happ hother

/-- A symbol of the binary's own goes to the binary. -/
theorem addOwn_step (hcontiguous : Contiguous symbols) (hnr : nrClasses ≤ 2 ^ 32)
    (h : BinaryFollows symbols nrClasses n b) (hcurrent : Current symbols n b) (hs : symbols[n]? = some s)
    (happ : s.appName = b.own.name) (himage : s.imageName = b.own.name) :
    BinaryFollows symbols nrClasses (n + 1)
      ⟨(b.own.setBegin n).addToSummary s.counts, modifyLast (·.setEnd n) b.modules⟩ ∧
    Current symbols (n + 1) ⟨(b.own.setBegin n).addToSummary s.counts, modifyLast (·.setEnd n) b.modules⟩ := by
  have hnames : symbolNames s = (b.own.name, b.own.name) := Prod.ext happ himage
  have hmodules := h.modules_closed hcurrent hs fun m hm heq => by
    have hname : b.own.name = m.name := (Prod.mk.inj (hnames.symm.trans heq)).2
    exact (List.nodup_cons.mp h.names).1 (hname ▸ List.mem_map_of_mem hm)
  have hsame : ((b.own.setBegin n).addToSummary s.counts).name = b.own.name := by
    change (b.own.setBegin n).name = _
    rw [ModuleInfo.setBegin]
    split_ifs <;> rfl
  have hown : Follows symbols nrClasses (n + 1) b.own.name ((b.own.setBegin n).addToSummary s.counts) ∧
      ((b.own.setBegin n).addToSummary s.counts).beginSym ≠ none := by
    by_cases hbegin : b.own.beginSym = none
    · have hset : b.own.setBegin n = { b.own with beginSym := some n } := by
        rw [ModuleInfo.setBegin, if_pos hbegin]
      rcases h.own.lists with ⟨-, hzero, hnot⟩ | ⟨q, hq, -⟩
      · rw [hset]
        exact ⟨follows_begin hnr hs hnames hnot h.own.range rfl (hcurrent.own hbegin) hzero, nofun⟩
      · rw [hbegin] at hq
        cases hq
    · have hset : b.own.setBegin n = b.own := by rw [ModuleInfo.setBegin, if_neg hbegin]
      rw [hset]
      exact ⟨h.own.extend hnr hs hnames hbegin (h.own.open_of_names hcontiguous hs hnames hbegin), hbegin⟩
  have hlist : (modifyLast (·.setEnd n) b.modules).map ModuleInfo.name = b.modules.map ModuleInfo.name :=
    names_modifyLast (fun _ => setEnd_name) b.modules
  refine ⟨⟨?_, ?_, ?_, fun k s' hk hs' happ' => ?_⟩, ⟨fun front m heq a ha => ?_, fun hnone => ?_, ?_⟩⟩
  · rw [hsame]
    exact hown.1
  · rw [hsame]
    exact fun m hm => ⟨(hmodules m hm).1, (hmodules m hm).2.1⟩
  · rw [hsame, hlist]
    exact h.names
  · rw [hsame] at happ'
    rw [hsame, hlist]
    rcases Nat.lt_succ_iff_lt_or_eq.mp hk with hk | rfl
    · exact h.covers k s' hk hs' happ'
    · obtain rfl := Option.some.inj (hs.symm.trans hs')
      exact List.mem_cons.mpr (Or.inl himage)
  · refine (hmodules a ?_).2.2
    rw [show modifyLast (·.setEnd n) b.modules = front ++ [m] from heq]
    exact List.mem_append_left _ ha
  · exact absurd hnone hown.2
  · intro s' _ hs' _
    obtain rfl := Option.some.inj (hs.symm.trans hs')
    rw [hsame]
    exact Or.inl himage

/-- A symbol of a module's image that is not the last one opens the module. -/
theorem addModule_step (hcontiguous : Contiguous symbols) (hnr : nrClasses ≤ 2 ^ 32)
    (h : BinaryFollows symbols nrClasses n b) (hcurrent : Current symbols n b) (hs : symbols[n]? = some s)
    (happ : s.appName = b.own.name) (himage : s.imageName ≠ b.own.name) (hlast : s.imageName ≠ lastName b.modules)
    {own : ModuleInfo}
    (hown : own = if b.own.beginSym ≠ none ∧ b.own.endSym = none then b.own.setEnd n else b.own) :
    BinaryFollows symbols nrClasses (n + 1) ⟨own, modifyLast (·.setEnd n) b.modules ++
      [(ModuleInfo.new.buildModule s.imageName n 0 (nrClasses - 1)).addToSummary s.counts]⟩ ∧
    Current symbols (n + 1) ⟨own, modifyLast (·.setEnd n) b.modules ++
      [(ModuleInfo.new.buildModule s.imageName n 0 (nrClasses - 1)).addToSummary s.counts]⟩ := by
  have hnames : symbolNames s = (b.own.name, s.imageName) := Prod.ext happ rfl
  -- a symbol of these names before this one would stand right before it
  have hnew : ∀ (k : Nat) (s' : ReportSymbol), k < n → symbols[k]? = some s' →
      symbolNames s' ≠ (b.own.name, s.imageName) := by
    intro k s' hk hs' heq
    have hlength := (List.getElem?_eq_some_iff.mp hs).1
    have hprev : symbols[n - 1]? = some symbols[n - 1] := List.getElem?_eq_getElem (by omega)
    have hsame := hcontiguous.names k (n - 1) n _ _ s (by omega) (by omega) hs' hprev hs (heq.trans hnames.symm)
    obtain ⟨happ', himage'⟩ := Prod.mk.inj hsame
    rcases hcurrent.last _ (by omega) hprev (happ'.trans happ) with hself | hmodule
    · exact himage (himage'.symm.trans hself)
    · exact hlast (himage'.symm.trans hmodule.symm)
  have hmodules := h.modules_closed hcurrent hs fun m hm heq => by
    obtain ⟨hfollows, hbegin⟩ := h.modules m hm
    have hname : s.imageName = m.name := (Prod.mk.inj (hnames.symm.trans heq)).2
    have hopen := hfollows.open_of_names hcontiguous hs heq hbegin
    have hlength := (List.getElem?_eq_some_iff.mp hs).1
    rcases hfollows.lists with ⟨hnone, -⟩ | ⟨q, hq, hlt, hin, -⟩
    · exact hbegin hnone
    · rw [stop_none hopen] at hlt
      have hq' : symbols[q]? = some symbols[q] := List.getElem?_eq_getElem (by omega)
      refine hnew q _ hlt hq' ?_
      rw [hname]
      exact (hin q _ hlt hq').mp ⟨Nat.le_refl q, by rwa [stop_none hopen]⟩
  have hownFollows : Follows symbols nrClasses (n + 1) b.own.name own ∧ own.name = b.own.name ∧
      (own.beginSym = none → own.endSym = none) := by
    have hother : symbolNames s ≠ (b.own.name, b.own.name) := fun heq => himage (Prod.mk.inj heq).2
    rw [hown]
    split_ifs with hopen
    · exact ⟨h.own.close hs hother, setEnd_name, fun hnone => absurd (setEnd_beginSym.symm.trans hnone) hopen.1⟩
    · refine ⟨h.own.skip hs hother ?_, rfl, hcurrent.own⟩
      by_cases hbegin : b.own.beginSym = none
      · exact Or.inl hbegin
      · exact Or.inr fun hend => hopen ⟨hbegin, hend⟩
  have hlist : (modifyLast (·.setEnd n) b.modules ++
      [(ModuleInfo.new.buildModule s.imageName n 0 (nrClasses - 1)).addToSummary s.counts]).map ModuleInfo.name =
      b.modules.map ModuleInfo.name ++ [s.imageName] := by
    rw [List.map_append, names_modifyLast (fun _ => setEnd_name) b.modules]
    rfl
  have hnotmem : s.imageName ∉ b.modules.map ModuleInfo.name := by
    intro hmem
    obtain ⟨m, hm, hname⟩ := List.mem_map.mp hmem
    obtain ⟨hfollows, hbegin⟩ := h.modules m hm
    rcases hfollows.lists with ⟨hnone, -⟩ | ⟨q, hq, hlt, hin, -⟩
    · exact hbegin hnone
    · have hlength := (List.getElem?_eq_some_iff.mp hs).1
      have hle : m.endSym.getD n ≤ n := by
        cases hend : m.endSym with
        | none => exact Nat.le_refl n
        | some e => exact Nat.le_of_lt (hfollows.ends e hend)
      have hq' : symbols[q]? = some symbols[q] := List.getElem?_eq_getElem (by omega)
      refine hnew q _ (by omega) hq' ?_
      rw [← hname]
      exact (hin q _ (by omega) hq').mp ⟨Nat.le_refl q, hlt⟩
  refine ⟨⟨?_, ?_, ?_, fun k s' hk hs' happ' => ?_⟩, ⟨fun front m heq a ha => ?_, hownFollows.2.2, ?_⟩⟩
  · rw [hownFollows.2.1]
    exact hownFollows.1
  · intro m hm
    rw [hownFollows.2.1]
    rcases List.mem_append.mp hm with hm | hm
    · exact ⟨(hmodules m hm).1, (hmodules m hm).2.1⟩
    · obtain rfl := List.mem_singleton.mp hm
      exact ⟨follows_begin hnr hs hnames hnew ⟨rfl, rfl⟩ rfl rfl fun _ => rfl, nofun⟩
  · rw [hownFollows.2.1, hlist, ← List.cons_append, List.nodup_append]
    refine ⟨h.names, List.nodup_singleton _, fun x hx y hy => ?_⟩
    obtain rfl := List.mem_singleton.mp hy
    rcases List.mem_cons.mp hx with rfl | hx
    · exact Ne.symm himage
    · rintro rfl
      exact hnotmem hx
  · rw [hownFollows.2.1] at happ'
    rw [hownFollows.2.1, hlist, ← List.cons_append, List.mem_append]
    rcases Nat.lt_succ_iff_lt_or_eq.mp hk with hk | rfl
    · exact Or.inl (h.covers k s' hk hs' happ')
    · obtain rfl := Option.some.inj (hs.symm.trans hs')
      exact Or.inr (List.mem_singleton_self _)
  · obtain ⟨hfront, -⟩ := List.append_inj' heq rfl
    refine (hmodules a ?_).2.2
    rwa [hfront]
  · intro s' _ hs' _
    obtain rfl := Option.some.inj (hs.symm.trans hs')
    exact Or.inr (lastName_append _ _)

/-- A symbol of the last module's image goes to it. -/
theorem extendModule_step (hcontiguous : Contiguous symbols) (hnr : nrClasses ≤ 2 ^ 32)
    (h : BinaryFollows symbols nrClasses n b) (hcurrent : Current symbols n b) (hs : symbols[n]? = some s)
    (happ : s.appName = b.own.name) (himage : s.imageName ≠ b.own.name)
    (hmodules : b.modules = modules ++ [m]) (hlast : m.name = s.imageName) :
    BinaryFollows symbols nrClasses (n + 1) ⟨b.own, modules ++ [m.addToSummary s.counts]⟩ ∧
    Current symbols (n + 1) ⟨b.own, modules ++ [m.addToSummary s.counts]⟩ := by
  have hnames : symbolNames s = (b.own.name, m.name) := Prod.ext happ hlast.symm
  have hmem : m ∈ b.modules := by
    rw [hmodules]
    exact List.mem_append_right _ (List.mem_singleton_self m)
  obtain ⟨hfollows, hbegin⟩ := h.modules m hmem
  have hopen := hfollows.open_of_names hcontiguous hs hnames hbegin
  have hownClosed : b.own.beginSym = none ∨ b.own.endSym ≠ none := by
    by_contra hnot
    obtain ⟨hownBegin, hownOpen⟩ := not_or.mp hnot
    have hlength := (List.getElem?_eq_some_iff.mp hs).1
    have hprev : symbols[n - 1]? = some symbols[n - 1] := List.getElem?_eq_getElem (by omega)
    have hown := h.own.of_open hownBegin (not_not.mp hownOpen) hprev
    have hmodule := hfollows.of_open hbegin hopen hprev
    exact himage (hlast.symm.trans (Prod.mk.inj (hmodule.symm.trans hown)).2)
  have hlist : (modules ++ [m.addToSummary s.counts]).map ModuleInfo.name = b.modules.map ModuleInfo.name := by
    rw [hmodules, List.map_append, List.map_append]
    rfl
  have hdistinct := h.names
  rw [hmodules, List.map_append] at hdistinct
  refine ⟨⟨h.own.skip hs (fun heq => himage (Prod.mk.inj heq).2) hownClosed, fun a ha => ?_, ?_,
    fun k s' hk hs' happ' => ?_⟩, ⟨fun front m' heq a ha => ?_, hcurrent.own, ?_⟩⟩
  · rcases List.mem_append.mp ha with ha | ha
    · obtain ⟨hafollows, habegin⟩ := h.modules a (by rw [hmodules]; exact List.mem_append_left _ ha)
      refine ⟨hafollows.skip hs (fun heq => ?_) (Or.inr (hcurrent.front modules m hmodules a ha)), habegin⟩
      have hname : m.name = a.name := (Prod.mk.inj (hnames.symm.trans heq)).2
      have hne := (List.nodup_append.mp (List.nodup_cons.mp hdistinct).2).2.2 a.name (List.mem_map_of_mem ha) m.name
        (List.mem_singleton_self _)
      exact hne hname.symm
    · obtain rfl := List.mem_singleton.mp ha
      exact ⟨hfollows.extend hnr hs hnames hbegin hopen, hbegin⟩
  · rw [hlist]
    exact h.names
  · rw [hlist]
    rcases Nat.lt_succ_iff_lt_or_eq.mp hk with hk | rfl
    · exact h.covers k s' hk hs' happ'
    · obtain rfl := Option.some.inj (hs.symm.trans hs')
      refine List.mem_cons_of_mem _ ?_
      rw [← hlast]
      exact List.mem_map_of_mem hmem
  · obtain ⟨rfl, -⟩ := List.append_inj' heq rfl
    exact hcurrent.front modules m hmodules a ha
  · intro s' _ hs' _
    obtain rfl := Option.some.inj (hs.symm.trans hs')
    exact Or.inr ((lastName_append _ _).trans hlast)

/-- A symbol of the current binary. -/
theorem binary_step (hcontiguous : Contiguous symbols) (hnr : nrClasses ≤ 2 ^ 32)
    (h : BinaryFollows symbols nrClasses n b) (hcurrent : Current symbols n b) (hs : symbols[n]? = some s)
    (happ : s.appName = b.own.name) (hnamed : s.imageName ≠ []) :
    ∃ b', b.addModuleSymbol nrClasses s.imageName s.appName n s.counts = some b' ∧ b'.own.name = b.own.name ∧
      BinaryFollows symbols nrClasses (n + 1) b' ∧ Current symbols (n + 1) b' := by
  rw [BinaryInfo.addModuleSymbol, happ]
  by_cases himage : s.imageName = b.own.name
  · rw [if_pos himage]
    refine ⟨_, rfl, ?_, addOwn_step hcontiguous hnr h hcurrent hs happ himage⟩
    change (b.own.setBegin n).name = _
    rw [ModuleInfo.setBegin]
    split_ifs <;> rfl
  · rw [if_neg himage]
    by_cases hlast : s.imageName = lastName b.modules
    · rcases List.eq_nil_or_concat' b.modules with hnil | ⟨modules, m, hmodules⟩
      · rw [hnil] at hlast
        exact absurd hlast hnamed
      · have hname : m.name = s.imageName := by rw [hlast, hmodules, lastName_append]
        simp only [hlast, ne_eq, not_true_eq_false, if_false]
        rw [if_neg (by rw [hmodules]; exact List.concat_ne_nil m modules), hmodules, modifyLast_append]
        exact ⟨_, rfl, rfl, extendModule_step hcontiguous hnr h hcurrent hs happ himage hmodules hname⟩
    · simp only [ne_eq, hlast, not_false_eq_true, if_true]
      rw [if_neg (List.concat_ne_nil _ _), modifyLast_append]
      refine ⟨_, rfl, ?_, addModule_step hcontiguous hnr h hcurrent hs happ himage hlast rfl⟩
      change (if ¬b.own.beginSym = none ∧ b.own.endSym = none then b.own.setEnd n else b.own).name = _
      split_ifs
      · exact setEnd_name
      · rfl

end

end Oprofile.Libpp
