import Oprofile.Library.Ranges
import Oprofile.Libpp.BinaryConserved
import Oprofile.Libpp.ThreadConserved

/-! What the XML reports keep of the counts, by threads and by binaries. -/
namespace Oprofile.Libpp

open SampleNames

/-! Binaries. -/

/-- What the loop over the symbols knows of the binaries. -/
structure Rooted (symbols : List ReportSymbol) (nrClasses n : Nat) (root : BinaryRoot) : Prop where
  each : ∀ b ∈ root.binaries, BinaryFollows symbols nrClasses n b
  front : ∀ (front : List BinaryInfo) (b : BinaryInfo), root.binaries = front ++ [b] →
    (∀ a ∈ front, BinaryClosed a) ∧ Current symbols n b ∧ root.currentBinaryName = b.own.name
  names : (root.binaries.map fun b => b.own.name).Nodup
  seen : ∀ b ∈ root.binaries, ∃ k s, k < n ∧ symbols[k]? = some s ∧ s.appName = b.own.name
  last : ∀ s, 0 < n → symbols[n - 1]? = some s → root.currentBinaryName = s.appName ∧ root.binaries ≠ []
  covers : ∀ (k : Nat) (s : ReportSymbol), k < n → symbols[k]? = some s →
    s.appName ∈ root.binaries.map fun b => b.own.name
  empty : n = 0 → root = ⟨[], []⟩

section

variable {le : Text → Text → Prop} {symbols : List ReportSymbol} {s : ReportSymbol} {root : BinaryRoot}
  {b : BinaryInfo} {m : ModuleInfo} {a : Text} {nrClasses n k : Nat} {c : UInt32}

theorem modify_last_append {A : Type} (f : A → A) (l : List A) (x : A) :
    (l ++ [x]).modify ((l ++ [x]).length - 1) f = l ++ [f x] := by
  rw [List.length_append]
  change (l ++ [x]).modify l.length f = _
  induction l with
  | nil => rfl
  | cons y l ih => exact congrArg (y :: ·) ih

/-- A new binary has seen nothing. -/
theorem buildBinary_follows (nrClasses : Nat)
    (happ : ∀ (k : Nat) (s' : ReportSymbol), k < n → symbols[k]? = some s' → s'.appName ≠ a) :
    BinaryFollows symbols nrClasses n (BinaryInfo.buildBinary nrClasses a) ∧
    Current symbols n (BinaryInfo.buildBinary nrClasses a) := by
  refine ⟨⟨⟨⟨rfl, rfl⟩, nofun, Or.inl ⟨rfl, fun _ => rfl, fun k s' hk hs' heq => ?_⟩⟩, (fun m hm => nomatch hm),
    List.nodup_singleton _, fun k s' hk hs' happ' => absurd happ' (happ k s' hk hs')⟩,
    ⟨fun front m heq => absurd heq.symm (List.concat_ne_nil m front), fun _ => rfl, fun s' hn hs' happ' => ?_⟩⟩
  · exact happ k s' hk hs' (Prod.mk.inj heq).1
  · exact absurd happ' (happ (n - 1) s' (by omega) hs')

/-- The current binary takes its symbol. -/
theorem rooted_current (hcontiguous : Contiguous symbols) (hnr : nrClasses ≤ 2 ^ 32) {front : List BinaryInfo}
    (hs : symbols[n]? = some s) (hnamed : s.imageName ≠ [])
    (hfront : ∀ a ∈ front, BinaryFollows symbols nrClasses (n + 1) a ∧ BinaryClosed a ∧
      ∃ k s', k < n + 1 ∧ symbols[k]? = some s' ∧ s'.appName = a.own.name)
    (hb : BinaryFollows symbols nrClasses n b) (hcurrent : Current symbols n b) (happ : s.appName = b.own.name)
    (hnames : ((front ++ [b]).map fun b => b.own.name).Nodup)
    (hcovers : ∀ (k : Nat) (s' : ReportSymbol), k < n → symbols[k]? = some s' →
      s'.appName ∈ (front ++ [b]).map fun b => b.own.name) :
    ∃ root', ((b.addModuleSymbol nrClasses s.imageName s.appName n s.counts).map fun b' =>
        (⟨front ++ [b'], s.appName⟩ : BinaryRoot)) = some root' ∧ Rooted symbols nrClasses (n + 1) root' := by
  obtain ⟨b', hadd, hname, hfollows, hcurrent'⟩ := binary_step hcontiguous hnr hb hcurrent hs happ hnamed
  have hlist : ((front ++ [b']).map fun b => b.own.name) = (front ++ [b]).map fun b => b.own.name := by
    rw [List.map_append, List.map_append]
    exact congrArg (_ ++ [·]) hname
  refine ⟨_, by rw [hadd]; rfl, fun a ha => ?_, fun front' d heq => ?_, ?_, fun a ha => ?_, fun s' _ hs' => ?_,
    fun k s' hk hs' => ?_, fun h => absurd h (Nat.succ_ne_zero n)⟩
  · rcases List.mem_append.mp ha with ha | ha
    · exact (hfront a ha).1
    · obtain rfl := List.mem_singleton.mp ha
      exact hfollows
  · obtain ⟨rfl, hd⟩ := List.append_inj' heq rfl
    obtain rfl := List.singleton_inj.mp hd
    exact ⟨fun a ha => (hfront a ha).2.1, hcurrent', happ.trans hname.symm⟩
  · rwa [hlist]
  · rcases List.mem_append.mp ha with ha | ha
    · exact (hfront a ha).2.2
    · obtain rfl := List.mem_singleton.mp ha
      exact ⟨n, s, Nat.lt_succ_self n, hs, happ.trans hname.symm⟩
  · obtain rfl := Option.some.inj (hs.symm.trans hs')
    exact ⟨rfl, List.concat_ne_nil _ _⟩
  · rw [hlist]
    rcases Nat.lt_succ_iff_lt_or_eq.mp hk with hk | rfl
    · exact hcovers k s' hk hs'
    · obtain rfl := Option.some.inj (hs.symm.trans hs')
      rw [List.map_append, happ]
      exact List.mem_append_right _ (List.mem_singleton_self _)

/-- The loop on one symbol. -/
theorem rooted_step (hcontiguous : Contiguous symbols) (hnr : nrClasses ≤ 2 ^ 32)
    (h : Rooted symbols nrClasses n root) (hs : symbols[n]? = some s) (happName : s.appName ≠ [])
    (himageName : s.imageName ≠ []) :
    ∃ root', summarizeBinary nrClasses root s n = some root' ∧ Rooted symbols nrClasses (n + 1) root' := by
  have hlength := (List.getElem?_eq_some_iff.mp hs).1
  rw [summarizeBinary]
  by_cases happ : s.appName = root.currentBinaryName
  · have hne : root.binaries ≠ [] := by
      rcases Nat.eq_zero_or_pos n with rfl | hpos
      · rw [h.empty rfl] at happ
        exact absurd happ happName
      · exact (h.last _ hpos (List.getElem?_eq_getElem (by omega))).2
    rcases List.eq_nil_or_concat' root.binaries with hnil | ⟨front, b, hbinaries⟩
    · exact absurd hnil hne
    · obtain ⟨hclosed, hcurrent, hname⟩ := h.front front b hbinaries
      have hnames := h.names
      rw [hbinaries] at hnames
      simp only [happ, ne_eq, not_true_eq_false, if_false]
      rw [hbinaries, List.getLast?_concat]
      simp only [List.dropLast_concat]
      rw [← happ]
      obtain ⟨binaries, current⟩ := root
      obtain rfl : s.appName = current := happ
      refine rooted_current hcontiguous hnr hs himageName (fun a ha => ?_)
        (h.each b (by rw [hbinaries]; exact List.mem_append_right _ (List.mem_singleton_self b)))
        hcurrent hname hnames fun k s' hk hs' => ?_
      · have hmem : a ∈ binaries := by
          rw [show binaries = front ++ [b] from hbinaries]
          exact List.mem_append_left _ ha
        have hdistinct : s.appName ≠ a.own.name := by
          intro heq
          rw [List.map_append] at hnames
          have hne' := (List.nodup_append.mp hnames).2.2 a.own.name (List.mem_map.mpr ⟨a, ha, rfl⟩) b.own.name
            (List.mem_singleton_self _)
          exact hne' (heq.symm.trans hname)
        obtain ⟨k, s', hk, hs', happ'⟩ := h.seen a hmem
        exact ⟨(h.each a hmem).skip (hclosed a ha) hs hdistinct, hclosed a ha, k, s', Nat.lt_succ_of_lt hk, hs', happ'⟩
      · have hmem := h.covers k s' hk hs'
        rwa [show binaries = front ++ [b] from hbinaries] at hmem
  · -- a new application, and so no symbol of it before this one
    have hnew : ∀ (k : Nat) (s' : ReportSymbol), k < n → symbols[k]? = some s' → s'.appName ≠ s.appName := by
      intro k s' hk hs' heq
      have hprev : symbols[n - 1]? = some symbols[n - 1] := List.getElem?_eq_getElem (by omega)
      have hsame := hcontiguous.apps k (n - 1) n _ _ s (by omega) (by omega) hs' hprev hs heq
      exact happ (hsame.symm.trans (h.last _ (by omega) hprev).1.symm)
    obtain ⟨hbuild, hcurrent⟩ := buildBinary_follows nrClasses hnew
    have hfront : ∀ a ∈ root.binaries.modify (root.binaries.length - 1) (·.closeBinary n),
        BinaryFollows symbols nrClasses (n + 1) a ∧ BinaryClosed a ∧
        ∃ k s', k < n + 1 ∧ symbols[k]? = some s' ∧ s'.appName = a.own.name := by
      intro a ha
      rcases List.eq_nil_or_concat' root.binaries with hnil | ⟨front, b, hbinaries⟩
      · rw [hnil] at ha
        cases ha
      · obtain ⟨hclosed, hcurrent, -⟩ := h.front front b hbinaries
        have hother : ∀ d ∈ root.binaries, s.appName ≠ d.own.name := by
          intro d hd heq
          obtain ⟨k, s', hk, hs', happ'⟩ := h.seen d hd
          exact hnew k s' hk hs' (happ'.trans heq.symm)
        have hseen : ∀ d ∈ root.binaries, ∃ k s', k < n + 1 ∧ symbols[k]? = some s' ∧ s'.appName = d.own.name := by
          intro d hd
          obtain ⟨k, s', hk, hs', happ'⟩ := h.seen d hd
          exact ⟨k, s', Nat.lt_succ_of_lt hk, hs', happ'⟩
        rw [hbinaries, modify_last_append] at ha
        rcases List.mem_append.mp ha with ha | ha
        · have hmem : a ∈ root.binaries := by
            rw [hbinaries]
            exact List.mem_append_left _ ha
          exact ⟨(h.each a hmem).skip (hclosed a ha) hs (hother a hmem), hclosed a ha, hseen a hmem⟩
        · obtain rfl := List.mem_singleton.mp ha
          have hmem : b ∈ root.binaries := by
            rw [hbinaries]
            exact List.mem_append_right _ (List.mem_singleton_self b)
          obtain ⟨hfollows, hclose⟩ := (h.each b hmem).close hcurrent hs (hother b hmem)
          obtain ⟨k, s', hk, hs', happ'⟩ := hseen b hmem
          exact ⟨hfollows, hclose, k, s', hk, hs', happ'.trans setEnd_name.symm⟩
    have hlist : (root.binaries.modify (root.binaries.length - 1) (·.closeBinary n)).map (fun b => b.own.name) =
        root.binaries.map fun b => b.own.name := by
      rcases List.eq_nil_or_concat' root.binaries with hnil | ⟨front, b, hbinaries⟩
      · rw [hnil]
        rfl
      · rw [hbinaries, modify_last_append, List.map_append, List.map_append]
        exact congrArg (_ ++ [·]) setEnd_name
    simp only [ne_eq, happ, not_false_eq_true, if_true, addBinary, List.getLast?_concat, List.dropLast_concat]
    refine rooted_current hcontiguous hnr hs himageName hfront hbuild hcurrent rfl ?_ fun k s' hk hs' => ?_
    · rw [List.map_append, hlist, List.nodup_append]
      refine ⟨h.names, List.nodup_singleton _, fun x hx y hy => ?_⟩
      obtain rfl := List.mem_singleton.mp hy
      obtain ⟨d, hd, rfl⟩ := List.mem_map.mp hx
      obtain ⟨k, s', hk, hs', happ'⟩ := h.seen d hd
      exact fun heq => hnew k s' hk hs' (happ'.trans heq)
    · rw [List.map_append, hlist]
      exact List.mem_append_left _ (h.covers k s' hk hs')

/-- The loop over all symbols. -/
theorem rooted_run (hcontiguous : Contiguous symbols) (hnr : nrClasses ≤ 2 ^ 32)
    (hnamed : ∀ s ∈ symbols, s.appName ≠ [] ∧ s.imageName ≠ []) (hn : n ≤ symbols.length) :
    ∃ root, (symbols.take n).zipIdx.foldlM (fun root s => summarizeBinary nrClasses root s.1 s.2) ⟨[], []⟩ =
      some root ∧ Rooted symbols nrClasses n root := by
  induction n with
  | zero =>
    exact ⟨⟨[], []⟩, rfl, (fun b hb => nomatch hb),
      fun front b heq => absurd heq.symm (List.concat_ne_nil b front), List.nodup_nil, (fun b hb => nomatch hb),
      fun s hlt => absurd hlt (Nat.lt_irrefl 0), fun k s hk => absurd hk (Nat.not_lt_zero k), fun _ => rfl⟩
  | succ n ih =>
    obtain ⟨root, hroot, h⟩ := ih (by omega)
    have hs : symbols[n]? = some symbols[n] := List.getElem?_eq_getElem hn
    obtain ⟨happ, himage⟩ := hnamed _ (List.getElem_mem hn)
    obtain ⟨root', hstep, h'⟩ := rooted_step hcontiguous hnr h hs happ himage
    refine ⟨root', ?_, h'⟩
    rw [List.take_add_one, hs, Option.toList_some, List.zipIdx_append, List.foldlM_append, hroot,
      List.length_take, Nat.min_eq_left (by omega)]
    simp only [Nat.zero_add, Option.bind_eq_bind, Option.bind_some, List.zipIdx_singleton, List.foldlM_cons,
      List.foldlM_nil, hstep]
    rfl

/-- A symbol is in one place of all binaries: a module of its image in the binary of its application, or the
binary itself. -/
structure BinariesOk (nrClasses : Nat) (symbols : List ReportSymbol) (binaries : List BinaryInfo) : Prop where
  listed : ∀ (k : Nat) (s : ReportSymbol), symbols[k]? = some s →
    ∃ (i : Nat) (b : BinaryInfo), binaries[i]? = some b ∧ b.own.name = s.appName ∧
      ListedOnce (b.own :: b.modules) s.imageName k ∧
      ∀ (j : Nat) (b' : BinaryInfo), binaries[j]? = some b' → (∃ m ∈ b'.own :: b'.modules, m.Lists k) → j = i
  modules : ∀ b ∈ binaries, ∀ m ∈ b.own :: b.modules, m.lo = 0 ∧ m.hi = nrClasses - 1 ∧ ModuleOk symbols m

/-- A module at the end of the list. -/
theorem Follows.finish (h : Follows symbols nrClasses symbols.length a m) :
    ModuleOk symbols (m.setEnd symbols.length) ∧
    ∀ (k : Nat) (s : ReportSymbol), symbols[k]? = some s →
      ((m.setEnd symbols.length).Lists k ↔ symbolNames s = (a, m.name)) := by
  have hle : m.endSym.getD symbols.length ≤ symbols.length := by
    cases hend : m.endSym with
    | none => exact Nat.le_refl _
    | some e => exact Nat.le_of_lt (h.ends e hend)
  rcases h.lists with ⟨hnone, hzero, hnot⟩ | ⟨b, hb, hlt, hin, hsum⟩
  · refine ⟨Or.inl ⟨setEnd_beginSym.trans hnone, fun c => by rw [setEnd_summary]; exact hzero c⟩,
      fun k s hs => ⟨?_, fun heq => absurd heq (hnot k s (List.getElem?_eq_some_iff.mp hs).1 hs)⟩⟩
    rintro ⟨q, e, hq, -⟩
    rw [setEnd_beginSym, hnone] at hq
    cases hq
  · refine ⟨Or.inr ⟨b, _, setEnd_beginSym.trans hb, setEnd_endSym, hle, fun c => ?_⟩, fun k s hs => ?_⟩
    · rw [setEnd_summary, setEnd_lo, setEnd_hi, h.range.1, h.range.2]
      exact hsum c
    · rw [← hin k s (List.getElem?_eq_some_iff.mp hs).1 hs]
      constructor
      · rintro ⟨q, e, hq, he, hqk, hke⟩
        rw [setEnd_beginSym, hb] at hq
        rw [setEnd_endSym] at he
        obtain rfl := Option.some.inj hq
        obtain rfl := Option.some.inj he
        exact ⟨hqk, hke⟩
      · rintro ⟨hbk, hke⟩
        exact ⟨b, _, setEnd_beginSym.trans hb, setEnd_endSym, hbk, hke⟩

/-- A binary with everything closed at a place. -/
def finishBinary (e : Nat) (b : BinaryInfo) : BinaryInfo := ⟨b.own.setEnd e, b.modules.map (·.setEnd e)⟩

theorem finishBinary_closed {e : Nat} (h : BinaryClosed b) : finishBinary e b = b := by
  have hmodules : b.modules.map (·.setEnd e) = b.modules := by
    conv_rhs => rw [← List.map_id b.modules]
    exact List.map_congr_left fun m hm => setEnd_closed (h.2 m hm)
  rw [finishBinary, setEnd_closed h.1, hmodules]

theorem closeBinary_current (h : Current symbols n b) : b.closeBinary k = finishBinary k b := by
  obtain ⟨own, modules⟩ := b
  rw [BinaryInfo.closeBinary, finishBinary]
  rcases List.eq_nil_or_concat' modules with rfl | ⟨front, m, rfl⟩
  · rfl
  · have hfront : front.map (·.setEnd k) = front := by
      conv_rhs => rw [← List.map_id front]
      exact List.map_congr_left fun a ha => setEnd_closed (h.front front m rfl a ha)
    rw [modifyLast_append, List.map_append, hfront]
    rfl

theorem BinaryFollows.all (h : BinaryFollows symbols nrClasses n b) :
    ∀ m ∈ b.own :: b.modules, Follows symbols nrClasses n b.own.name m := by
  intro m hm
  rcases List.mem_cons.mp hm with rfl | hm
  · exact h.own
  · exact (h.modules m hm).1

/-- In its binary a symbol is listed once. -/
theorem listedOnce_finish (h : BinaryFollows symbols nrClasses symbols.length b) (hs : symbols[k]? = some s)
    (happ : s.appName = b.own.name) :
    ListedOnce ((finishBinary symbols.length b).own :: (finishBinary symbols.length b).modules) s.imageName k := by
  change ListedOnce ((b.own :: b.modules).map (·.setEnd symbols.length)) s.imageName k
  have hnames : ((b.own :: b.modules).map ModuleInfo.name).Nodup := h.names
  have hmem : s.imageName ∈ (b.own :: b.modules).map ModuleInfo.name :=
    h.covers k s (List.getElem?_eq_some_iff.mp hs).1 hs happ
  obtain ⟨m, hm, hname⟩ := List.mem_map.mp hmem
  obtain ⟨i, hi⟩ := List.mem_iff_getElem?.mp hm
  refine ⟨i, m.setEnd symbols.length, by rw [List.getElem?_map, hi]; rfl, ?_, setEnd_name.trans hname,
    fun j m' hj hlists => ?_⟩
  · exact ((h.all m hm).finish.2 k s hs).mpr (Prod.ext happ hname.symm)
  · rw [List.getElem?_map] at hj
    obtain ⟨m₀, hm₀, rfl⟩ := Option.map_eq_some_iff.mp hj
    have heq := ((h.all m₀ (List.mem_of_getElem? hm₀)).finish.2 k s hs).mp hlists
    exact Ranges.place_eq_of_nodup_map hnames hm₀ hi ((Prod.mk.inj heq).2.symm.trans hname.symm)

/-- Of a sorted list the binaries keep everything. -/
theorem binariesOk (hcontiguous : Contiguous symbols) (hnr : nrClasses ≤ 2 ^ 32)
    (hnamed : ∀ s ∈ symbols, s.appName ≠ [] ∧ s.imageName ≠ []) :
    ∃ binaries, summarizeBinaries nrClasses symbols = some binaries ∧ BinariesOk nrClasses symbols binaries := by
  obtain ⟨root, hroot, h⟩ := rooted_run hcontiguous hnr hnamed (Nat.le_refl symbols.length)
  rw [List.take_length] at hroot
  have hfinish : root.binaries.modify (root.binaries.length - 1) (·.closeBinary symbols.length) =
      root.binaries.map (finishBinary symbols.length) := by
    rcases List.eq_nil_or_concat' root.binaries with hnil | ⟨front, b, hbinaries⟩
    · rw [hnil]
      rfl
    · obtain ⟨hclosed, hcurrent, -⟩ := h.front front b hbinaries
      have hfront : front.map (finishBinary symbols.length) = front := by
        conv_rhs => rw [← List.map_id front]
        exact List.map_congr_left fun a ha => finishBinary_closed (hclosed a ha)
      rw [hbinaries, modify_last_append, List.map_append, hfront, closeBinary_current hcurrent]
      rfl
  refine ⟨root.binaries.map (finishBinary symbols.length), ?_, fun k s hs => ?_, fun d hd m hm => ?_⟩
  · rw [summarizeBinaries, hroot, Option.map_some, hfinish]
  · obtain ⟨b, hb, hname⟩ := List.mem_map.mp (h.covers k s (List.getElem?_eq_some_iff.mp hs).1 hs)
    obtain ⟨i, hi⟩ := List.mem_iff_getElem?.mp hb
    refine ⟨i, finishBinary symbols.length b, by rw [List.getElem?_map, hi]; rfl, setEnd_name.trans hname,
      listedOnce_finish (h.each b hb) hs hname.symm, fun j b' hj hlists => ?_⟩
    rw [List.getElem?_map] at hj
    obtain ⟨d, hd, rfl⟩ := Option.map_eq_some_iff.mp hj
    obtain ⟨m, hm, hlists⟩ := hlists
    obtain ⟨m₀, hm₀, rfl⟩ := List.mem_map.mp (show m ∈ (d.own :: d.modules).map (·.setEnd symbols.length) from hm)
    have heq := (((h.each d (List.mem_of_getElem? hd)).all m₀ hm₀).finish.2 k s hs).mp hlists
    have hsame : d.own.name = b.own.name := (Prod.mk.inj heq).1.symm.trans hname.symm
    exact Ranges.place_eq_of_nodup_map h.names hd hi hsame
  · obtain ⟨b, hb, rfl⟩ := List.mem_map.mp hd
    obtain ⟨m₀, hm₀, rfl⟩ := List.mem_map.mp (show m ∈ (b.own :: b.modules).map (·.setEnd symbols.length) from hm)
    have hfollows := (h.each b hb).all m₀ hm₀
    exact ⟨setEnd_lo.trans hfollows.range.1, setEnd_hi.trans hfollows.range.2, hfollows.finish.1⟩

end

/-! Processes and threads. -/

/-- The threads of a process have classes of the process, and a class is a 32-bit number. -/
structure LayoutOk (tree : List ProcessInfo) : Prop where
  inside : ∀ p ∈ tree, ∀ t ∈ p.threads, p.lo ≤ t.lo ∧ t.hi ≤ p.hi
  fits : ∀ p ∈ tree, p.hi < 2 ^ 32

/-- The processes and threads of the tree, each thread with what it should get, each process with the sum. -/
structure ProcessesOk (symbols : List ReportSymbol) (tree : List ProcessInfo) (processes : List ProcessModules) :
    Prop where
  same : processes.map ProcessModules.process = tree
  threads : ∀ p ∈ processes, p.threads.map ThreadModules.thread = p.process.threads
  modules : ∀ p ∈ processes, ∀ t ∈ p.threads, ThreadOk symbols t
  summary : ∀ p ∈ processes, ∀ c, p.summary.get c = (p.threads.map fun t => t.summary.get c).sum

theorem tiles_bounds {lo hi : Nat} {ranges : List (Nat × Nat)} (h : Tiles lo hi ranges) :
    lo ≤ hi ∧ ∀ r ∈ ranges, lo ≤ r.1 ∧ r.2 < hi := by
  induction ranges generalizing lo with
  | nil => exact ⟨Nat.le_of_eq h, fun r hr => nomatch hr⟩
  | cons r ranges ih =>
    obtain ⟨rfl, hle, hrest⟩ := h
    obtain ⟨hhi, hin⟩ := ih hrest
    refine ⟨by omega, fun r' hr' => ?_⟩
    rcases List.mem_cons.mp hr' with rfl | hr'
    · exact ⟨Nat.le_refl _, by omega⟩
    · obtain ⟨hlo, hlast⟩ := hin r' hr'
      exact ⟨by omega, hlast⟩

/-- The tree of the classes has such a layout. -/
theorem layoutOk_of_treeOk {classes : List ProfileTemplate} {tree : List ProcessInfo} (h : TreeOk classes 0 tree)
    (hfits : classes.length ≤ 2 ^ 32) : LayoutOk tree := by
  refine ⟨fun p hp t ht => ?_, fun p hp => ?_⟩
  · obtain ⟨hlo, hhi⟩ := (tiles_bounds (h.threads p hp).tiles).2 (t.lo, t.hi) (List.mem_map.mpr ⟨t, ht, rfl⟩)
    exact ⟨hlo, Nat.le_of_lt_succ hhi⟩
  · obtain ⟨-, hhi⟩ := (tiles_bounds h.tiles).2 (p.lo, p.hi) (List.mem_map.mpr ⟨p, hp, rfl⟩)
    exact Nat.lt_of_lt_of_le hhi hfits

/-- What the pass over symbols leaves of a process. -/
def scanProcess (p : ProcessModules) (symbols : List (ReportSymbol × Nat)) : ProcessModules :=
  symbols.foldl (fun p s => p.addModules s.1.imageName s.1.appName s.2 s.1.counts) p

theorem foldl_processes (symbols : List (ReportSymbol × Nat)) (processes : List ProcessModules) :
    symbols.foldl (fun processes s => processes.map (·.addModules s.1.imageName s.1.appName s.2 s.1.counts))
      processes = processes.map (scanProcess · symbols) := by
  induction symbols generalizing processes with
  | nil => exact (List.map_id processes).symm
  | cons s symbols ih =>
    rw [List.foldl_cons, ih, List.map_map]
    rfl

/-- The threads go through the pass on their own. -/
theorem scanProcess_spec (symbols : List (ReportSymbol × Nat)) (p : ProcessModules) :
    (scanProcess p symbols).process = p.process ∧ (scanProcess p symbols).summary = p.summary ∧
    (scanProcess p symbols).threads = p.threads.map fun t =>
      symbols.foldl (fun t s => (t.addModules s.1.imageName s.2 s.1.counts).1) t := by
  induction symbols generalizing p with
  | nil => exact ⟨rfl, rfl, (List.map_id _).symm⟩
  | cons s symbols ih =>
    obtain ⟨hprocess, hsummary, hthreads⟩ :=
      ih (p.addModules s.1.imageName s.1.appName s.2 s.1.counts)
    refine ⟨hprocess, hsummary, ?_⟩
    change (scanProcess (p.addModules s.1.imageName s.1.appName s.2 s.1.counts) symbols).threads = _
    rw [hthreads, ProcessModules.addModules, List.map_map, List.map_map]
    rfl

/-- The process after the pass. -/
def finishProcess (symbols : List ReportSymbol) (process : ProcessInfo) : ProcessModules :=
  ((scanProcess (ProcessModules.buildProcess process) symbols.zipIdx).setEnd symbols.length).summarize

section

variable {symbols : List ReportSymbol} {process : ProcessInfo} {tree : List ProcessInfo}

theorem summarizeProcesses_eq : summarizeProcesses tree symbols = tree.map (finishProcess symbols) := by
  rw [summarizeProcesses, foldl_processes, List.map_map, List.map_map, List.map_map]
  rfl

theorem finishProcess_process : (finishProcess symbols process).process = process :=
  (scanProcess_spec symbols.zipIdx (ProcessModules.buildProcess process)).1

theorem finishProcess_threads : (finishProcess symbols process).threads =
    process.threads.map fun t => finishThread symbols (ThreadModules.buildThread t) := by
  obtain ⟨-, -, hthreads⟩ := scanProcess_spec symbols.zipIdx (ProcessModules.buildProcess process)
  change ((scanProcess (ProcessModules.buildProcess process) symbols.zipIdx).threads.map
    (·.setEnd symbols.length)).map ThreadModules.summarize = _
  rw [hthreads, ProcessModules.buildProcess, List.map_map, List.map_map, List.map_map]
  refine List.map_congr_left fun t _ => ?_
  rw [finishThread, scanTo, List.take_length]
  rfl

theorem finishProcess_summary : (finishProcess symbols process).summary =
    (finishProcess symbols process).threads.foldl
      (fun summary t => ThreadModules.addRange process.lo process.hi summary t.summary) .empty := by
  obtain ⟨hprocess, hsummary, -⟩ := scanProcess_spec symbols.zipIdx (ProcessModules.buildProcess process)
  change List.foldl (fun summary t => ThreadModules.addRange
      (scanProcess (ProcessModules.buildProcess process) symbols.zipIdx).process.lo
      (scanProcess (ProcessModules.buildProcess process) symbols.zipIdx).process.hi summary t.summary)
    (scanProcess (ProcessModules.buildProcess process) symbols.zipIdx).summary
    (finishProcess symbols process).threads = _
  rw [hprocess, hsummary]
  rfl

/-- A thread has nothing outside its range. -/
theorem ThreadOk.out_of_range {t : ThreadModules} {c : UInt32} (h : ThreadOk symbols t)
    (hc : ¬InRange t.thread.lo t.thread.hi c) : t.summary.get c = 0 := by
  rw [h.summary, List.sum_eq_zero]
  intro x hx
  obtain ⟨m, hm, rfl⟩ := List.mem_map.mp hx
  obtain ⟨hlo, hhi, hok⟩ := h.modules m hm
  refine hok.out_of_range ?_
  rwa [hlo, hhi]

theorem processesOk_iff (hlayout : LayoutOk tree) :
    ProcessesOk symbols tree (summarizeProcesses tree symbols) ↔
      ∀ p ∈ tree, ∀ t ∈ p.threads, Unbroken symbols t.lo t.hi := by
  have hthread : ∀ p ∈ tree, ∀ t ∈ p.threads,
      (ThreadOk symbols (finishThread symbols (ThreadModules.buildThread t)) ↔ Unbroken symbols t.lo t.hi) :=
    fun p hp t ht => threadOk_iff rfl (fun _ => rfl)
      (Nat.lt_of_le_of_lt (hlayout.inside p hp t ht).2 (hlayout.fits p hp))
  rw [summarizeProcesses_eq]
  constructor
  · intro h p hp t ht
    refine (hthread p hp t ht).mp (h.modules _ (List.mem_map_of_mem hp) _ ?_)
    rw [finishProcess_threads]
    exact List.mem_map.mpr ⟨t, ht, rfl⟩
  · intro h
    have hall : ∀ p ∈ tree.map (finishProcess symbols), ∀ t ∈ p.threads, ThreadOk symbols t := by
      intro p hp t ht
      obtain ⟨process, hprocess, rfl⟩ := List.mem_map.mp hp
      rw [finishProcess_threads] at ht
      obtain ⟨thread, hmem, rfl⟩ := List.mem_map.mp ht
      exact (hthread process hprocess thread hmem).mpr (h process hprocess thread hmem)
    refine ⟨?_, fun p hp => ?_, hall, fun p hp c => ?_⟩
    · rw [List.map_map]
      conv_rhs => rw [← List.map_id tree]
      exact List.map_congr_left fun p _ => finishProcess_process
    · obtain ⟨process, -, rfl⟩ := List.mem_map.mp hp
      rw [finishProcess_threads, finishProcess_process, List.map_map]
      conv_rhs => rw [← List.map_id process.threads]
      exact List.map_congr_left fun t _ => finishThread_thread
    · have hp' := hp
      obtain ⟨process, hprocess, rfl⟩ := List.mem_map.mp hp'
      have hsum := get_addRanges process.lo process.hi c (hlayout.fits process hprocess)
        ThreadModules.summary (finishProcess symbols process).threads (fun t ht hc => by
          refine (hall _ hp t ht).out_of_range fun hin => hc ?_
          rw [finishProcess_threads] at ht
          obtain ⟨thread, hmem, rfl⟩ := List.mem_map.mp ht
          rw [finishThread_thread] at hin
          obtain ⟨hlo, hhi⟩ := hlayout.inside process hprocess thread hmem
          exact ⟨Nat.le_trans hlo hin.1, Nat.le_trans hin.2 hhi⟩) .empty
      rw [finishProcess_summary, hsum, CountArray.get_empty, zero_add]

end

/-- Both views keep every count exactly when, for each thread, nothing stands between the symbols of an
image that have its samples. -/
theorem reportConserved_iff (le : Text → Text → Prop) (hle : ∀ a b, le a b → le b a → a = b)
    (symbols : List ReportSymbol) (hsorted : SortedBy le symbols)
    (hnamed : ∀ s ∈ symbols, s.appName ≠ [] ∧ s.imageName ≠ []) (tree : List ProcessInfo) (hlayout : LayoutOk tree)
    (nrClasses : Nat) (hnr : 0 < nrClasses ∧ nrClasses ≤ 2 ^ 32) :
    (ProcessesOk symbols tree (summarizeProcesses tree symbols) ∧
      ∃ binaries, summarizeBinaries nrClasses symbols = some binaries ∧ BinariesOk nrClasses symbols binaries) ↔
    ∀ p ∈ tree, ∀ t ∈ p.threads, Unbroken symbols t.lo t.hi := by
  have hbinaries := binariesOk (contiguous_of_sorted hle hsorted) hnr.2 hnamed
  rw [processesOk_iff hlayout]
  exact ⟨fun h => h.1, fun h => ⟨h, hbinaries⟩⟩

/-- A library of two applications, the first of which uses another one in the second thread only. -/
def twoThreadSymbols (shared : CountArray) : List ReportSymbol :=
  [⟨['x'], ['l'], CountArray.empty.set 0 1⟩, ⟨['x'], ['m'], shared⟩, ⟨['y'], ['l'], CountArray.empty.set 0 1⟩]

def twoThreadTree : List ProcessInfo := [⟨['1'], 0, 1, [⟨['1'], 0, 0⟩, ⟨['2'], 1, 1⟩]⟩]

theorem reportConserved_iff_both_threads :
    (ProcessesOk (twoThreadSymbols (CountArray.empty.set 0 1)) twoThreadTree
      (summarizeProcesses twoThreadTree (twoThreadSymbols (CountArray.empty.set 0 1))) ∧
      ∃ binaries, summarizeBinaries 2 (twoThreadSymbols (CountArray.empty.set 0 1)) = some binaries ∧
        BinariesOk 2 (twoThreadSymbols (CountArray.empty.set 0 1)) binaries) ↔
    ∀ p ∈ twoThreadTree, ∀ t ∈ p.threads, Unbroken (twoThreadSymbols (CountArray.empty.set 0 1)) t.lo t.hi :=
  reportConserved_iff (fun a b => a.headD 'a' ≤ b.headD 'a' ∧ (b.headD 'a' ≤ a.headD 'a' → a = b))
    (fun _ _ hab hba => hab.2 hba.1) _ (by unfold SortedBy; decide) (by decide) _ ⟨by decide, by decide⟩ 2 (by decide)

/-- The first thread lists the library up to the other one, and adds the second application's count to it. -/
theorem closed_module_counts :
    SortedBy (fun a b => a.headD 'a' ≤ b.headD 'a' ∧ (b.headD 'a' ≤ a.headD 'a' → a = b))
      (twoThreadSymbols (CountArray.empty.set 1 1)) ∧ LayoutOk twoThreadTree ∧
    ¬ProcessesOk (twoThreadSymbols (CountArray.empty.set 1 1)) twoThreadTree
      (summarizeProcesses twoThreadTree (twoThreadSymbols (CountArray.empty.set 1 1))) := by
  refine ⟨by unfold SortedBy; decide, ⟨by decide, by decide⟩, fun h => ?_⟩
  have hthread := h.modules
    (finishProcess (twoThreadSymbols (CountArray.empty.set 1 1)) ⟨['1'], 0, 1, [⟨['1'], 0, 0⟩, ⟨['2'], 1, 1⟩]⟩)
    List.mem_cons_self
    (finishThread (twoThreadSymbols (CountArray.empty.set 1 1)) (ThreadModules.buildThread ⟨['1'], 0, 0⟩))
    List.mem_cons_self
  have hranges : (finishThread (twoThreadSymbols (CountArray.empty.set 1 1))
      (ThreadModules.buildThread ⟨['1'], 0, 0⟩)).modules.map (fun m => (m.beginSym, m.endSym)) =
      [(some 0, some 1)] := by decide
  obtain ⟨i, m, hm, ⟨b, e, hb, he, -, hlt⟩, -⟩ := hthread.listed 2 _ rfl (by decide)
  have hmem := List.mem_map_of_mem (f := fun m : ModuleInfo => (m.beginSym, m.endSym)) (List.mem_of_getElem? hm)
  rw [hranges, hb, he] at hmem
  obtain ⟨-, hend⟩ := Prod.mk.inj (List.mem_singleton.mp hmem)
  obtain rfl := Option.some.inj hend
  exact absurd hlt (by decide)

end Oprofile.Libpp
