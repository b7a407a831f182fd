import Oprofile.Library.Ranges
import Oprofile.Libpp.ProfileContainer

/-! The three levels of a profile container agree: totals, symbols, samples. -/
namespace Oprofile.Libpp

open SampleNames Libutilpp

theorem sameSymbol_iff {a b : SymbolEntry} : SameSymbol a b ↔
    a.imageName = b.imageName ∧ a.appName = b.appName ∧ a.name = b.name ∧ a.sample.vma = b.sample.vma ∧
    a.size = b.size := by
  constructor
  · rintro ⟨hab, hba⟩
    rw [lessSymbol] at hab hba
    by_cases himage : a.imageName = b.imageName
    · by_cases happ : a.appName = b.appName
      · by_cases hname : a.name = b.name
        · by_cases hvma : a.sample.vma = b.sample.vma
          · simp only [himage, happ, hname, hvma, ne_eq, not_true_eq_false, if_false, decide_eq_false_iff_not,
              UInt64.not_lt] at hab hba
            exact ⟨himage, happ, hname, hvma, UInt64.le_antisymm hba hab⟩
          · simp only [himage, happ, hname, hvma, Ne.symm hvma, ne_eq, not_true_eq_false, not_false_eq_true,
              if_true, if_false, decide_eq_false_iff_not, UInt64.not_lt] at hab hba
            exact absurd (UInt64.le_antisymm hba hab) hvma
        · simp only [himage, happ, hname, Ne.symm hname, ne_eq, not_true_eq_false, not_false_eq_true,
            if_true, if_false, decide_eq_false_iff_not] at hab hba
          omega
      · simp only [himage, happ, Ne.symm happ, ne_eq, not_true_eq_false, not_false_eq_true,
          if_true, if_false, decide_eq_false_iff_not] at hab hba
        omega
    · simp only [himage, Ne.symm himage, ne_eq, not_false_eq_true, if_true, decide_eq_false_iff_not] at hab hba
      omega
  · rintro ⟨himage, happ, hname, hvma, hsize⟩
    have hirrefl : ∀ x y : UInt64, x = y → decide (x < y) = false :=
      fun x y h => decide_eq_false (h ▸ UInt64.lt_irrefl x)
    constructor
    · rw [lessSymbol, if_neg (not_not.mpr himage), if_neg (not_not.mpr happ), if_neg (not_not.mpr hname),
        if_neg (not_not.mpr hvma)]
      exact hirrefl _ _ hsize
    · rw [lessSymbol, if_neg (not_not.mpr himage.symm), if_neg (not_not.mpr happ.symm),
        if_neg (not_not.mpr hname.symm), if_neg (not_not.mpr hvma.symm)]
      exact hirrefl _ _ hsize.symm

theorem SameSymbol.symm {a b : SymbolEntry} (h : SameSymbol a b) : SameSymbol b a := ⟨h.2, h.1⟩

theorem SameSymbol.trans {a b c : SymbolEntry} (hab : SameSymbol a b) (hbc : SameSymbol b c) : SameSymbol a c := by
  obtain ⟨h1, h2, h3, h4, h5⟩ := sameSymbol_iff.mp hab
  obtain ⟨h1', h2', h3', h4', h5'⟩ := sameSymbol_iff.mp hbc
  exact sameSymbol_iff.mpr ⟨h1.trans h1', h2.trans h2', h3.trans h3', h4.trans h4', h5.trans h5'⟩

/-- Counts do not matter for the order. -/
theorem sameSymbol_addCounts (a : SymbolEntry) (counts : CountArray) : SameSymbol (a.addCounts counts) a :=
  sameSymbol_iff.mpr ⟨rfl, rfl, rfl, rfl, rfl⟩

section

variable {symb s : SymbolEntry} {symbols : List SymbolEntry} {i : Nat} {pclass : UInt32}

/-- An insertion finds the symbol and adds to its counts, or it makes a new node. -/
theorem insertSymbol_cases (symb : SymbolEntry) (symbols : List SymbolEntry) :
    (∃ i s, symbols[i]? = some s ∧ SameSymbol s symb ∧
      insertSymbol symb symbols = (symbols.set i (s.addCounts symb.sample.counts), i)) ∨
    ((∀ s ∈ symbols, ¬SameSymbol s symb) ∧ insertSymbol symb symbols = (symbols ++ [symb], symbols.length)) := by
  induction symbols with
  | nil => exact Or.inr ⟨nofun, rfl⟩
  | cons s symbols ih =>
    by_cases hs : SameSymbol s symb
    · refine Or.inl ⟨0, s, rfl, hs, ?_⟩
      rw [insertSymbol, if_pos hs]
      rfl
    · rw [insertSymbol, if_neg hs]
      rcases ih with ⟨i, t, ht, hsame, heq⟩ | ⟨hnone, heq⟩
      · refine Or.inl ⟨i + 1, t, ht, hsame, ?_⟩
        rw [heq]
        rfl
      · refine Or.inr ⟨List.forall_mem_cons.mpr ⟨hs, hnone⟩, ?_⟩
        rw [heq]
        rfl

/-- No two nodes hold the same symbol. -/
def Distinct (symbols : List SymbolEntry) : Prop := symbols.Pairwise fun a b => ¬SameSymbol a b

theorem Distinct.eq_of_same {j : Nat} {t : SymbolEntry} (h : Distinct symbols) (hi : symbols[i]? = some s)
    (hj : symbols[j]? = some t) (hs : SameSymbol s t) : i = j := by
  obtain ⟨hilt, rfl⟩ := List.getElem?_eq_some_iff.mp hi
  obtain ⟨hjlt, rfl⟩ := List.getElem?_eq_some_iff.mp hj
  have hpairs := List.pairwise_iff_getElem.mp h
  rcases Nat.lt_trichotomy i j with hlt | heq | hgt
  · exact absurd hs (hpairs i j hilt hjlt hlt)
  · exact heq
  · exact absurd hs.symm (hpairs j i hjlt hilt hgt)

/-- A symbol that is there is found where it is. -/
theorem insertSymbol_again (h : Distinct symbols) (hi : symbols[i]? = some s) (hs : SameSymbol s symb) :
    insertSymbol symb symbols = (symbols.set i (s.addCounts symb.sample.counts), i) := by
  rcases insertSymbol_cases symb symbols with ⟨j, t, hj, ht, heq⟩ | ⟨hnone, -⟩
  · obtain rfl := h.eq_of_same hi hj (hs.trans ht.symm)
    obtain rfl := Option.some.inj (hi.symm.trans hj)
    exact heq
  · exact absurd hs (hnone s (List.mem_of_getElem? hi))

theorem Distinct.insertSymbol (h : Distinct symbols) (symb : SymbolEntry) : Distinct (insertSymbol symb symbols).1 := by
  rcases insertSymbol_cases symb symbols with ⟨i, s, hi, -, heq⟩ | ⟨hnone, heq⟩
  · rw [heq]
    obtain ⟨hlt, rfl⟩ := List.getElem?_eq_some_iff.mp hi
    have hkey : ∀ (j : Nat) (t : SymbolEntry),
        (symbols.set i (symbols[i].addCounts symb.sample.counts))[j]? = some t →
        ∃ u, symbols[j]? = some u ∧ SameSymbol t u := by
      intro j t ht
      rw [List.getElem?_set] at ht
      split_ifs at ht with hij
      · obtain rfl := Option.some.inj ht
        subst hij
        exact ⟨_, List.getElem?_eq_getElem hlt, sameSymbol_addCounts _ _⟩
      · exact ⟨t, ht, sameSymbol_iff.mpr ⟨rfl, rfl, rfl, rfl, rfl⟩⟩
    refine Ranges.pairwise_iff.mpr fun j k t t' hlt ht ht' hsame => ?_
    obtain ⟨u, hu, htu⟩ := hkey j t ht
    obtain ⟨u', hu', htu'⟩ := hkey k t' ht'
    exact Ranges.pairwise_iff.mp h j k u u' hlt hu hu' ((htu.symm.trans hsame).trans htu')
  · rw [heq]
    refine List.pairwise_append.mpr ⟨h, List.pairwise_singleton _ _, fun s hs t ht => ?_⟩
    obtain rfl := List.mem_singleton.mp ht
    exact hnone s hs

/-- The sum over the symbols goes up by the counts of the inserted one. -/
theorem sum_insertSymbol (symb : SymbolEntry) (symbols : List SymbolEntry) (pclass : UInt32) :
    ((insertSymbol symb symbols).1.map fun s => s.sample.counts.get pclass).sum =
      (symbols.map fun s => s.sample.counts.get pclass).sum + symb.sample.counts.get pclass := by
  induction symbols with
  | nil => simp [insertSymbol]
  | cons s symbols ih =>
    rw [insertSymbol]
    split_ifs with hs
    · simp only [List.map_cons, List.sum_cons, SymbolEntry.addCounts, CountArray.get_add]
      exact add_right_comm _ _ _
    · simp only [List.map_cons, List.sum_cons, ih]
      exact (add_assoc _ _ _).symm

end

/-! The samples of a symbol. -/

/-- The counts of the samples of a symbol, in sum. -/
def detailSum (samples : SamplesStorage) (symbol : Nat) (pclass : UInt32) : UInt64 :=
  ((samplesOf symbol samples).map fun e => e.2.counts.get pclass).sum

section

variable {samples : SamplesStorage} {symbol i : Nat} {pclass : UInt32} {sample : SampleEntry}

/-- Between `begin` and `end` are the entries of the symbol. -/
theorem samplesOf_eq (symbol : Nat) (samples : SamplesStorage) :
    samplesOf symbol samples = samples.filter fun e => e.1.1 = symbol := by
  refine List.filter_congr fun e _ => decide_eq_decide.mpr ?_
  have hlow : lessKey e.1 (symbol, 0) = true ↔ e.1.1 < symbol := by
    rw [lessKey, decide_eq_true_iff]
    exact or_iff_left fun h => absurd h.2 (UInt64.not_lt_zero)
  have hhigh : lessKey (symbol, -1) e.1 = true ↔ symbol < e.1.1 := by
    rw [lessKey, decide_eq_true_iff]
    refine or_iff_left fun h => absurd h.2 (UInt64.not_lt.mpr ?_)
    have hmax : (-1 : UInt64).toNat = 2 ^ 64 - 1 := by decide
    have hlt := e.1.2.toNat_lt
    rw [UInt64.le_iff_toNat_le, hmax]
    omega
  rw [hlow, hhigh]
  omega

theorem detailSum_eq (samples : SamplesStorage) (symbol : Nat) (pclass : UInt32) :
    detailSum samples symbol pclass =
      (samples.map fun e => if e.1.1 = symbol then e.2.counts.get pclass else 0).sum := by
  rw [detailSum, samplesOf_eq]
  induction samples with
  | nil => rfl
  | cons e samples ih =>
    by_cases he : e.1.1 = symbol
    · simp only [List.filter_cons, he, decide_true, if_true, List.map_cons, List.sum_cons, ih]
    · simp only [List.filter_cons, he, decide_false, if_false, List.map_cons, List.sum_cons, ih, zero_add,
        Bool.false_eq_true]

theorem detailSum_insertSample :
    detailSum (insertSample symbol sample samples) i pclass =
      detailSum samples i pclass + if symbol = i then sample.counts.get pclass else 0 := by
  rw [detailSum_eq, detailSum_eq, insertSample]
  refine Tally.sum_upsert (fun (k : Nat × UInt64) (e : SampleEntry) =>
    if k.1 = i then e.counts.get pclass else 0) ?_ rfl
  intro e
  by_cases hi : symbol = i
  · simp only [if_pos hi, CountArray.get_add]
  · simp only [if_neg hi, add_zero]

/-- A sample at an address that is there is merged into its entry. -/
theorem insertSample_again {j : Nat} {e : SampleEntry} (hnodup : (samples.map Prod.fst).Nodup)
    (hj : samples[j]? = some ((symbol, sample.vma), e)) :
    insertSample symbol sample samples =
      samples.set j ((symbol, sample.vma), { e with counts := e.counts.add sample.counts }) :=
  Tally.upsert_eq_set hnodup hj

end

/-! One call, and any sequence of calls. -/

/-- What the containers hold, whatever was added. -/
structure Agreement (c : ProfileContainer) : Prop where
  total : ∀ pclass, c.totalCount.get pclass = (c.symbols.map fun s => s.sample.counts.get pclass).sum
  details : c.needDetails = true → ∀ i s, c.symbols[i]? = some s → ∀ pclass,
    detailSum c.samples i pclass = s.sample.counts.get pclass
  distinct : Distinct c.symbols
  nodup : (c.samples.map Prod.fst).Nodup
  owned : ∀ e ∈ c.samples, e.1.1 < c.symbols.length

section

variable {call : AddCall} {c c' : ProfileContainer} {symIndex symbol : Nat} {sym : OpBfdSymbol}

/-- The loop of `add_samples` touches the samples of one symbol. -/
theorem addSamples_spec (call : AddCall) (symIndex : Nat) (start baseVma : UInt64) (range : List Sample)
    (c : ProfileContainer) (hnodup : (c.samples.map Prod.fst).Nodup) (howned : ∀ e ∈ c.samples, e.1.1 < c.symbols.length)
    (hsymbol : symbol < c.symbols.length) :
    let c' := range.foldl (addSample call symIndex symbol start baseVma) c
    c'.symbols = c.symbols ∧ c'.totalCount = c.totalCount ∧ c'.needDetails = c.needDetails ∧
    (c'.samples.map Prod.fst).Nodup ∧ (∀ e ∈ c'.samples, e.1.1 < c'.symbols.length) ∧
    ∀ i pclass, detailSum c'.samples i pclass = detailSum c.samples i pclass +
      if symbol = i ∧ call.pclass = pclass then (range.map Prod.snd).sum else 0 := by
  induction range generalizing c with
  | nil => exact ⟨rfl, rfl, rfl, hnodup, howned, fun i pclass => by simp⟩
  | cons it range ih =>
    have hnodup₁ : ((addSample call symIndex symbol start baseVma c it).samples.map Prod.fst).Nodup :=
      Tally.nodup_upsert hnodup
    have howned₁ : ∀ e ∈ (addSample call symIndex symbol start baseVma c it).samples,
        e.1.1 < c.symbols.length := by
      intro e he
      rcases Tally.mem_keys_upsert.mp (List.mem_map_of_mem he) with hkey | hkey
      · rw [hkey]
        exact hsymbol
      · obtain ⟨e', he', heq⟩ := List.mem_map.mp hkey
        rw [← heq]
        exact howned e' he'
    obtain ⟨hsymbols, htotal, hneed, hnodup', howned', hsum⟩ := ih _ hnodup₁ howned₁ hsymbol
    refine ⟨hsymbols, htotal, hneed, hnodup', howned', fun i pclass => ?_⟩
    rw [List.foldl_cons, hsum i pclass]
    change detailSum (insertSample symbol _ c.samples) i pclass + _ = _
    rw [detailSum_insertSample, add_assoc]
    congr 1
    simp only [CountArray.get_set, CountArray.get_empty, List.map_cons, List.sum_cons]
    by_cases hi : symbol = i
    · by_cases hp : pclass = call.pclass
      · simp [hi, hp]
      · simp [hi, hp, Ne.symm hp]
    · simp [hi]

theorem accumulate_eq_sum (range : List Sample) : accumulate range = (range.map Prod.snd).sum :=
  List.sum_eq_foldl.symm

/-- A node beyond the last has no samples. -/
theorem detailSum_new {samples : SamplesStorage} {n : Nat} (howned : ∀ e ∈ samples, e.1.1 < n) (pclass : UInt32) :
    detailSum samples n pclass = 0 := by
  rw [detailSum, samplesOf_eq, List.filter_eq_nil_iff.mpr fun e he => ?_]
  · rfl
  · rw [decide_eq_true_iff]
    exact Nat.ne_of_lt (howned e he)

/-- The counts of a symbol after an insertion are what they were, with those of the inserted symbol if it
is its node. -/
theorem insertSymbol_counts (h : Agreement c) (symb : SymbolEntry) {s : SymbolEntry} {i : Nat}
    (hi : (insertSymbol symb c.symbols).1[i]? = some s) (hneed : c.needDetails = true) (pclass : UInt32) :
    s.sample.counts.get pclass = detailSum c.samples i pclass +
      if (insertSymbol symb c.symbols).2 = i then symb.sample.counts.get pclass else 0 := by
  rcases insertSymbol_cases symb c.symbols with ⟨k, t, hk, -, heq⟩ | ⟨-, heq⟩
  · rw [heq] at hi ⊢
    rw [List.getElem?_set] at hi
    by_cases hki : k = i
    · subst hki
      have hlt := (List.getElem?_eq_some_iff.mp hk).1
      rw [if_pos rfl, if_pos hlt] at hi
      obtain rfl := Option.some.inj hi
      rw [if_pos rfl, h.details hneed k t hk]
      exact CountArray.get_add
    · rw [if_neg hki] at hi
      rw [if_neg hki, add_zero, h.details hneed i s hi]
  · rw [heq] at hi ⊢
    rcases Nat.lt_or_ge i c.symbols.length with hlt | hge
    · rw [List.getElem?_append_left hlt] at hi
      rw [if_neg (Nat.ne_of_gt hlt), add_zero, h.details hneed i s hi]
    · obtain rfl : i = c.symbols.length := by
        have hlt := (List.getElem?_eq_some_iff.mp hi).1
        rw [List.length_append, List.length_singleton] at hlt
        omega
      rw [List.getElem?_concat_length] at hi
      obtain rfl := Option.some.inj hi
      rw [if_pos rfl, detailSum_new h.owned, zero_add]

theorem insertSymbol_length (symb : SymbolEntry) (symbols : List SymbolEntry) :
    symbols.length ≤ (insertSymbol symb symbols).1.length ∧
    (insertSymbol symb symbols).2 < (insertSymbol symb symbols).1.length := by
  rcases insertSymbol_cases symb symbols with ⟨i, s, hi, -, heq⟩ | ⟨-, heq⟩
  · rw [heq]
    refine ⟨Nat.le_of_eq (List.length_set ..).symm, ?_⟩
    change i < (symbols.set i _).length
    rw [List.length_set]
    exact (List.getElem?_eq_some_iff.mp hi).1
  · rw [heq]
    simp

/-- A symbol goes in with its samples, all of one class. -/
theorem insertSymbol_agrees (h : Agreement c) (call : AddCall) (symIndex : Nat) (start baseVma : UInt64)
    (symb : SymbolEntry) (names : Names) (range : List Sample)
    (hcounts : symb.sample.counts = CountArray.empty.set call.pclass (accumulate range)) :
    let c₁ : ProfileContainer :=
      { c with symbols := (insertSymbol symb c.symbols).1, names := names,
               totalCount := c.totalCount.addAt call.pclass (accumulate range) }
    Agreement (if c.needDetails then
      range.foldl (addSample call symIndex (insertSymbol symb c.symbols).2 start baseVma) c₁ else c₁) := by
  intro c₁
  have hget : ∀ pclass, symb.sample.counts.get pclass =
      if call.pclass = pclass then (range.map Prod.snd).sum else 0 := by
    intro pclass
    rw [hcounts, CountArray.get_set, CountArray.get_empty, accumulate_eq_sum]
    simp only [eq_comm]
  obtain ⟨hgrows, hnode⟩ := insertSymbol_length symb c.symbols
  have htotal : ∀ pclass, c₁.totalCount.get pclass =
      (c₁.symbols.map fun s => s.sample.counts.get pclass).sum := by
    intro pclass
    change (c.totalCount.addAt call.pclass (accumulate range)).get pclass = _
    rw [CountArray.get_addAt, h.total, sum_insertSymbol, hget, accumulate_eq_sum]
    simp only [eq_comm]
  have howned : ∀ e ∈ c₁.samples, e.1.1 < c₁.symbols.length :=
    fun e he => Nat.lt_of_lt_of_le (h.owned e he) hgrows
  by_cases hneed : c.needDetails = true
  · rw [if_pos hneed]
    obtain ⟨hsymbols, htotal', -, hnodup', howned', hdetails⟩ :=
      addSamples_spec call symIndex start baseVma range c₁ h.nodup howned hnode
    refine ⟨?_, ?_, ?_, hnodup', howned'⟩
    · intro pclass
      rw [htotal', hsymbols]
      exact htotal pclass
    · intro _ i s hi pclass
      rw [hsymbols] at hi
      rw [hdetails, insertSymbol_counts h symb hi hneed pclass, hget]
      by_cases hsymbol : (insertSymbol symb c.symbols).2 = i
      · simp only [hsymbol, true_and, if_true]
        rfl
      · simp only [hsymbol, false_and, if_false]
        rfl
    · rw [hsymbols]
      exact h.distinct.insertSymbol symb
  · rw [if_neg hneed]
    exact ⟨htotal, fun hn => absurd hn hneed, h.distinct.insertSymbol symb, h.nodup, howned⟩

theorem addSymbol_agrees (h : Agreement c) (hadd : addSymbol call c symIndex sym = some c') : Agreement c' := by
  rw [addSymbol] at hadd
  obtain ⟨range, -, hround⟩ := Option.map_eq_some_iff.mp hadd
  by_cases hcount : accumulate range = 0
  · simp only [if_pos hcount] at hround
    exact hround ▸ h
  · simp only [if_neg hcount] at hround
    rw [← hround]
    exact insertSymbol_agrees h call symIndex _ sym.vma _ _ range rfl

theorem addEachSymbol_agrees (syms : List OpBfdSymbol) {c : ProfileContainer} (symIndex : Nat) (h : Agreement c) :
    Agreement (addEachSymbol call symIndex syms c) := by
  induction syms generalizing c symIndex with
  | nil => exact h
  | cons sym syms ih =>
    rw [addEachSymbol]
    split
    · exact h
    · next c₁ hadd => exact ih (symIndex + 1) (addSymbol_agrees h hadd)

end

theorem agreement_new (debugInfo needDetails : Bool) (names : Names) :
    Agreement (.new debugInfo needDetails names) where
  total _ := rfl
  details _ _ _ hi := by cases hi
  distinct := List.Pairwise.nil
  nodup := List.nodup_nil
  owned := nofun

/-! ### What a call adds -/

/-- What `less_symbol` compares, with the names spelled out. -/
structure SymbolKey where
  imageName : Text
  appName : Text
  name : Text
  vma : UInt64
  size : UInt64
  deriving DecidableEq

def SymbolEntry.key (names : Names) (s : SymbolEntry) : SymbolKey :=
  ⟨names.imageNames.get s.imageName, names.imageNames.get s.appName, names.symbolNames.get s.name, s.sample.vma, s.size⟩

def AddCall.key (call : AddCall) (sym : OpBfdSymbol) : SymbolKey :=
  ⟨call.abfd.filename, call.appName, sym.symbName, sym.vma, sym.symbSize⟩

/-- The symbols that a call gets to, with their samples: all up to the first whose range is rejected. -/
def AddCall.reached (call : AddCall) : List OpBfdSymbol → List (OpBfdSymbol × List Sample)
  | [] => []
  | sym :: syms =>
    match call.profile.samplesRange (call.abfd.getSymbolRange sym).1 (call.abfd.getSymbolRange sym).2 with
    | none => []
    | some range => (sym, range) :: call.reached syms

/-- The samples of a symbol, in sum. -/
def rangeSum (range : List Sample) : UInt64 := (range.map Prod.snd).sum

/-- The samples of a symbol that stand for an address of the image. -/
def rangeSumAt (call : AddCall) (sym : OpBfdSymbol) (range : List Sample) (vma : UInt64) : UInt64 :=
  (range.map fun it => if it.1 - (call.abfd.getSymbolRange sym).1 + sym.vma = vma then it.2 else 0).sum

/-- What one symbol of a call brings to a key and a class, and to an address of it. -/
def AddCall.brings (call : AddCall) (key : SymbolKey) (pclass : UInt32) (r : OpBfdSymbol × List Sample) : UInt64 :=
  if call.key r.1 = key ∧ call.pclass = pclass then rangeSum r.2 else 0

def AddCall.bringsAt (call : AddCall) (key : SymbolKey) (vma : UInt64) (pclass : UInt32)
    (r : OpBfdSymbol × List Sample) : UInt64 :=
  if call.key r.1 = key ∧ call.pclass = pclass ∧ rangeSum r.2 ≠ 0 then rangeSumAt call r.1 r.2 vma else 0

/-- The counts that the symbols of a key have, and those of their samples at an address. -/
def ProfileContainer.symbolCount (c : ProfileContainer) (key : SymbolKey) (pclass : UInt32) : UInt64 :=
  (c.symbols.map fun s => if s.key c.names = key then s.sample.counts.get pclass else 0).sum

def ProfileContainer.sampleCount (c : ProfileContainer) (key : SymbolKey) (vma : UInt64) (pclass : UInt32) : UInt64 :=
  (c.samples.map fun e =>
    if e.1.2 = vma ∧ (c.symbols[e.1.1]?.map (SymbolEntry.key c.names)) = some key then e.2.counts.get pclass else 0).sum

/-- An id that `create` gave for a value. -/
structure UniqueStorage.Holds (storage : UniqueStorage) (id : Nat) (value : Text) : Prop where
  stored : value ∈ storage
  place : id = storage.idxOf value + 1

namespace UniqueStorage

variable {storage later : UniqueStorage} {id id' : Nat} {value : Text}

theorem create_holds (storage : UniqueStorage) (value : Text) :
    storage <+: (storage.create value).2 ∧ (storage.create value).2.Holds (storage.create value).1 value := by
  rw [create]
  split_ifs with h
  · exact ⟨List.prefix_refl _, h, rfl⟩
  · refine ⟨List.prefix_append _ _, List.mem_append_right _ List.mem_cons_self, ?_⟩
    rw [List.idxOf_append, if_neg h, List.idxOf_cons_self, Nat.zero_add]

theorem Holds.grow (h : storage.Holds id value) (hlater : storage <+: later) : later.Holds id value := by
  obtain ⟨rest, rfl⟩ := hlater
  refine ⟨List.mem_append_left _ h.stored, ?_⟩
  rw [List.idxOf_append, if_pos h.stored]
  exact h.place

theorem Holds.get (h : storage.Holds id value) : storage.get id = value := by
  rw [UniqueStorage.get, h.place, if_neg (Nat.succ_ne_zero _), Nat.add_sub_cancel, List.getD_eq_getElem?_getD,
    List.getElem?_eq_getElem (List.idxOf_lt_length_iff.mpr h.stored), Option.getD_some, List.getElem_idxOf]

theorem Holds.id_eq (h : storage.Holds id value) (h' : storage.Holds id' value) : id = id' := h.place.trans h'.place.symm

end UniqueStorage

/-- The names only grow. -/
structure Names.Grows (names later : Names) : Prop where
  imageNames : names.imageNames <+: later.imageNames
  symbolNames : names.symbolNames <+: later.symbolNames

/-- The ids of a symbol were made for the names of its key. -/
structure SymbolEntry.Named (names : Names) (s : SymbolEntry) : Prop where
  imageName : names.imageNames.Holds s.imageName (s.key names).imageName
  appName : names.imageNames.Holds s.appName (s.key names).appName
  name : names.symbolNames.Holds s.name (s.key names).name

section Keys

variable {names later : Names} {s symb : SymbolEntry} {symbols : List SymbolEntry} {key : SymbolKey} {pclass : UInt32}

theorem Names.Grows.refl (names : Names) : names.Grows names := ⟨List.prefix_refl _, List.prefix_refl _⟩

theorem Names.Grows.trans {last : Names} (h : names.Grows later) (h' : later.Grows last) : names.Grows last :=
  ⟨h.imageNames.trans h'.imageNames, h.symbolNames.trans h'.symbolNames⟩

theorem SymbolEntry.Named.key_later (h : s.Named names) (hlater : names.Grows later) : s.key later = s.key names := by
  rw [SymbolEntry.key, (h.imageName.grow hlater.imageNames).get, (h.appName.grow hlater.imageNames).get,
    (h.name.grow hlater.symbolNames).get]
  rfl

theorem SymbolEntry.Named.grow (h : s.Named names) (hlater : names.Grows later) : s.Named later := by
  have hkey := h.key_later hlater
  constructor
  · rw [hkey]
    exact h.imageName.grow hlater.imageNames
  · rw [hkey]
    exact h.appName.grow hlater.imageNames
  · rw [hkey]
    exact h.name.grow hlater.symbolNames

/-- Symbols that were named are the same just when their keys are equal. -/
theorem SymbolEntry.Named.same_iff (h : s.Named names) (h' : symb.Named names) :
    SameSymbol s symb ↔ s.key names = symb.key names := by
  rw [sameSymbol_iff]
  constructor
  · rintro ⟨himage, happ, hname, hvma, hsize⟩
    rw [SymbolEntry.key, SymbolEntry.key, himage, happ, hname, hvma, hsize]
  · intro hkey
    have himage := h.imageName
    have happ := h.appName
    have hname := h.name
    rw [hkey] at himage happ hname
    exact ⟨himage.id_eq h'.imageName, happ.id_eq h'.appName, hname.id_eq h'.name, congrArg SymbolKey.vma hkey,
      congrArg SymbolKey.size hkey⟩

theorem insertSymbol_named (hsymbols : ∀ s ∈ symbols, s.Named names) (h : symb.Named names) :
    ∀ s ∈ (insertSymbol symb symbols).1, s.Named names := by
  rcases insertSymbol_cases symb symbols with ⟨i, t, hi, -, heq⟩ | ⟨-, heq⟩
  · rw [heq]
    intro s hs
    rcases List.mem_or_eq_of_mem_set hs with hs | rfl
    · exact hsymbols s hs
    · have ht := hsymbols t (List.mem_of_getElem? hi)
      exact ⟨ht.imageName, ht.appName, ht.name⟩
  · rw [heq]
    intro s hs
    rcases List.mem_append.mp hs with hs | hs
    · exact hsymbols s hs
    · rw [List.mem_singleton.mp hs]
      exact h

/-- The node of an insertion has the key of the inserted symbol. -/
theorem insertSymbol_key (hsymbols : ∀ s ∈ symbols, s.Named names) (h : symb.Named names) :
    (insertSymbol symb symbols).1[(insertSymbol symb symbols).2]?.map (SymbolEntry.key names) = some (symb.key names) := by
  rcases insertSymbol_cases symb symbols with ⟨i, s, hi, hsame, heq⟩ | ⟨-, heq⟩
  · obtain ⟨hlt, -⟩ := List.getElem?_eq_some_iff.mp hi
    rw [heq, List.getElem?_set_self hlt, ← ((hsymbols s (List.mem_of_getElem? hi)).same_iff h).mp hsame]
    rfl
  · rw [heq, List.getElem?_concat_length]
    rfl

/-- Every other node keeps the key that it had. -/
theorem insertSymbol_key_old (symb : SymbolEntry) (names : Names) {i : Nat} (hi : i < symbols.length) :
    (insertSymbol symb symbols).1[i]?.map (SymbolEntry.key names) = symbols[i]?.map (SymbolEntry.key names) := by
  rcases insertSymbol_cases symb symbols with ⟨j, s, hj, -, heq⟩ | ⟨-, heq⟩
  · rw [heq, List.getElem?_set]
    split_ifs with hji hlt
    · rw [← hji, hj]
      rfl
    · exact absurd (List.getElem?_eq_some_iff.mp hj).1 hlt
    · rfl
  · rw [heq, List.getElem?_append_left hi]

/-- An insertion adds the counts of the symbol to those of its key. -/
theorem insertSymbol_count (hsymbols : ∀ s ∈ symbols, s.Named names) (h : symb.Named names) :
    ((insertSymbol symb symbols).1.map fun s => if s.key names = key then s.sample.counts.get pclass else 0).sum =
      (symbols.map fun s => if s.key names = key then s.sample.counts.get pclass else 0).sum +
        if symb.key names = key then symb.sample.counts.get pclass else 0 := by
  induction symbols with
  | nil => simp [insertSymbol]
  | cons s symbols ih =>
    obtain ⟨hs, hrest⟩ := List.forall_mem_cons.mp hsymbols
    rw [insertSymbol]
    split_ifs with hsame hkey hkey
    · have hs : s.key names = key := ((hs.same_iff h).mp hsame).trans hkey
      have hadded : (s.addCounts symb.sample.counts).key names = key := hs
      simp only [List.map_cons, List.sum_cons, if_pos hs, if_pos hadded]
      rw [SymbolEntry.addCounts, CountArray.get_add]
      exact add_right_comm _ _ _
    · have hs : s.key names ≠ key := fun heq => hkey (((hs.same_iff h).mp hsame).symm.trans heq)
      have hadded : (s.addCounts symb.sample.counts).key names ≠ key := hs
      simp only [List.map_cons, List.sum_cons, if_neg hs, if_neg hadded, add_zero]
    · have hih := ih hrest
      rw [if_pos hkey] at hih
      simp only [List.map_cons, List.sum_cons, hih]
      exact (add_assoc _ _ _).symm
    · have hih := ih hrest
      rw [if_neg hkey] at hih
      simp only [List.map_cons, List.sum_cons, hih]
      exact (add_assoc _ _ _).symm

end Keys

section Adding

variable {call : AddCall} {c c' : ProfileContainer} {symIndex symbol : Nat} {sym : OpBfdSymbol} {key : SymbolKey}
  {vma : UInt64} {pclass : UInt32}

theorem fileLocation_grows (debugInfo : Bool) (abfd : OpBfd) (symIndex : Nat) (offset : UInt64) (names : Names) :
    (fileLocation debugInfo abfd symIndex offset names).2.imageNames = names.imageNames ∧
      (fileLocation debugInfo abfd symIndex offset names).2.symbolNames = names.symbolNames := by
  rw [fileLocation]
  split <;> exact ⟨rfl, rfl⟩

/-- The entry that `add` makes of a symbol has its key. -/
theorem symbolEntry_spec (call : AddCall) (debugInfo : Bool) (symIndex : Nat) (sym : OpBfdSymbol) (count : UInt64)
    (names : Names) :
    let made := symbolEntry call debugInfo symIndex sym count names
    names.Grows made.2 ∧ made.1.Named made.2 ∧ made.1.key made.2 = call.key sym ∧
      made.1.sample.counts = CountArray.empty.set call.pclass count := by
  intro made
  obtain ⟨hsymbols, hname⟩ := UniqueStorage.create_holds names.symbolNames sym.symbName
  let named : Names := { names with symbolNames := (names.symbolNames.create sym.symbName).2 }
  let located := (fileLocation debugInfo call.abfd symIndex (call.abfd.getSymbolRange sym).1 named).2
  obtain ⟨hsameImages, hsameSymbols⟩ :=
    fileLocation_grows debugInfo call.abfd symIndex (call.abfd.getSymbolRange sym).1 named
  obtain ⟨himages, himage⟩ := UniqueStorage.create_holds located.imageNames call.abfd.filename
  obtain ⟨hwithApp, happ⟩ :=
    UniqueStorage.create_holds (located.imageNames.create call.abfd.filename).2 call.appName
  have hlast : ((located.imageNames.create call.abfd.filename).2.create call.appName).2 <+: made.2.imageNames := by
    let withApp := ((located.imageNames.create call.abfd.filename).2.create call.appName).2
    have hmade : made.2.imageNames =
        (if call.profile.fileHeader.spuProfile ∧ call.profile.fileHeader.embeddedOffset ≠ 0 then
          withApp.create call.abfd.embeddingFilename else (0, withApp)).2 := rfl
    rw [hmade]
    split_ifs
    · exact (UniqueStorage.create_holds _ _).1
    · exact List.prefix_refl _
  have hlastSymbols : made.2.symbolNames = (names.symbolNames.create sym.symbName).2 := hsameSymbols
  have hname' : made.2.symbolNames.Holds made.1.name sym.symbName := by
    rw [hlastSymbols]
    exact hname
  have himage' : made.2.imageNames.Holds made.1.imageName call.abfd.filename := (himage.grow hwithApp).grow hlast
  have happ' : made.2.imageNames.Holds made.1.appName call.appName := happ.grow hlast
  have hkey : made.1.key made.2 = call.key sym := by
    have hsize : made.1.size = sym.symbSize := by
      show (call.abfd.getSymbolRange sym).2 - (call.abfd.getSymbolRange sym).1 = _
      rw [OpBfd.getSymbolRange]
      show _ + sym.symbSize - _ = _
      rw [UInt64.add_comm, UInt64.add_sub_cancel]
    rw [SymbolEntry.key, himage'.get, happ'.get, hname'.get, hsize]
    rfl
  refine ⟨⟨?_, ?_⟩, ⟨?_, ?_, ?_⟩, hkey, rfl⟩
  · have hstart : names.imageNames <+: located.imageNames := by rw [hsameImages]
    exact ((hstart.trans himages).trans hwithApp).trans hlast
  · rw [hlastSymbols]
    exact hsymbols
  · rw [hkey]
    exact himage'
  · rw [hkey]
    exact happ'
  · rw [hkey]
    exact hname'

/-- The loop of `add_samples` adds every sample at its address, and leaves the names of the symbols. -/
theorem addSamples_adds (call : AddCall) (symIndex symbol : Nat) (start baseVma : UInt64) (range : List Sample)
    (c : ProfileContainer) (counts : Nat × UInt64 → Bool) (pclass : UInt32) :
    let c' := range.foldl (addSample call symIndex symbol start baseVma) c
    c'.symbols = c.symbols ∧ c'.needDetails = c.needDetails ∧ c'.names.imageNames = c.names.imageNames ∧
      c'.names.symbolNames = c.names.symbolNames ∧
      (c'.samples.map fun e => if counts e.1 then e.2.counts.get pclass else 0).sum =
        (c.samples.map fun e => if counts e.1 then e.2.counts.get pclass else 0).sum +
          (range.map fun it =>
            if counts (symbol, it.1 - start + baseVma) ∧ call.pclass = pclass then it.2 else 0).sum := by
  induction range generalizing c with
  | nil => exact ⟨rfl, rfl, rfl, rfl, (add_zero _).symm⟩
  | cons it range ih =>
    obtain ⟨hsymbols, hneed, himages, hnames, hsum⟩ := ih (addSample call symIndex symbol start baseVma c it)
    obtain ⟨himage, hname⟩ := fileLocation_grows c.debugInfo call.abfd symIndex it.1 c.names
    refine ⟨hsymbols, hneed, himages.trans himage, hnames.trans hname, ?_⟩
    rw [List.foldl_cons, hsum, List.map_cons, List.sum_cons, ← add_assoc]
    congr 1
    refine Tally.sum_upsert (fun (k : Nat × UInt64) (e : SampleEntry) => if counts k then e.counts.get pclass else 0)
      (fun e => ?_) ?_
    · simp only [CountArray.get_add, CountArray.get_set, CountArray.get_empty]
      by_cases hk : counts (symbol, it.1 - start + baseVma) = true <;> by_cases hp : pclass = call.pclass <;>
        simp [hk, hp, eq_comm]
    · simp only [CountArray.get_set, CountArray.get_empty]
      by_cases hk : counts (symbol, it.1 - start + baseVma) = true <;> by_cases hp : pclass = call.pclass <;>
        simp [hk, hp, eq_comm]

/-- What a step of `add` does to what is stored under the keys. -/
structure Adds (call : AddCall) (rs : List (OpBfdSymbol × List Sample)) (c c' : ProfileContainer) : Prop where
  named : ∀ s ∈ c'.symbols, s.Named c'.names
  needDetails : c'.needDetails = c.needDetails
  symbolCount : ∀ key pclass, c'.symbolCount key pclass = c.symbolCount key pclass + (rs.map (call.brings key pclass)).sum
  sampleCount : c.needDetails = true → ∀ key vma pclass,
    c'.sampleCount key vma pclass = c.sampleCount key vma pclass + (rs.map (call.bringsAt key vma pclass)).sum

theorem Adds.trans {rs rs' : List (OpBfdSymbol × List Sample)} {c₁ : ProfileContainer} (h : Adds call rs c c₁)
    (h' : Adds call rs' c₁ c') : Adds call (rs ++ rs') c c' where
  named := h'.named
  needDetails := h'.needDetails.trans h.needDetails
  symbolCount key pclass := by
    rw [h'.symbolCount, h.symbolCount, List.map_append, List.sum_append, add_assoc]
  sampleCount hneed key vma pclass := by
    rw [h'.sampleCount (h.needDetails.trans hneed), h.sampleCount hneed, List.map_append, List.sum_append, add_assoc]

/-- A symbol with samples goes to the node of its key. -/
theorem insertSymbol_adds (h : Agreement c) (hnamed : ∀ s ∈ c.symbols, s.Named c.names) (call : AddCall)
    (symIndex : Nat) (sym : OpBfdSymbol) {symb : SymbolEntry} {names : Names} {range : List Sample}
    (hgrows : c.names.Grows names) (hsymb : symb.Named names) (hkey : symb.key names = call.key sym)
    (hcounts : symb.sample.counts = CountArray.empty.set call.pclass (accumulate range))
    (hsome : accumulate range ≠ 0) :
    let c₁ : ProfileContainer :=
      { c with symbols := (insertSymbol symb c.symbols).1, names := names,
               totalCount := c.totalCount.addAt call.pclass (accumulate range) }
    Adds call [(sym, range)] c (if c.needDetails then
      range.foldl (addSample call symIndex (insertSymbol symb c.symbols).2 (call.abfd.getSymbolRange sym).1 sym.vma) c₁
      else c₁) := by
  intro c₁
  have hsum : accumulate range = rangeSum range := accumulate_eq_sum range
  have hbefore : ∀ s ∈ c.symbols, s.Named names := fun s hs => (hnamed s hs).grow hgrows
  have hnamed₁ : ∀ s ∈ c₁.symbols, s.Named c₁.names := insertSymbol_named hbefore hsymb
  have hsame : ∀ s ∈ c.symbols, s.key names = s.key c.names := fun s hs => (hnamed s hs).key_later hgrows
  have hsymbolCount : ∀ key pclass, c₁.symbolCount key pclass =
      c.symbolCount key pclass + ([(sym, range)].map (call.brings key pclass)).sum := by
    intro key pclass
    have hold : (c.symbols.map fun s => if s.key names = key then s.sample.counts.get pclass else 0) =
        c.symbols.map fun s => if s.key c.names = key then s.sample.counts.get pclass else 0 :=
      List.map_congr_left fun s hs => by rw [hsame s hs]
    show ((insertSymbol symb c.symbols).1.map _).sum = _
    rw [insertSymbol_count hbefore hsymb, hold, hkey, hcounts, hsum, CountArray.get_set, CountArray.get_empty,
      List.map_singleton, List.sum_singleton, AddCall.brings]
    congr 1
    by_cases hk : call.key sym = key <;> by_cases hp : pclass = call.pclass <;>
      simp [hk, hp, eq_comm]
  by_cases hneed : c.needDetails = true
  · rw [if_pos hneed]
    have hloop := addSamples_adds call symIndex (insertSymbol symb c.symbols).2 (call.abfd.getSymbolRange sym).1
      sym.vma range c₁
    generalize range.foldl (addSample call symIndex (insertSymbol symb c.symbols).2 (call.abfd.getSymbolRange sym).1
      sym.vma) c₁ = c' at hloop ⊢
    obtain ⟨hsymbols, hneed', himages, hnames, -⟩ := hloop (fun _ => true) 0
    have hkeys (s : SymbolEntry) : s.key c'.names = s.key c₁.names := by
      rw [SymbolEntry.key, SymbolEntry.key, himages, hnames]
    refine ⟨fun s hs => ?_, hneed', fun key pclass => ?_, fun _ key vma pclass => ?_⟩
    · rw [hsymbols] at hs
      exact (hnamed₁ s hs).grow ⟨by rw [himages], by rw [hnames]⟩
    · rw [← hsymbolCount key pclass, ProfileContainer.symbolCount, ProfileContainer.symbolCount, hsymbols]
      simp only [hkeys]
    · obtain ⟨-, -, -, -, hsamples⟩ := hloop (fun e => e.2 = vma ∧ (c₁.symbols[e.1]?.map (SymbolEntry.key c₁.names)) = some key) pclass
      have hnodes (i : Nat) (hi : i < c.symbols.length) : c₁.symbols[i]?.map (SymbolEntry.key c₁.names) =
          c.symbols[i]?.map (SymbolEntry.key c.names) := by
        rw [insertSymbol_key_old symb names hi, List.getElem?_eq_getElem hi]
        exact congrArg some (hsame _ (List.getElem_mem hi))
      have hkeys' : SymbolEntry.key c'.names = SymbolEntry.key c₁.names := funext hkeys
      simp only [decide_eq_true_eq] at hsamples
      rw [ProfileContainer.sampleCount, hsymbols, hkeys', hsamples]
      have hold : (c₁.samples.map fun e =>
          if e.1.2 = vma ∧ (c₁.symbols[e.1.1]?.map (SymbolEntry.key c₁.names)) = some key then e.2.counts.get pclass
          else 0) = c.samples.map fun e =>
          if e.1.2 = vma ∧ (c.symbols[e.1.1]?.map (SymbolEntry.key c.names)) = some key then e.2.counts.get pclass
          else 0 := by
        refine List.map_congr_left fun e he => ?_
        rw [hnodes e.1.1 (h.owned e he)]
      rw [hold, ProfileContainer.sampleCount, List.map_singleton, List.sum_singleton, AddCall.bringsAt]
      congr 1
      have hnode : c₁.symbols[(insertSymbol symb c.symbols).2]?.map (SymbolEntry.key c₁.names) = some (call.key sym) := by
        rw [insertSymbol_key hbefore hsymb, hkey]
      rw [hnode]
      by_cases hk : call.key sym = key <;> by_cases hp : call.pclass = pclass <;>
        simp [hk, hp, hsum ▸ hsome, rangeSumAt]
  · rw [if_neg hneed]
    exact ⟨hnamed₁, rfl, hsymbolCount, fun hn => absurd hn hneed⟩

theorem addSymbol_adds (h : Agreement c) (hnamed : ∀ s ∈ c.symbols, s.Named c.names) {range : List Sample}
    (hrange : call.profile.samplesRange (call.abfd.getSymbolRange sym).1 (call.abfd.getSymbolRange sym).2 = some range) :
    ∃ c', addSymbol call c symIndex sym = some c' ∧ Adds call [(sym, range)] c c' := by
  rw [addSymbol]
  simp only [hrange, Option.map_some]
  refine ⟨_, rfl, ?_⟩
  by_cases hcount : accumulate range = 0
  · rw [if_pos hcount]
    have hsum : rangeSum range = 0 := (accumulate_eq_sum range).symm.trans hcount
    refine ⟨hnamed, rfl, fun key pclass => ?_, fun _ key vma pclass => ?_⟩
    · simp [AddCall.brings, hsum]
    · simp [AddCall.bringsAt, hsum]
  · rw [if_neg hcount]
    obtain ⟨hgrows, hsymb, hkey, hcounts⟩ := symbolEntry_spec call c.debugInfo symIndex sym (accumulate range) c.names
    exact insertSymbol_adds h hnamed call symIndex sym hgrows hsymb hkey hcounts hcount

theorem addEachSymbol_adds (syms : List OpBfdSymbol) {c : ProfileContainer} (symIndex : Nat) (h : Agreement c)
    (hnamed : ∀ s ∈ c.symbols, s.Named c.names) :
    Adds call (call.reached syms) c (addEachSymbol call symIndex syms c) := by
  have hnothing : Adds call [] c c :=
    ⟨hnamed, rfl, fun _ _ => (add_zero _).symm, fun _ _ _ _ => (add_zero _).symm⟩
  induction syms generalizing c symIndex with
  | nil => exact hnothing
  | cons sym syms ih =>
    rw [addEachSymbol, AddCall.reached]
    cases hrange : call.profile.samplesRange (call.abfd.getSymbolRange sym).1 (call.abfd.getSymbolRange sym).2 with
    | none =>
      have hthrows : addSymbol call c symIndex sym = none := by
        rw [addSymbol]
        simp only [hrange, Option.map_none]
      rw [hthrows]
      exact hnothing
    | some range =>
      obtain ⟨c₁, hadd, hadds⟩ : ∃ c₁, addSymbol call c symIndex sym = some c₁ ∧ Adds call [(sym, range)] c c₁ :=
        addSymbol_adds h hnamed hrange
      rw [hadd]
      exact hadds.trans (ih (symIndex + 1) (addSymbol_agrees h hadd) hadds.named
        ⟨hadds.named, rfl, fun _ _ => (add_zero _).symm, fun _ _ _ _ => (add_zero _).symm⟩)

end Adding

/-- No two symbols have one key. -/
theorem nodup_keys {names : Names} {symbols : List SymbolEntry} (h : Distinct symbols)
    (hnamed : ∀ s ∈ symbols, s.Named names) : (symbols.map (SymbolEntry.key names)).Nodup := by
  rw [List.Nodup, List.pairwise_map]
  refine h.imp_of_mem fun hs ht hdistinct heq => ?_
  exact hdistinct (((hnamed _ hs).same_iff (hnamed _ ht)).mpr heq)

/-- What a run of calls leaves: the levels agree, every key is stored once, and what the calls brought is there. -/
structure Stored (calls : List AddCall) (c : ProfileContainer) : Prop where
  agreement : Agreement c
  once : (c.symbols.map (SymbolEntry.key c.names)).Nodup
  symbolCount : ∀ key pclass, c.symbolCount key pclass =
    (calls.map fun call => ((call.reached call.abfd.syms).map (call.brings key pclass)).sum).sum
  sampleCount : c.needDetails = true → ∀ key vma pclass, c.sampleCount key vma pclass =
    (calls.map fun call => ((call.reached call.abfd.syms).map (call.bringsAt key vma pclass)).sum).sum

theorem stored_run (debugInfo needDetails : Bool) (names : Names) (calls : List AddCall) :
    let c := calls.foldl ProfileContainer.add (.new debugInfo needDetails names)
    Stored calls c ∧ (∀ s ∈ c.symbols, s.Named c.names) ∧ c.needDetails = needDetails := by
  induction calls using List.reverseRecOn with
  | nil =>
    exact ⟨⟨agreement_new debugInfo needDetails names, List.nodup_nil, fun _ _ => rfl, fun _ _ _ _ => rfl⟩, nofun, rfl⟩
  | append_singleton calls call ih =>
    obtain ⟨hstored, hnamed, hneed⟩ := ih
    rw [List.foldl_append, List.foldl_cons, List.foldl_nil]
    generalize calls.foldl ProfileContainer.add (.new debugInfo needDetails names) = c at hstored hnamed hneed
    have hadds : Adds call (call.reached call.abfd.syms) c (c.add call) := addEachSymbol_adds call.abfd.syms 0 hstored.agreement hnamed
    have hagrees : Agreement (c.add call) := addEachSymbol_agrees call.abfd.syms 0 hstored.agreement
    refine ⟨⟨hagrees, nodup_keys hagrees.distinct hadds.named, fun key pclass => ?_, fun hn key vma pclass => ?_⟩,
      hadds.named, hadds.needDetails.trans hneed⟩
    · rw [hadds.symbolCount, hstored.symbolCount, List.map_append, List.sum_append, List.map_singleton,
        List.sum_singleton]
    · have hn' : c.needDetails = true := hadds.needDetails.symm.trans hn
      rw [hadds.sampleCount hn', hstored.sampleCount hn', List.map_append, List.sum_append, List.map_singleton,
        List.sum_singleton]

/-- After any calls of `add`, thrown out of or not, the levels agree and hold what the calls brought; and one more
call adds to every symbol, and to every sample of it, what it brings. -/
theorem profileContainer_agrees (debugInfo needDetails : Bool) (names : Names) (calls : List AddCall) :
    let c := calls.foldl ProfileContainer.add (.new debugInfo needDetails names)
    Stored calls c ∧
    (∀ call key pclass, (c.add call).symbolCount key pclass =
      c.symbolCount key pclass + ((call.reached call.abfd.syms).map (call.brings key pclass)).sum) ∧
    (needDetails = true → ∀ call key vma pclass, (c.add call).sampleCount key vma pclass =
      c.sampleCount key vma pclass + ((call.reached call.abfd.syms).map (call.bringsAt key vma pclass)).sum) ∧
    (∀ symb i s, c.symbols[i]? = some s → SameSymbol s symb →
      insertSymbol symb c.symbols = (c.symbols.set i (s.addCounts symb.sample.counts), i)) ∧
    (∀ sample symbol j e, c.samples[j]? = some ((symbol, sample.vma), e) →
      insertSample symbol sample c.samples =
        c.samples.set j ((symbol, sample.vma), { e with counts := e.counts.add sample.counts })) := by
  intro c
  obtain ⟨hstored, hnamed, hneed⟩ : Stored calls c ∧ (∀ s ∈ c.symbols, s.Named c.names) ∧ c.needDetails = needDetails :=
    stored_run debugInfo needDetails names calls
  have h := hstored.agreement
  refine ⟨hstored, fun call => (addEachSymbol_adds call.abfd.syms 0 h hnamed).symbolCount,
    fun hn call => (addEachSymbol_adds call.abfd.syms 0 h hnamed).sampleCount (hneed.trans hn),
    fun _ _ _ hi hs => insertSymbol_again h.distinct hi hs, fun _ _ _ _ hj => insertSample_again h.nodup hj⟩

/-- Two symbols, of which the samples are three times at one address and twice at another, and once. -/
def repeatedAdd : AddCall where
  profile := ⟨⟨0, 0, false, 0, 0, 0⟩, [(4, 3), (8, 2), (20, 1)], 0, by decide⟩
  abfd := ⟨['a'], [⟨none, 0, 0, 0, 16, ['f'], false, false, false⟩, ⟨none, 16, 0, 0, 16, ['g'], false, false, false⟩],
    true, 0, [], 0, fun _ _ => none⟩
  appName := ['b']
  pclass := 0

/-- Added again, they have twice the counts in the same two symbols and three samples. -/
theorem profileContainer_agrees_twice :
    let c := [repeatedAdd].foldl ProfileContainer.add (.new false true ⟨[], [], []⟩)
    (c.add repeatedAdd).symbolCount ⟨['a'], ['b'], ['f'], 0, 16⟩ 0 = 5 + 5 ∧
      (c.add repeatedAdd).sampleCount ⟨['a'], ['b'], ['f'], 0, 16⟩ 4 0 = 3 + 3 ∧
      (c.add repeatedAdd).symbols.length = 2 ∧ (c.add repeatedAdd).samples.length = 3 := by
  intro c
  obtain ⟨-, hsymbols, hsamples, -, -⟩ := profileContainer_agrees false true ⟨[], [], []⟩ [repeatedAdd]
  refine ⟨(hsymbols repeatedAdd _ 0).trans ?_, (hsamples rfl repeatedAdd _ 4 0).trans ?_, ?_, ?_⟩
  all_goals decide

end Oprofile.Libpp
