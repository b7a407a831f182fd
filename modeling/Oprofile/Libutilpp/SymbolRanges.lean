import Oprofile.Library.Ranges
import Oprofile.Libutilpp.GetSymbols
import Mathlib.Data.UInt

/-! When the ranges of the symbols that `get_symbols` keeps have nothing in common. -/
namespace Oprofile.Libutilpp

open Ranges

/-- The positions of a symbol in the file. -/
def OpBfdSymbol.FileHas (s : OpBfdSymbol) (x : Nat) : Prop :=
  Has s.filepos.toNat (s.filepos.toNat + s.symbSize.toNat) x

/-- The addresses of a symbol. -/
def OpBfdSymbol.VmaHas (s : OpBfdSymbol) (x : Nat) : Prop := Has s.vma.toNat (s.vma.toNat + s.symbSize.toNat) x

/-- Wherever a symbol is followed by one of another section object, its section ends before every later
symbol that does not end where it starts. -/
def SectionsApart (sections : Sections) (fileSize : UInt64) (kept : List OpBfdSymbol) : Prop :=
  ∀ i j a n b, i < j → kept[i]? = some a → kept[i + 1]? = some n → kept[j]? = some b →
    a.bfdSection ≠ n.bfdSection →
    symbolEndpos sections a ≤ b.filepos ∨ symbolEnd sections fileSize b kept[j + 1]? ≤ b.filepos

/-- How far the section of a symbol is moved from the file to memory. -/
def OpBfdSymbol.moved (s : OpBfdSymbol) : UInt64 := s.sectionVma - s.sectionFilepos

/-- Where the symbols of one section object that a list begins with come to their end: where the section ends,
or at the last of them if that stands behind it. -/
def spanEnd (sections : Sections) (fileSize : UInt64) : List OpBfdSymbol → Nat
  | [] => 0
  | [s] => max s.filepos.toNat (symbolEnd sections fileSize s none).toNat
  | s :: n :: kept =>
    if s.bfdSection = n.bfdSection ∧ s.moved = n.moved then spanEnd sections fileSize (n :: kept)
    else max s.filepos.toNat (symbolEnd sections fileSize s (some n)).toNat

/-- The addresses of the section of a symbol from that symbol on. -/
def SpanHas (sections : Sections) (fileSize : UInt64) (s : OpBfdSymbol) (later : List OpBfdSymbol) (x : Nat) : Prop :=
  Has s.vma.toNat (s.vma.toNat + (spanEnd sections fileSize (s :: later) - s.filepos.toNat)) x

/-- Sections that lie differently in memory share no address from their kept symbols on. -/
def SpansApart (sections : Sections) (fileSize : UInt64) (kept : List OpBfdSymbol) : Prop :=
  ∀ i j a b, kept[i]? = some a → kept[j]? = some b → a.moved ≠ b.moved → ∀ x < 2 ^ 64,
    ¬(SpanHas sections fileSize a (kept.drop (i + 1)) x ∧ SpanHas sections fileSize b (kept.drop (j + 1)) x)

section

variable {sections : Sections} {fileSize : UInt64} {kept symbols : List OpBfdSymbol} {i : Nat}
  {a b : OpBfdSymbol} {next : Option OpBfdSymbol}

theorem symbolSize_toNat : (symbolSize sections fileSize a next).toNat =
    (symbolEnd sections fileSize a next).toNat - a.filepos.toNat := by
  rw [symbolSize]
  split_ifs with hlt
  · rw [UInt64.lt_iff_toNat_lt] at hlt
    rw [Nat.sub_eq_zero_of_le (Nat.le_of_lt hlt)]
    rfl
  · exact UInt64.toNat_sub_of_le _ _ (UInt64.not_lt.mp hlt)

/-- With its size a symbol has the positions up to its end. -/
theorem fileHas_sized {x : Nat} :
    ({ a with symbSize := symbolSize sections fileSize a next } : OpBfdSymbol).FileHas x ↔
      Has a.filepos.toNat (symbolEnd sections fileSize a next).toNat x := by
  change Has a.filepos.toNat (a.filepos.toNat + (symbolSize sections fileSize a next).toNat) x ↔ _
  rw [symbolSize_toNat, Has, Has]
  omega

theorem setSizes_getElem? : (setSizes sections fileSize kept)[i]? =
    kept[i]?.map fun s => { s with symbSize := symbolSize sections fileSize s kept[i + 1]? } := by
  induction kept generalizing i with
  | nil => rfl
  | cons s kept ih =>
    cases i with
    | zero =>
      rw [setSizes, List.head?_eq_getElem?]
      rfl
    | succ i => exact ih

/-- The ends of two neighbours in order. -/
theorem symbolEnd_le {n : OpBfdSymbol} (hsection : a.bfdSection = n.bfdSection) :
    symbolEnd sections fileSize a (some n) = n.filepos := by
  rw [symbolEnd, if_neg (not_not.mpr hsection)]

theorem fileDisjoint_iff (hsorted : kept.Pairwise fun a b => a.filepos ≤ b.filepos) :
    ((setSizes sections fileSize kept).Pairwise fun a b => ∀ x, ¬(a.FileHas x ∧ b.FileHas x)) ↔
      SectionsApart sections fileSize kept := by
  have hcommon : ∀ {i j : Nat} {a b : OpBfdSymbol}, i < j → kept[i]? = some a → kept[j]? = some b →
      ((∃ x, ({ a with symbSize := symbolSize sections fileSize a kept[i + 1]? } : OpBfdSymbol).FileHas x ∧
          ({ b with symbSize := symbolSize sections fileSize b kept[j + 1]? } : OpBfdSymbol).FileHas x) ↔
        b.filepos < symbolEnd sections fileSize a kept[i + 1]? ∧
        b.filepos < symbolEnd sections fileSize b kept[j + 1]?) := by
    intro i j a b hlt hi hj
    have hle := pairwise_iff.mp hsorted i j a b hlt hi hj
    simp only [fileHas_sized, UInt64.lt_iff_toNat_lt]
    exact exists_common_iff (UInt64.le_iff_toNat_le.mp hle)
  rw [pairwise_iff]
  constructor
  · intro h i j a n b hlt hi hn hj hsection
    by_contra hnot
    obtain ⟨hend, hend'⟩ := not_or.mp hnot
    have hreach : symbolEnd sections fileSize a kept[i + 1]? = symbolEndpos sections a := by
      rw [hn, symbolEnd, if_pos hsection]
    obtain ⟨x, hx⟩ := (hcommon hlt hi hj).mpr ⟨hreach ▸ UInt64.not_le.mp hend, UInt64.not_le.mp hend'⟩
    refine h i j _ _ hlt ?_ ?_ x hx
    · rw [setSizes_getElem?, hi]
      rfl
    · rw [setSizes_getElem?, hj]
      rfl
  · intro h i j a' b' hlt hi' hj' x hx
    rw [setSizes_getElem?] at hi' hj'
    obtain ⟨a, hi, rfl⟩ := Option.map_eq_some_iff.mp hi'
    obtain ⟨b, hj, rfl⟩ := Option.map_eq_some_iff.mp hj'
    obtain ⟨hend, hend'⟩ := (hcommon hlt hi hj).mp ⟨x, hx⟩
    have hjlt := (List.getElem?_eq_some_iff.mp hj).1
    obtain ⟨n, hn⟩ : ∃ n, kept[i + 1]? = some n := ⟨_, List.getElem?_eq_getElem (by omega)⟩
    rw [hn] at hend
    by_cases hsection : a.bfdSection = n.bfdSection
    · rw [symbolEnd_le hsection] at hend
      rcases Nat.lt_or_ge (i + 1) j with hlater | hsame
      · exact UInt64.not_lt.mpr (pairwise_iff.mp hsorted (i + 1) j n b hlater hn hj) hend
      · obtain rfl : j = i + 1 := by omega
        obtain rfl := Option.some.inj (hn.symm.trans hj)
        exact UInt64.lt_irrefl _ hend
    · rw [symbolEnd, if_pos hsection] at hend
      rcases h i j a n b hlt hi hn hj hsection with hle | hle
      · exact UInt64.not_lt.mpr hle hend
      · exact UInt64.not_lt.mpr hle hend'

/-- What is erased leaves the order as it is. -/
theorem eraseBoring_sublist (it : OpBfdSymbol) (symbols : List OpBfdSymbol) :
    (eraseBoring it symbols).Sublist (it :: symbols) := by
  induction symbols generalizing it with
  | nil => exact List.Sublist.refl _
  | cons temp symbols ih =>
    rw [eraseBoring]
    split_ifs
    · exact (ih temp).trans (List.sublist_cons_self _ _)
    · exact (ih it).trans ((List.sublist_cons_self temp symbols).cons_cons it)
    · exact (ih temp).cons_cons it

theorem sortSymbols_sorted (symbols : List OpBfdSymbol) :
    (sortSymbols symbols).Pairwise fun a b => a.filepos ≤ b.filepos := by
  have htotal : Std.Total fun a b : OpBfdSymbol => a.filepos ≤ b.filepos :=
    ⟨fun a b => UInt64.le_total a.filepos b.filepos⟩
  have htrans : IsTrans OpBfdSymbol fun a b => a.filepos ≤ b.filepos := ⟨fun _ _ _ => UInt64.le_trans⟩
  have hsorted := List.pairwise_insertionSort (fun a b : OpBfdSymbol => a.filepos ≤ b.filepos) symbols
  rw [sortSymbols]
  split
  · exact List.Pairwise.nil
  · next it symbols' heq =>
    rw [heq] at hsorted
    exact hsorted.sublist (eraseBoring_sublist it symbols')

/-! ### Addresses -/

/-- With its size a symbol has the addresses up to its end. -/
theorem vmaHas_sized {x : Nat} :
    ({ a with symbSize := symbolSize sections fileSize a next } : OpBfdSymbol).VmaHas x ↔
      Has a.vma.toNat (a.vma.toNat + ((symbolEnd sections fileSize a next).toNat - a.filepos.toNat)) x := by
  change Has a.vma.toNat (a.vma.toNat + (symbolSize sections fileSize a next).toNat) x ↔ _
  rw [symbolSize_toNat]

theorem le_spanEnd (s : OpBfdSymbol) (later : List OpBfdSymbol)
    (hsorted : (s :: later).Pairwise fun a b => a.filepos ≤ b.filepos) :
    s.filepos.toNat ≤ spanEnd sections fileSize (s :: later) ∧
      (symbolEnd sections fileSize s later.head?).toNat ≤ spanEnd sections fileSize (s :: later) := by
  induction later generalizing s with
  | nil => exact ⟨Nat.le_max_left _ _, Nat.le_max_right _ _⟩
  | cons n later ih =>
    rw [spanEnd]
    split_ifs with hrun
    · obtain ⟨hs, hrest⟩ := List.pairwise_cons.mp hsorted
      obtain ⟨hn, -⟩ := ih n hrest
      have hle := UInt64.le_iff_toNat_le.mp (hs n List.mem_cons_self)
      rw [List.head?_cons, symbolEnd_le hrun.1]
      exact ⟨Nat.le_trans hle hn, hn⟩
    · exact ⟨Nat.le_max_left _ _, Nat.le_max_right _ _⟩

/-- Addresses of a symbol are such of its section from it on. -/
theorem spanHas_of_vmaHas {s : OpBfdSymbol} {later : List OpBfdSymbol} {x : Nat}
    (hsorted : (s :: later).Pairwise fun a b => a.filepos ≤ b.filepos)
    (h : ({ s with symbSize := symbolSize sections fileSize s later.head? } : OpBfdSymbol).VmaHas x) :
    SpanHas sections fileSize s later x := by
  obtain ⟨hlow, hhigh⟩ := vmaHas_sized.mp h
  have hend : (symbolEnd sections fileSize s later.head?).toNat ≤ spanEnd sections fileSize (s :: later) :=
    (le_spanEnd s later hsorted).2
  exact ⟨hlow, by omega⟩

theorem vma_eq (s : OpBfdSymbol) : s.vma.toNat = (s.filepos.toNat + s.moved.toNat) % 2 ^ 64 := by
  rw [← UInt64.toNat_add, OpBfdSymbol.vma, OpBfdSymbol.filepos, OpBfdSymbol.moved, add_add_sub_cancel]

/-- And the other way round: they are those of a symbol of the section that is not before it. -/
theorem vmaHas_of_spanHas {s : OpBfdSymbol} {later : List OpBfdSymbol} {x : Nat}
    (hsorted : (s :: later).Pairwise fun a b => a.filepos ≤ b.filepos) (hx : x < 2 ^ 64)
    (h : SpanHas sections fileSize s later x) :
    ∃ (k : Nat) (a : OpBfdSymbol), (s :: later)[k]? = some a ∧ a.moved = s.moved ∧
      ({ a with symbSize := symbolSize sections fileSize a (s :: later)[k + 1]? } : OpBfdSymbol).VmaHas x := by
  induction later generalizing s with
  | nil =>
    refine ⟨0, s, rfl, rfl, vmaHas_sized.mpr ?_⟩
    obtain ⟨hlow, hhigh⟩ := h
    rw [spanEnd] at hhigh
    exact ⟨hlow, by simp only [List.getElem?_cons_succ, List.getElem?_nil]; omega⟩
  | cons n later ih =>
    obtain ⟨hs, hrest⟩ := List.pairwise_cons.mp hsorted
    obtain ⟨hlow, hhigh⟩ := h
    rw [spanEnd] at hhigh
    split_ifs at hhigh with hrun
    · by_cases hhere : x < s.vma.toNat + (n.filepos.toNat - s.filepos.toNat)
      · refine ⟨0, s, rfl, rfl, vmaHas_sized.mpr ⟨hlow, ?_⟩⟩
        show x < _ + ((symbolEnd sections fileSize s (some n)).toNat - _)
        rw [symbolEnd_le hrun.1]
        exact hhere
      · have hle := UInt64.le_iff_toNat_le.mp (hs n List.mem_cons_self)
        have hvma : n.vma.toNat = s.vma.toNat + (n.filepos.toNat - s.filepos.toNat) := by
          have hsvma := vma_eq s
          have hnvma := vma_eq n
          rw [← hrun.2] at hnvma
          omega
        obtain ⟨k, a, ha, hmoved, hhas⟩ := ih hrest ⟨by omega, by omega⟩
        exact ⟨k + 1, a, ha, hmoved.trans hrun.2.symm, hhas⟩
    · refine ⟨0, s, rfl, rfl, vmaHas_sized.mpr ⟨hlow, ?_⟩⟩
      show x < _ + ((symbolEnd sections fileSize s (some n)).toNat - _)
      omega

/-- The symbols that lie differently in memory share no address just when their sections do not from them on. -/
theorem vmaDisjoint_iff (hsorted : kept.Pairwise fun a b => a.filepos ≤ b.filepos) :
    ((setSizes sections fileSize kept).Pairwise fun a b => a.moved ≠ b.moved → ∀ x, ¬(a.VmaHas x ∧ b.VmaHas x)) ↔
      SpansApart sections fileSize kept := by
  have hdrop {i : Nat} {a : OpBfdSymbol} (hi : kept[i]? = some a) : kept.drop i = a :: kept.drop (i + 1) := by
    obtain ⟨hlt, rfl⟩ := List.getElem?_eq_some_iff.mp hi
    exact List.drop_eq_getElem_cons hlt
  have hsorted' {i : Nat} {a : OpBfdSymbol} (hi : kept[i]? = some a) :
      (a :: kept.drop (i + 1)).Pairwise fun a b => a.filepos ≤ b.filepos := by
    rw [← hdrop hi]
    exact hsorted.sublist (List.drop_sublist i kept)
  have hhead (i : Nat) : (kept.drop (i + 1)).head? = kept[i + 1]? := by
    rw [List.head?_drop]
  rw [pairwise_iff]
  constructor
  · intro h i j a b hi hj hmoved x hx hspans
    obtain ⟨k, a', ha, hsame, hhas⟩ := vmaHas_of_spanHas (hsorted' hi) hx hspans.1
    obtain ⟨k', b', hb, hsame', hhas'⟩ := vmaHas_of_spanHas (hsorted' hj) hx hspans.2
    rw [← hdrop hi, List.getElem?_drop] at ha hhas
    rw [← hdrop hj, List.getElem?_drop] at hb hhas'
    have hapart : a'.moved ≠ b'.moved := by
      rw [hsame, hsame']
      exact hmoved
    have hsized {m : Nat} {c : OpBfdSymbol} (hm : kept[m]? = some c) : (setSizes sections fileSize kept)[m]? =
        some { c with symbSize := symbolSize sections fileSize c kept[m + 1]? } := by
      rw [setSizes_getElem?, hm]
      rfl
    rcases Nat.lt_trichotomy (i + k) (j + k') with hlt | heq | hgt
    · exact h _ _ _ _ hlt (hsized ha) (hsized hb) hapart x ⟨hhas, hhas'⟩
    · rw [heq] at ha
      exact hapart (congrArg _ (Option.some.inj (ha.symm.trans hb)))
    · exact h _ _ _ _ hgt (hsized hb) (hsized ha) hapart.symm x ⟨hhas', hhas⟩
  · intro h i j a' b' _ hi' hj' hmoved x hx
    rw [setSizes_getElem?] at hi' hj'
    obtain ⟨a, hi, rfl⟩ := Option.map_eq_some_iff.mp hi'
    obtain ⟨b, hj, rfl⟩ := Option.map_eq_some_iff.mp hj'
    obtain ⟨hhas, hhas'⟩ := hx
    rw [← hhead] at hhas hhas'
    obtain ⟨hlow, hhigh⟩ := spanHas_of_vmaHas (hsorted' hi) hhas
    obtain ⟨hlow', hhigh'⟩ := spanHas_of_vmaHas (hsorted' hj) hhas'
    have hvma := a.vma.toNat_lt
    have hvma' := b.vma.toNat_lt
    -- an address beyond the last one is in both only if the last one is
    exact h i j a b hi hj hmoved (min x (2 ^ 64 - 1)) (by omega) ⟨⟨by omega, by omega⟩, by omega, by omega⟩

/-- Where two sections are moved by the same distance from the file to memory, positions apart are
addresses apart. -/
theorem vmaApart_of_fileApart {x : Nat} (hend : a.filepos.toNat + a.symbSize.toNat ≤ 2 ^ 64)
    (hend' : b.filepos.toNat + b.symbSize.toNat ≤ 2 ^ 64)
    (hmoved : a.moved = b.moved)
    (h : ∀ x, ¬(a.FileHas x ∧ b.FileHas x)) : ¬(a.VmaHas x ∧ b.VmaHas x) := by
  have hsize : ∀ s : OpBfdSymbol, s.symbSize.toNat = s.filepos.toNat + s.symbSize.toNat - s.filepos.toNat :=
    fun _ => (Nat.add_sub_cancel_left ..).symm
  rintro ⟨hx, hx'⟩
  rw [OpBfdSymbol.VmaHas, vma_eq, hsize] at hx hx'
  rw [← hmoved] at hx'
  exact shift_apart hend hend' h hx hx'

theorem setSizes_end {s : OpBfdSymbol} (h : s ∈ setSizes sections fileSize kept) :
    s.filepos.toNat + s.symbSize.toNat ≤ 2 ^ 64 := by
  obtain ⟨i, hi⟩ := List.getElem?_of_mem h
  rw [setSizes_getElem?] at hi
  obtain ⟨a, -, rfl⟩ := Option.map_eq_some_iff.mp hi
  change a.filepos.toNat + (symbolSize sections fileSize a kept[i + 1]?).toNat ≤ 2 ^ 64
  have hpos := a.filepos.toNat_lt
  have hend := (symbolEnd sections fileSize a kept[i + 1]?).toNat_lt
  rw [symbolSize_toNat]
  omega

end

end Oprofile.Libutilpp
