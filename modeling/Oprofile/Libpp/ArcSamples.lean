import Oprofile.Libpp.Callgraph
import Oprofile.Libutilpp.SymbolRanges

/-! Which samples `callgraph_container::add` gives to which arc. -/
namespace Oprofile.Libpp

open Libutilpp Ranges

/-- The offset of the caller in a key, and that of the callee. -/
def callerOf (key : UInt64) : Nat := key.toNat / 2 ^ 32

def calleeOf (key : UInt64) : Nat := key.toNat % 2 ^ 32

theorem keyToCallee_toNat (key : UInt64) : (keyToCallee key).toNat = calleeOf key := UInt64.toNat_toUInt32 key

theorem callerToKey_toNat (value : UInt32) : (callerToKey value).toNat = value.toNat * 2 ^ 32 := by
  have hlt := value.toNat_lt
  rw [callerToKey, UInt64.toNat_shiftLeft, UInt32.toNat_toUInt64, Nat.shiftLeft_eq]
  change value.toNat * 2 ^ 32 % 2 ^ 64 = _
  omega

/-- A symbol table in order, with disjoint ranges of 32-bit file positions. -/
structure TableOk (syms : List OpBfdSymbol) : Prop where
  sorted : syms.Pairwise fun a b => a.filepos ≤ b.filepos
  disjoint : syms.Pairwise fun a b => ∀ x, ¬(a.FileHas x ∧ b.FileHas x)
  fits : ∀ s ∈ syms, s.filepos.toNat + s.symbSize.toNat < 2 ^ 32

section

variable {syms : List OpBfdSymbol} {sym : OpBfdSymbol} {profile : Profile} {bfd : OpBfd}
  {boffset off : UInt32} {sort : CalleeSort}

/-- A caller has the samples at its offsets if it starts behind the start offset, and else none. -/
theorem callerSamples_spec (sort : CalleeSort) (boffset : UInt32) (hzero : profile.startOffset = 0) (hanon : bfd.anonObj = false)
    (hfits : sym.filepos.toNat + sym.symbSize.toNat < 2 ^ 32) :
    ∃ samples, callerSamples sort profile bfd boffset sym = some samples ∧
      (samples.Pairwise fun a b => calleeOf a.1 ≤ calleeOf b.1) ∧ samples.Nodup ∧
      ∀ s, s ∈ samples ↔ boffset.toNat < sym.filepos.toNat ∧ s ∈ profile.orderedSamples ∧
        sym.FileHas (callerOf s.1 + boffset.toNat) := by
  have hrange : bfd.getSymbolRange sym = (sym.filepos, sym.filepos + sym.symbSize) := by
    rw [OpBfd.getSymbolRange, hanon]
    rfl
  rw [callerSamples, hrange]
  have hb := UInt32.toNat_toUInt64 boffset
  by_cases hstart : boffset.toUInt64 < sym.filepos
  · have hstart' := UInt64.lt_iff_toNat_lt.mp hstart
    rw [hb] at hstart'
    have hlast : (sym.filepos + sym.symbSize).toNat = sym.filepos.toNat + sym.symbSize.toNat := by
      rw [UInt64.toNat_add]
      omega
    have hlow : (callerToKey (sym.filepos - boffset.toUInt64).toUInt32).toNat =
        (sym.filepos.toNat - boffset.toNat) * 2 ^ 32 := by
      rw [callerToKey_toNat, UInt64.toNat_toUInt32,
        UInt64.toNat_sub_of_le _ _ (UInt64.le_of_lt hstart), hb, Nat.mod_eq_of_lt (by omega)]
    have hhigh : (callerToKey (sym.filepos + sym.symbSize - boffset.toUInt64).toUInt32).toNat =
        (sym.filepos.toNat + sym.symbSize.toNat - boffset.toNat) * 2 ^ 32 := by
      rw [callerToKey_toNat, UInt64.toNat_toUInt32, UInt64.toNat_sub_of_le _ _ ?_, hlast, hb,
        Nat.mod_eq_of_lt (by omega)]
      rw [UInt64.le_iff_toNat_le, hlast, hb]
      omega
    simp only [if_pos hstart]
    generalize callerToKey (sym.filepos - boffset.toUInt64).toUInt32 = low at hlow ⊢
    generalize callerToKey (sym.filepos + sym.symbSize - boffset.toUInt64).toUInt32 = high at hhigh ⊢
    have hsamples : profile.samplesRange low high = some (profile.between low high) := by
      have hnot : ¬high < low := by
        rw [UInt64.lt_iff_toNat_lt, hlow, hhigh]
        omega
      rw [Profile.samplesRange, hzero, if_neg UInt64.not_lt_zero]
      simp only [UInt64.sub_zero, if_neg hnot, UInt64.add_zero]
      exact congrArg some (List.map_id _)
    rw [hsamples]
    have hperm := sort.perm (profile.between low high)
    refine ⟨_, rfl, ?_, ?_, fun s => ?_⟩
    · refine (sort.sorted _).imp fun h => ?_
      rwa [UInt32.le_iff_toNat_le, keyToCallee_toNat, keyToCallee_toNat] at h
    · refine hperm.nodup_iff.mpr ((profile.ordered.imp ?_).filter _)
      rintro a b hlt rfl
      exact UInt64.lt_irrefl _ hlt
    · rw [hperm.mem_iff, Profile.between, List.mem_filter, decide_eq_true_iff, UInt64.le_iff_toNat_le,
        UInt64.lt_iff_toNat_lt, hlow, hhigh]
      have hkey : ((sym.filepos.toNat - boffset.toNat) * 2 ^ 32 ≤ s.1.toNat ∧
          s.1.toNat < (sym.filepos.toNat + sym.symbSize.toNat - boffset.toNat) * 2 ^ 32) ↔
          sym.FileHas (callerOf s.1 + boffset.toNat) := by
        rw [OpBfdSymbol.FileHas, Has, callerOf]
        omega
      rw [hkey]
      exact ⟨fun h => ⟨hstart', h⟩, fun h => h.2⟩
  · simp only [if_neg hstart]
    refine ⟨[], rfl, List.Pairwise.nil, List.nodup_nil, fun s => ⟨fun h => absurd h List.not_mem_nil, fun h => absurd ?_ hstart⟩⟩
    rw [UInt64.lt_iff_toNat_lt, hb]
    exact h.1

/-- Before the upper bound stand the symbols that start at or before the offset. -/
theorem lt_upperBound_iff (hsorted : syms.Pairwise fun a b => a.filepos ≤ b.filepos) {offset : UInt64} {k : Nat}
    (hk : syms[k]? = some sym) : k < upperBound syms offset ↔ sym.filepos ≤ offset := by
  rw [upperBound]
  induction syms generalizing k with
  | nil => cases hk
  | cons s syms ih =>
    obtain ⟨hfirst, hrest⟩ := List.pairwise_cons.mp hsorted
    by_cases hs : s.filepos ≤ offset
    · simp only [List.takeWhile_cons, hs, decide_true, if_true, List.length_cons]
      cases k with
      | zero =>
        obtain rfl := Option.some.inj hk
        exact ⟨fun _ => hs, fun _ => Nat.succ_pos _⟩
      | succ k => exact Nat.succ_lt_succ_iff.trans (ih hrest hk)
    · simp only [List.takeWhile_cons, hs, decide_false, Bool.false_eq_true, if_false, List.length_nil]
      refine ⟨fun h => absurd h (Nat.not_lt_zero k), fun h => absurd ?_ hs⟩
      cases k with
      | zero =>
        obtain rfl := Option.some.inj hk
        exact h
      | succ k => exact UInt64.le_trans (hfirst sym (List.mem_of_getElem? hk)) h

/-- The callee of an offset: the last symbol that starts at or before it, or the first one if none does,
provided that the offset is before its end. -/
structure Nearest (syms : List OpBfdSymbol) (x j : Nat) : Prop where
  start : 0 < j → ∀ b, syms[j]? = some b → b.filepos.toNat ≤ x
  last : ∀ k b, j < k → syms[k]? = some b → x < b.filepos.toNat
  inEnd : ∃ b, syms[j]? = some b ∧ x < b.filepos.toNat + b.symbSize.toNat

/-- What `callee_sym` gives for an offset of a table that is in order. -/
theorem calleeSym_spec (h : TableOk bfd.syms) (hne : bfd.syms ≠ []) (boffset off : UInt32) :
    (calleeSym bfd boffset off = .dropped ∧ ∀ j, ¬Nearest bfd.syms (off.toNat + boffset.toNat) j) ∨
    ∃ j calleeEnd, calleeSym bfd boffset off = .found j calleeEnd ∧
      Nearest bfd.syms (off.toNat + boffset.toNat) j ∧
      (∀ j', Nearest bfd.syms (off.toNat + boffset.toNat) j' → j' = j) ∧
      ∀ b, bfd.syms[j]? = some b → ∀ off' : UInt32,
        (off' < calleeEnd ↔ off'.toNat + boffset.toNat < b.filepos.toNat + b.symbSize.toNat) := by
  have hx : (off.toUInt64 + boffset.toUInt64).toNat = off.toNat + boffset.toNat := by
    have h1 := off.toNat_lt
    have h2 := boffset.toNat_lt
    rw [UInt64.toNat_add, UInt32.toNat_toUInt64, UInt32.toNat_toUInt64]
    omega
  rw [calleeSym]
  generalize off.toUInt64 + boffset.toUInt64 = offset at hx ⊢
  have hbound : upperBound bfd.syms offset ≤ bfd.syms.length := (List.takeWhile_sublist _).length_le
  have hpos := List.length_pos_iff.mpr hne
  obtain ⟨it, hit⟩ : ∃ it, bfd.syms[upperBound bfd.syms offset - 1]? = some it :=
    ⟨_, List.getElem?_eq_getElem (by omega)⟩
  have hfits := h.fits it (List.mem_of_getElem? hit)
  have hend : (it.symbSize + it.filepos).toNat = it.filepos.toNat + it.symbSize.toNat := by
    rw [UInt64.toNat_add]
    omega
  have hend32 : (it.symbSize + it.filepos).toUInt32.toUInt64.toNat = it.filepos.toNat + it.symbSize.toNat := by
    rw [UInt32.toNat_toUInt64, UInt64.toNat_toUInt32, hend, Nat.mod_eq_of_lt hfits]
  have hstart : 0 < upperBound bfd.syms offset - 1 → it.filepos.toNat ≤ off.toNat + boffset.toNat := by
    intro hpos'
    have hle := (lt_upperBound_iff h.sorted hit).mp (show _ < upperBound bfd.syms offset by omega)
    rwa [UInt64.le_iff_toNat_le, hx] at hle
  have hlast : ∀ k b, upperBound bfd.syms offset - 1 < k → bfd.syms[k]? = some b →
      off.toNat + boffset.toNat < b.filepos.toNat := by
    intro k b hk hb
    have hnot : ¬b.filepos ≤ offset := fun hle => by
      have hlt := (lt_upperBound_iff h.sorted hb).mpr hle
      omega
    rwa [UInt64.le_iff_toNat_le, hx, Nat.not_le] at hnot
  have hunique : ∀ j', Nearest bfd.syms (off.toNat + boffset.toNat) j' →
      j' = upperBound bfd.syms offset - 1 := by
    intro j' hj'
    obtain ⟨b, hb, -⟩ := hj'.inEnd
    rcases Nat.lt_trichotomy j' (upperBound bfd.syms offset - 1) with hlt | heq | hgt
    · exact absurd (hj'.last _ it hlt hit) (Nat.not_lt.mpr (hstart (by omega)))
    · exact heq
    · exact absurd (hlast j' b hgt hb) (Nat.not_lt.mpr (hj'.start (by omega) b hb))
  rw [hit]
  simp only
  by_cases hdrop : (it.symbSize + it.filepos).toUInt32.toUInt64 ≤ offset
  · rw [if_pos hdrop]
    refine Or.inl ⟨rfl, fun j hj => ?_⟩
    obtain rfl := hunique j hj
    obtain ⟨b, hb, hlt⟩ := hj.inEnd
    obtain rfl := Option.some.inj (hit.symm.trans hb)
    rw [UInt64.le_iff_toNat_le, hend32, hx] at hdrop
    omega
  · rw [if_neg hdrop]
    rw [UInt64.le_iff_toNat_le, hend32, hx, Nat.not_le] at hdrop
    refine Or.inr ⟨_, _, rfl, ⟨fun hpos' b hb => ?_, hlast, it, hit, hdrop⟩, hunique, fun b hb off' => ?_⟩
    · obtain rfl := Option.some.inj (hit.symm.trans hb)
      exact hstart hpos'
    · obtain rfl := Option.some.inj (hit.symm.trans hb)
      have hb64 := UInt32.toNat_toUInt64 boffset
      rw [UInt32.lt_iff_toNat_lt, UInt64.toNat_toUInt32, UInt64.toNat_sub_of_le _ _ ?_, hend, hb64,
        Nat.mod_eq_of_lt (by omega)]
      · omega
      · rw [UInt64.le_iff_toNat_le, hend, hb64]
        omega

/-- The callee `j` is found with some sample, and the other sample is behind it but before the end of `j`. -/
def FoundBy (syms : List OpBfdSymbol) (boffset : UInt32) (samples : List Sample) (j : Nat) (s : Sample) : Prop :=
  ∃ t ∈ samples, calleeOf t.1 ≤ calleeOf s.1 ∧ Nearest syms (calleeOf t.1 + boffset.toNat) j ∧
    ∃ b, syms[j]? = some b ∧ calleeOf s.1 + boffset.toNat < b.filepos.toNat + b.symbSize.toNat

/-- Two samples before the end of the callee of the first find no other callee. -/
theorem nearest_eq (h : TableOk syms) {x y i j : Nat} {a : OpBfdSymbol} (hi : Nearest syms x i)
    (ha : syms[i]? = some a) (hy : y < a.filepos.toNat + a.symbSize.toNat) (hxy : x ≤ y) (hj : Nearest syms y j) :
    j = i := by
  obtain ⟨b, hb, hby⟩ := hj.inEnd
  rcases Nat.lt_trichotomy j i with hlt | heq | hgt
  · have hstart := hi.start (by omega) a ha
    have hlast := hj.last i a hlt ha
    omega
  · exact heq
  · have hstart := hj.start (by omega) b hb
    have hle := UInt64.le_iff_toNat_le.mp (pairwise_iff.mp h.sorted i j a b hgt ha hb)
    exact absurd ⟨⟨by omega, hy⟩, ⟨hstart, hby⟩⟩ (pairwise_iff.mp h.disjoint i j a b hgt ha hb y)

/-- What the inner loop makes of samples that are in the order of the callees. -/
theorem arcsOf_spec (h : TableOk bfd.syms) (hne : bfd.syms ≠ []) (samples : List Sample)
    (hsorted : samples.Pairwise fun a b => calleeOf a.1 ≤ calleeOf b.1) :
    ∃ arcs, arcsOf bfd boffset samples = some arcs ∧ (arcs.flatMap Prod.snd).Sublist samples ∧
      ∀ j s, (∃ arc ∈ arcs, arc.1 = j ∧ s ∈ arc.2) ↔ s ∈ samples ∧ FoundBy bfd.syms boffset samples j s := by
  match samples with
  | [] =>
    refine ⟨[], by rw [arcsOf], List.Sublist.slnil, fun j s => ⟨?_, ?_⟩⟩
    · rintro ⟨arc, harc, -⟩
      cases harc
    · rintro ⟨hs, -⟩
      cases hs
  | t :: samples =>
    obtain ⟨hfirst, hrest⟩ := List.pairwise_cons.mp hsorted
    rcases calleeSym_spec h hne boffset (keyToCallee t.1) with
      ⟨hdropped, hnone⟩ | ⟨i, calleeEnd, hfound, hi, -, hend⟩
    · rw [keyToCallee_toNat] at hnone
      obtain ⟨arcs, harcs, hsub, hmem⟩ := arcsOf_spec h hne samples hrest
      refine ⟨arcs, ?_, hsub.cons t, fun j s => (hmem j s).trans ⟨?_, ?_⟩⟩
      · rw [arcsOf]
        simp only [hdropped]
        exact harcs
      · rintro ⟨hs, u, hu, hle⟩
        exact ⟨List.mem_cons_of_mem t hs, u, List.mem_cons_of_mem t hu, hle⟩
      · -- a sample that finds nothing opens no arc and is in none
        rintro ⟨hs, u, hu, hle, hnearest, hin⟩
        rcases List.mem_cons.mp hu with rfl | hu'
        · exact absurd hnearest (hnone j)
        · rcases List.mem_cons.mp hs with rfl | hs'
          · have heq : calleeOf u.1 = calleeOf s.1 := Nat.le_antisymm hle (hfirst u hu')
            rw [heq] at hnearest
            exact absurd hnearest (hnone j)
          · exact ⟨hs', u, hu', hle, hnearest, hin⟩
    · rw [keyToCallee_toNat] at hi
      obtain ⟨a, ha, hta⟩ := hi.inEnd
      have hbefore : ∀ s : Sample, decide (keyToCallee s.1 < calleeEnd) = true ↔
          calleeOf s.1 + boffset.toNat < a.filepos.toNat + a.symbSize.toNat := by
        intro s
        rw [decide_eq_true_iff, hend a ha, keyToCallee_toNat]
      have hdown : (t :: samples).Pairwise fun a b =>
          decide (keyToCallee b.1 < calleeEnd) = true → decide (keyToCallee a.1 < calleeEnd) = true := by
        refine hsorted.imp fun {c d} hle => ?_
        rw [hbefore, hbefore]
        omega
      obtain ⟨taken, rest, haccumulate⟩ : ∃ taken rest,
          accumulateCallee calleeEnd (t :: samples) = some (taken, rest) := by
        rw [accumulateCallee, List.span_eq_takeWhile_dropWhile]
        simp only [List.takeWhile_cons, (hbefore t).mpr hta, if_true, if_neg (List.cons_ne_nil _ _)]
        exact ⟨_, _, rfl⟩
      obtain ⟨htaken, hdrop, -⟩ := accumulateCallee_some haccumulate
      have hrestSorted : rest.Pairwise fun a b => calleeOf a.1 ≤ calleeOf b.1 := by
        rw [hdrop]
        exact hsorted.sublist (List.dropWhile_sublist _)
      have hlength : rest.length < samples.length + 1 := by
        rw [hdrop, List.dropWhile_cons, if_pos ((hbefore t).mpr hta)]
        exact Nat.lt_succ_of_le (List.dropWhile_sublist _).length_le
      obtain ⟨arcs, harcs, hsub, hmem⟩ := arcsOf_spec h hne rest hrestSorted
      have hmemTaken : ∀ s, s ∈ taken ↔ s ∈ t :: samples ∧
          calleeOf s.1 + boffset.toNat < a.filepos.toNat + a.symbSize.toNat := by
        intro s
        rw [htaken, Sorting.mem_takeWhile_iff hdown, hbefore]
      have hmemRest : ∀ s, s ∈ rest ↔ s ∈ t :: samples ∧
          ¬calleeOf s.1 + boffset.toNat < a.filepos.toNat + a.symbSize.toNat := by
        intro s
        rw [hdrop, Sorting.mem_dropWhile_iff hdown, hbefore]
      refine ⟨(i, taken) :: arcs, ?_, ?_, fun j s => ⟨?_, ?_⟩⟩
      · rw [arcsOf]
        simp only [hfound]
        split
        · rename_i hnone
          rw [haccumulate] at hnone
          cases hnone
        · rename_i taken' rest' hsome
          obtain ⟨rfl, rfl⟩ := Prod.mk.inj (Option.some.inj (haccumulate.symm.trans hsome))
          rw [harcs]
          rfl
      · rw [List.flatMap_cons]
        have happend := hsub.append_left taken
        rwa [htaken, hdrop, List.takeWhile_append_dropWhile, ← htaken] at happend
      · rintro ⟨arc, harc, rfl, hs⟩
        rcases List.mem_cons.mp harc with rfl | harc
        · obtain ⟨hs, hin⟩ := (hmemTaken s).mp hs
          refine ⟨hs, t, List.mem_cons_self, ?_, hi, a, ha, hin⟩
          rcases List.mem_cons.mp hs with rfl | hs
          · exact Nat.le_refl _
          · exact hfirst s hs
        · obtain ⟨hs, u, hu, hle⟩ := (hmem arc.1 s).mp ⟨arc, harc, rfl, hs⟩
          exact ⟨((hmemRest s).mp hs).1, u, ((hmemRest u).mp hu).1, hle⟩
      · rintro ⟨hs, u, hu, hle, hnearest, b, hb, hin⟩
        by_cases hua : calleeOf u.1 + boffset.toNat < a.filepos.toNat + a.symbSize.toNat
        · -- `u` finds the callee of `t`, so that `s` is counted with both
          have htu : calleeOf t.1 ≤ calleeOf u.1 := by
            rcases List.mem_cons.mp hu with rfl | hu
            · exact Nat.le_refl _
            · exact hfirst u hu
          obtain rfl := nearest_eq h hi ha hua (by omega) hnearest
          obtain rfl := Option.some.inj (ha.symm.trans hb)
          exact ⟨(j, taken), List.mem_cons_self, rfl, (hmemTaken s).mpr ⟨hs, hin⟩⟩
        · have hsa : ¬calleeOf s.1 + boffset.toNat < a.filepos.toNat + a.symbSize.toNat := by omega
          obtain ⟨arc, harc, heq⟩ := (hmem j s).mpr
            ⟨(hmemRest s).mpr ⟨hs, hsa⟩, u, (hmemRest u).mpr ⟨hu, hua⟩, hle, hnearest, b, hb, hin⟩
          exact ⟨arc, List.mem_cons_of_mem _ harc, heq⟩
termination_by samples.length

end

end Oprofile.Libpp
