import Oprofile.Opjitconv.Overlaps
import Mathlib.Algebra.BigOperators.Group.List.Basic

/-! Whether the scans of `resolve_overlaps` come to an end. A split makes an entry into shorter ones. -/
namespace Oprofile.Opjitconv

/-- The size of the entry is negative and takes its end below address zero. -/
def JitEntry.Underflows (e : JitEntry) : Prop := (e.vma.toNat : Int) + e.codeSize.toInt < 0

/-- The condition under which `eliminate_overlaps` splits an entry. -/
def Overlap (e keep : JitEntry) : Prop := e.vma < keep.endAddr ∧ keep.vma < e.endAddr

def JitEntry.extent (e : JitEntry) : Nat := e.endAddr.toNat - e.vma.toNat

section

variable {e keep p : JitEntry}

theorem codeSize_toNat (c : Int32) : ((c.toInt64.toUInt64.toNat : Nat) : Int) = c.toInt % 2 ^ 64 := by
  have h64 := Int32.toInt_toInt64 c
  have hbv : c.toInt64.toUInt64.toBitVec = BitVec.ofInt 64 c.toInt := by
    rw [← h64]
    exact (BitVec.ofInt_toInt).symm
  change ((c.toInt64.toUInt64.toBitVec.toNat : Nat) : Int) = _
  rw [hbv, BitVec.toNat_ofInt]
  have hnn : 0 ≤ c.toInt % ((2 ^ 64 : Nat) : Int) := Int.emod_nonneg _ (by decide)
  rw [Int.toNat_of_nonneg hnn]
  rfl

theorem endAddr_toNat (e : JitEntry) :
    (e.endAddr.toNat : Int) = (e.vma.toNat + e.codeSize.toInt) % 2 ^ 64 := by
  have hsize := codeSize_toNat e.codeSize
  rw [JitEntry.endAddr, UInt64.toNat_add]
  omega

/-- An entry ends less than 2^31 bytes behind its start, unless its end underflowed. -/
theorem extent_lt (hno : ¬e.Underflows) : e.endAddr.toNat < e.vma.toNat + 2 ^ 31 := by
  have hend := endAddr_toNat e
  have hmax := Int32.toInt_lt e.codeSize
  have hvma := e.vma.toNat_lt
  unfold JitEntry.Underflows at hno
  omega

/-- A piece that starts at one address and is as long as the distance to another ends there. -/
theorem endAddr_distance {a b : UInt64} (hle : a.toNat ≤ b.toNat) (hlt : b.toNat < a.toNat + 2 ^ 31)
    (hvma : p.vma = a) (hsize : p.codeSize = (b - a).toUInt32.toInt32) :
    p.endAddr = b ∧ ¬p.Underflows := by
  have hdist := distance_toInt hle hlt
  have hend := endAddr_toNat p
  have hb := b.toNat_lt
  rw [hvma, hsize, hdist] at hend
  refine ⟨UInt64.toNat_inj.mp (by omega), ?_⟩
  rw [JitEntry.Underflows, hsize, hdist]
  omega

/-- The right part of a split entry ends where the entry does, behind the kept one. -/
theorem splitRight_extent (hno : ¬e.Underflows) (hover : Overlap e keep) (hp : p ∈ splitRight e keep) :
    p.extent < e.extent ∧ ¬p.Underflows := by
  have hlt := UInt64.lt_iff_toNat_lt.mp hover.1
  rw [splitRight] at hp
  split_ifs at hp with hright
  · have hright' := UInt64.lt_iff_toNat_lt.mp hright
    have hext := extent_lt hno
    obtain rfl := List.mem_singleton.mp hp
    obtain ⟨hend, hno'⟩ := endAddr_distance (p := ⟨keep.endAddr, none, (e.endAddr - keep.endAddr).toUInt32.toInt32,
      e.symbolName ++ [0x23, 0x31], e.lifeStart, e.lifeEnd⟩) (a := keep.endAddr) (b := e.endAddr)
      (by omega) (by omega) rfl rfl
    refine ⟨?_, hno'⟩
    unfold JitEntry.extent
    rw [hend]
    change e.endAddr.toNat - keep.endAddr.toNat < _
    omega
  · cases hp

/-- The left part ends where the kept entry starts. -/
theorem splitLeft_extent (hno : ¬e.Underflows) (hover : Overlap e keep) (hstands : (splitLeft e keep).vma ≠ 0) :
    (splitLeft e keep).extent < e.extent ∧ ¬(splitLeft e keep).Underflows := by
  have hlt := UInt64.lt_iff_toNat_lt.mp hover.2
  rw [splitLeft] at hstands ⊢
  split_ifs at hstands ⊢ with hleft
  · have hleft' := UInt64.lt_iff_toNat_lt.mp hleft
    have hext := extent_lt hno
    obtain ⟨hend, hno'⟩ := endAddr_distance (p := { e with
      codeSize := (keep.vma - e.vma).toUInt32.toInt32, symbolName := e.symbolName ++ [0x23, 0x30] })
      (a := e.vma) (b := keep.vma) (by omega) (by omega) rfl rfl
    refine ⟨?_, hno'⟩
    unfold JitEntry.extent
    rw [hend]
    change keep.vma.toNat - e.vma.toNat < _
    omega
  · exact absurd rfl hstands

end

/-! A measure of an array: an entry outweighs two that are shorter. -/

def JitEntry.weight (e : JitEntry) : Nat := if e.vma = 0 then 0 else 3 ^ e.extent

def mass (es : List JitEntry) : Nat := (es.map JitEntry.weight).sum

/-- No entry that stands underflows. -/
def NoUnderflow (es : List JitEntry) : Prop := ∀ e ∈ es, e.vma ≠ 0 → ¬e.Underflows

section

variable {es es' extra : List JitEntry} {e keep p : JitEntry} {i : Nat}

theorem weight_pos (h : e.vma ≠ 0) : 0 < e.weight := by
  rw [JitEntry.weight, if_neg h]
  exact Nat.pow_pos (by decide)

theorem weight_le (h : p.extent < e.extent) : p.weight ≤ 3 ^ (e.extent - 1) := by
  rw [JitEntry.weight]
  split_ifs
  · exact Nat.zero_le _
  · exact Nat.pow_le_pow_right (by decide) (by omega)

/-- What a split leaves weighs less than the entry. -/
theorem split_weight (hno : ¬e.Underflows) (hstands : e.vma ≠ 0) (hover : Overlap e keep) :
    (splitLeft e keep).weight + mass (splitRight e keep) < e.weight := by
  have hleft : (splitLeft e keep).vma ≠ 0 → (splitLeft e keep).weight ≤ 3 ^ (e.extent - 1) ∧ 0 < e.extent := by
    intro h
    have hext := (splitLeft_extent hno hover h).1
    exact ⟨weight_le hext, by omega⟩
  have hright : mass (splitRight e keep) = 0 ∨ mass (splitRight e keep) ≤ 3 ^ (e.extent - 1) ∧ 0 < e.extent := by
    cases hr : splitRight e keep with
    | nil => exact Or.inl rfl
    | cons q qs =>
      have hone : qs = [] := by
        rw [splitRight] at hr
        split_ifs at hr
        exact (List.cons.inj hr).2.symm
      have hext := (splitRight_extent hno hover (hr ▸ List.mem_cons_self : q ∈ splitRight e keep)).1
      right
      rw [hone]
      exact ⟨weight_le hext, by omega⟩
  have hpow : 0 < e.extent → 3 ^ e.extent = 3 * 3 ^ (e.extent - 1) := by
    intro hpos
    rw [← pow_succ', Nat.sub_add_cancel hpos]
  have hunit : 0 < 3 ^ (e.extent - 1) := Nat.pow_pos (by decide)
  have hwhole : e.weight = 3 ^ e.extent := by rw [JitEntry.weight, if_neg hstands]
  by_cases hzero : (splitLeft e keep).vma = 0
  · have hnone : (splitLeft e keep).weight = 0 := by rw [JitEntry.weight, if_pos hzero]
    rcases hright with hr | ⟨hr, hpos⟩
    · have hw := weight_pos hstands
      omega
    · have hp := hpow hpos
      omega
  · obtain ⟨hl, hpos⟩ := hleft hzero
    have hp := hpow hpos
    omega

theorem mass_append (es es' : List JitEntry) : mass (es ++ es') = mass es + mass es' := by
  simp [mass]

theorem mass_set (hi : es[i]? = some e) (p : JitEntry) :
    mass (es.set i p) + e.weight = mass es + p.weight := by
  induction es generalizing i with
  | nil => cases hi
  | cons a es ih =>
    cases i with
    | zero =>
      obtain rfl := Option.some.inj hi
      simp only [mass, List.set_cons_zero, List.map_cons, List.sum_cons]
      omega
    | succ i =>
      have hrec := ih hi
      simp only [mass, List.set_cons_succ, List.map_cons, List.sum_cons] at hrec ⊢
      omega

theorem mass_perm (h : es.Perm es') : mass es = mass es' := (h.map _).sum_eq

end

/-! One region. -/

/-- The entries from `lo` to before `hi` may be split; the array gets no heavier. -/
structure Shrinks (lo hi : Nat) (es es' : List JitEntry) : Prop where
  grows : es.length ≤ es'.length
  frame : ∀ k < es.length, k < lo ∨ hi ≤ k → es'[k]? = es[k]?
  mass_le : mass es' ≤ mass es
  noUnderflow : NoUnderflow es'

section

variable {debug : Bool} {es es' es'' : List JitEntry} {e keep : JitEntry} {lo hi lo' hi' i keepIdx : Nat}

theorem Shrinks.refl (h : NoUnderflow es) : Shrinks lo hi es es :=
  ⟨Nat.le_refl _, fun _ _ _ => rfl, Nat.le_refl _, h⟩

theorem Shrinks.trans (h : Shrinks lo hi es es') (h' : Shrinks lo hi es' es'') : Shrinks lo hi es es'' where
  grows := Nat.le_trans h.grows h'.grows
  frame k hk hout := (h'.frame k (Nat.lt_of_lt_of_le hk h.grows) hout).trans (h.frame k hk hout)
  mass_le := Nat.le_trans h'.mass_le h.mass_le
  noUnderflow := h'.noUnderflow

theorem Shrinks.mono (h : Shrinks lo hi es es') (hlo : lo' ≤ lo) (hhi : hi ≤ hi') : Shrinks lo' hi' es es' where
  grows := h.grows
  frame k hk hout := h.frame k hk (by omega)
  mass_le := h.mass_le
  noUnderflow := h.noUnderflow

/-- An entry is replaced, and others are appended. -/
theorem shrinks_set (extra : List JitEntry) (p : JitEntry) (h : NoUnderflow es) (hi : es[i]? = some e)
    (hless : p.weight + mass extra ≤ e.weight)
    (hpieces : ∀ q ∈ p :: extra, q.vma ≠ 0 → ¬q.Underflows) :
    Shrinks i (i + 1) es (es.set i p ++ extra) where
  grows := by
    rw [List.length_append, List.length_set]
    exact Nat.le_add_right _ _
  frame k hk hout := by
    rw [List.getElem?_append_left (by rwa [List.length_set]), List.getElem?_set_ne (by omega)]
  mass_le := by
    have hset := mass_set hi p
    rw [mass_append]
    omega
  noUnderflow q hq hstands := by
    rcases List.mem_append.mp hq with hq | hq
    · rcases List.mem_or_eq_of_mem_set hq with hq | rfl
      · exact h q hq hstands
      · exact hpieces q List.mem_cons_self hstands
    · exact hpieces q (List.mem_cons_of_mem _ hq) hstands

theorem rename_shrinks (h : NoUnderflow es) (hi : es[i]? = some e) (name : List UInt8) :
    Shrinks i (i + 1) es (es.set i { e with symbolName := name }) := by
  have hset := shrinks_set [] { e with symbolName := name } h hi (Nat.le_of_eq (Nat.add_zero _)) (by
    intro q hq hstands
    obtain rfl := List.mem_singleton.mp hq
    exact h e (List.mem_of_getElem? hi) hstands)
  rwa [List.append_nil] at hset

/-- One round. An entry that overlaps the kept one makes the array lighter. -/
theorem eliminateStep_shrinks {st st' : Elimination} (hno : NoUnderflow st.entries)
    (hi : st.entries[i]? = some e) (hstands : e.vma ≠ 0)
    (h : eliminateStep debug keepIdx keep st i = some st') :
    Shrinks i (i + 1) st.entries st'.entries ∧
      (i ≠ keepIdx → Overlap e keep → mass st'.entries < mass st.entries) := by
  rw [eliminateStep] at h
  split_ifs at h with hkeep
  · cases h
    exact ⟨Shrinks.refl hno, fun hne => absurd hkeep hne⟩
  · rw [hi] at h
    simp only at h
    by_cases hassert : debug = true ∧ ¬(e.vma ≤ e.endAddr ∧ keep.vma ≤ keep.endAddr)
    · rw [if_pos hassert] at h
      cases h
    rw [if_neg hassert] at h
    have hsound := hno e (List.mem_of_getElem? hi) hstands
    by_cases hover : e.vma < keep.endAddr ∧ keep.vma < e.endAddr
    · rw [if_pos hover] at h
      obtain rfl := Option.some.inj h
      have hweight := split_weight hsound hstands hover
      refine ⟨shrinks_set _ _ hno hi (Nat.le_of_lt hweight) ?_, ?_⟩
      · intro q hq hqstands
        rcases List.mem_cons.mp hq with rfl | hq
        · exact (splitLeft_extent hsound hover hqstands).2
        · exact (splitRight_extent hsound hover hq).2
      · intro _ _
        have hset := mass_set hi (splitLeft e keep)
        change mass (st.entries.set i (splitLeft e keep) ++ splitRight e keep) < _
        rw [mass_append]
        omega
    · rw [if_neg hover] at h
      obtain rfl := Option.some.inj h
      exact ⟨Shrinks.refl hno, fun _ hov => absurd hov hover⟩

/-- The whole loop: lighter as soon as one of the entries ahead overlaps the kept one. -/
theorem eliminateLoop_shrinks (n : Nat) {i : Nat} {st st' : Elimination} (hno : NoUnderflow st.entries)
    (hstands : ∀ k, i ≤ k → k < i + n → ∃ e, st.entries[k]? = some e ∧ e.vma ≠ 0)
    (h : (List.range' i n).foldlM (eliminateStep debug keepIdx keep) st = some st') :
    Shrinks i (i + n) st.entries st'.entries ∧
      ((∃ k e, i ≤ k ∧ k < i + n ∧ k ≠ keepIdx ∧ st.entries[k]? = some e ∧ Overlap e keep) →
        mass st'.entries < mass st.entries) := by
  induction n generalizing i st with
  | zero =>
    obtain rfl := Option.some.inj h
    refine ⟨Shrinks.refl hno, ?_⟩
    rintro ⟨k, e, hlo, hhi, -⟩
    omega
  | succ n ih =>
    rw [List.range'_succ, List.foldlM_cons] at h
    obtain ⟨st₁, hstep, hrest⟩ := Option.bind_eq_some_iff.mp h
    obtain ⟨e, he, hestands⟩ := hstands i (Nat.le_refl i) (by omega)
    obtain ⟨hfirst, hless⟩ := eliminateStep_shrinks hno he hestands hstep
    have hsame : ∀ k, i + 1 ≤ k → ∀ e, st.entries[k]? = some e → st₁.entries[k]? = some e := by
      intro k hlo e he
      exact (hfirst.frame k (List.getElem?_eq_some_iff.mp he).1 (by omega)).trans he
    have hahead : ∀ k, i + 1 ≤ k → k < i + 1 + n → ∃ e, st₁.entries[k]? = some e ∧ e.vma ≠ 0 := by
      intro k hlo hhi
      obtain ⟨e, he, hestands⟩ := hstands k (by omega) (by omega)
      exact ⟨e, hsame k hlo e he, hestands⟩
    obtain ⟨hlast, hless'⟩ := ih hfirst.noUnderflow hahead hrest
    refine ⟨(hfirst.mono (Nat.le_refl i) (by omega)).trans (hlast.mono (by omega) (by omega)), ?_⟩
    rintro ⟨k, e', hlo, hhi, hne, hk, hover⟩
    by_cases hik : k = i
    · subst hik
      obtain rfl := Option.some.inj (he.symm.trans hk)
      exact Nat.lt_of_le_of_lt hlast.mass_le (hless hne hover)
    · have hlt := hless' ⟨k, e', by omega, by omega, hne, hsame k (by omega) e' hk, hover⟩
      exact Nat.lt_of_lt_of_le hlt hfirst.mass_le

/-- The entry that a region keeps overlaps none of the others. -/
def IdleRegion (es : List JitEntry) (startIdx endIdx : Nat) : Prop :=
  ∀ (idx : Nat) (keep : JitEntry), selectOne es startIdx endIdx = some idx → es[idx]? = some keep →
    ∀ (k : Nat) (e : JitEntry), startIdx ≤ k → k ≤ endIdx → k ≠ idx → es[k]? = some e → ¬Overlap e keep

theorem handleOverlapRegion_shrinks {startIdx endIdx : Nat} (hno : NoUnderflow es) (hle : startIdx ≤ endIdx)
    (hstands : ∀ k, startIdx ≤ k → k < endIdx + 1 → ∃ e, es[k]? = some e ∧ e.vma ≠ 0)
    (h : handleOverlapRegion debug startIdx endIdx es = some es') :
    Shrinks startIdx (endIdx + 1) es es' ∧ (mass es' < mass es ∨ IdleRegion es startIdx endIdx) := by
  rw [handleOverlapRegion] at h
  obtain ⟨idx, hidx, h⟩ := Option.bind_eq_some_iff.mp h
  obtain ⟨keep, hkeepIdx, h⟩ := Option.bind_eq_some_iff.mp h
  obtain ⟨⟨es₁, totaltime⟩, helim, h⟩ := Option.bind_eq_some_iff.mp h
  obtain ⟨hlo, hhi⟩ := selectOne_within hidx
  obtain ⟨st, hloop, hst⟩ := Option.map_eq_some_iff.mp helim
  have hend : startIdx + (endIdx + 1 - startIdx) = endIdx + 1 := by omega
  obtain ⟨hshrinks, hless⟩ :=
    eliminateLoop_shrinks (endIdx + 1 - startIdx) hno (by rwa [hend]) hloop
  rw [hend] at hshrinks hless
  cases hst
  by_cases hmax : st.maxEnd - st.minStart = UInt64.ofNat (2 ^ 64 - 1)
  · simp only [if_pos hmax] at h
    cases h
  simp only [if_neg hmax] at h
  obtain ⟨e', he', h⟩ := Option.bind_eq_some_iff.mp h
  obtain rfl := Option.some.inj h
  have hrename := rename_shrinks hshrinks.noUnderflow he' (markedName e'.symbolName
    (if st.maxEnd - st.minStart = 0 then 100 else e'.lifetime * 100 / (st.maxEnd - st.minStart)))
  refine ⟨hshrinks.trans (hrename.mono hlo hhi), ?_⟩
  by_cases hsome : ∃ k e, startIdx ≤ k ∧ k < endIdx + 1 ∧ k ≠ idx ∧ es[k]? = some e ∧ Overlap e keep
  · exact Or.inl (Nat.lt_of_le_of_lt hrename.mass_le (hless hsome))
  · right
    intro idx' keep' hidx' hkeep' k e hk hk' hne he hover
    obtain rfl := Option.some.inj (hidx.symm.trans hidx')
    obtain rfl := Option.some.inj (hkeepIdx.symm.trans hkeep')
    exact hsome ⟨k, e, hk, by omega, hne, he, hover⟩

end

/-! The regions of an array, which a scan hands over one by one. -/

/-- The greatest end address of the entries before `j`. -/
def endBefore (es : List JitEntry) (j : Nat) : UInt64 :=
  (es.take j).foldl (fun endAddr a => if endAddr < a.endAddr then a.endAddr else endAddr) 0

/-- The entries before `k` end before the entry `k` starts. -/
def Starts (es : List JitEntry) (k : Nat) : Prop := ∀ e, es[k]? = some e → endBefore es k ≤ e.vma

/-- More than one entry, with no gap between them. -/
structure Region (es : List JitEntry) (i last : Nat) : Prop where
  lt : i < last
  within : last < es.length
  starts : Starts es i
  stops : Starts es (last + 1)
  joined : ∀ k, i < k → k ≤ last → ¬Starts es k

/-- There are regions, and in each of them the entry that is kept overlaps none of the others. -/
def Idle (es : List JitEntry) : Prop :=
  (∃ i last, Region es i last) ∧ ∀ i last, Region es i last → IdleRegion es i last

section

variable {debug : Bool} {es es' : List JitEntry} {e : JitEntry} {st st' : Scan} {i j last : Nat}

theorem endBefore_succ (h : es[j]? = some e) :
    endBefore es (j + 1) = if endBefore es j < e.endAddr then e.endAddr else endBefore es j := by
  rw [endBefore, List.take_add_one, h, List.foldl_append]
  rfl

theorem starts_zero (es : List JitEntry) : Starts es 0 := fun _ _ => UInt64.zero_le

theorem Region.unique {i' : Nat} (h : Region es i last) (h' : Region es i' last) : i = i' := by
  rcases Nat.lt_trichotomy i i' with hlt | heq | hlt
  · exact absurd h'.starts (h.joined i' hlt (Nat.le_of_lt h'.lt))
  · exact heq
  · exact absurd h.starts (h'.joined i hlt (Nat.le_of_lt h.lt))

theorem selectOne_congr {startIdx endIdx : Nat}
    (h : ∀ k, startIdx ≤ k → k ≤ endIdx → es'[k]? = es[k]?) :
    selectOne es' startIdx endIdx = selectOne es startIdx endIdx := by
  have hloop : ∀ (is : List Nat) (best : Option (Nat × UInt64)), (∀ k ∈ is, es'[k]? = es[k]?) →
      is.foldl (selectStep es') best = is.foldl (selectStep es) best := by
    intro is
    induction is with
    | nil => exact fun _ _ => rfl
    | cons k is ih =>
      intro best hsame
      have hstep : selectStep es' best k = selectStep es best k := by
        unfold selectStep
        rw [hsame k List.mem_cons_self]
      rw [List.foldl_cons, List.foldl_cons, hstep]
      exact ih _ fun k' hk' => hsame k' (List.mem_cons_of_mem _ hk')
  rw [selectOne, selectOne, hloop]
  intro k hk
  rw [List.mem_range'_1] at hk
  exact h k (by omega) (by omega)

theorem IdleRegion.congr {startIdx endIdx : Nat} (h : ∀ k, startIdx ≤ k → k ≤ endIdx → es'[k]? = es[k]?)
    (hidle : IdleRegion es' startIdx endIdx) : IdleRegion es startIdx endIdx := by
  intro idx keep hidx hkeep k e hlo hhi hne he
  obtain ⟨hidxlo, hidxhi⟩ := selectOne_within hidx
  apply hidle idx keep _ _ k e hlo hhi hne
  · rw [h k hlo hhi]
    exact he
  · rw [selectOne_congr h]
    exact hidx
  · rw [h idx hidxlo (by omega)]
    exact hkeep

/-- Where the scan stands before it looks at entry `j`: a region may go on from entry `st.i`, and the array is
lighter unless every region before that one was idle. -/
structure Measured (es : List JitEntry) (j : Nat) (st : Scan) : Prop where
  shrinks : Shrinks 0 st.i es st.entries
  behind : st.i < j
  starts : Starts es st.i
  joined : ∀ k, st.i < k → k < j → ¬Starts es k
  found : st.flag = true → ∃ i last, Region es i last
  settled : mass st.entries < mass es ∨ ∀ i last, Region es i last → last < st.i → IdleRegion es i last

theorem closeRegion_measured (hstands : ∀ e ∈ es, e.vma ≠ 0) (hscan : Measured es (last + 1) st)
    (hlast : last < es.length) (hstops : Starts es (last + 1)) (h : closeRegion debug last st = some st') :
    Shrinks 0 (last + 1) es st'.entries ∧ st'.endAddr = st.endAddr ∧
      (st'.flag = true → ∃ i last, Region es i last) ∧
      (mass st'.entries < mass es ∨ ∀ i l, Region es i l → l < last + 1 → IdleRegion es i l) := by
  have hbehind : st.i ≤ last := Nat.le_of_lt_succ hscan.behind
  have hends : ∀ i l, Region es i l → l < last + 1 → l < st.i ∨ l = last ∧ i = st.i := by
    intro i l hr hl
    rcases Nat.lt_or_ge l st.i with hlt | hge
    · exact Or.inl hlt
    · right
      have heq : l = last := by
        by_contra hne
        exact hscan.joined (l + 1) (by omega) (by omega) hr.stops
      refine ⟨heq, ?_⟩
      rcases Nat.lt_trichotomy i st.i with hi | hi | hi
      · exact absurd hscan.starts (hr.joined st.i hi hge)
      · exact hi
      · exact absurd hr.starts (hscan.joined i hi (by have := hr.lt; omega))
  rw [closeRegion] at h
  split_ifs at h with hi
  · obtain ⟨entries, hhandle, rfl⟩ := Option.map_eq_some_iff.mp h
    have hregion : Region es st.i last :=
      ⟨by omega, hlast, hscan.starts, hstops, fun k hk hk' => hscan.joined k hk (by omega)⟩
    have hahead : ∀ k, st.i ≤ k → k ≤ last → st.entries[k]? = es[k]? :=
      fun k hlo hhi => hscan.shrinks.frame k (by omega) (Or.inr hlo)
    obtain ⟨hshrinks, hless⟩ := handleOverlapRegion_shrinks hscan.shrinks.noUnderflow hbehind (by
      intro k hlo hhi
      have hk : k < es.length := by omega
      refine ⟨es[k], ?_, hstands _ (List.getElem_mem hk)⟩
      rw [hahead k hlo (by omega), List.getElem?_eq_getElem hk]) hhandle
    refine ⟨(hscan.shrinks.mono (Nat.le_refl 0) (by omega)).trans (hshrinks.mono (Nat.zero_le _) (Nat.le_refl _)),
      rfl, fun _ => ⟨st.i, last, hregion⟩, ?_⟩
    have hle := hscan.shrinks.mass_le
    have hle' := hshrinks.mass_le
    rcases hless with hless | hidle
    · exact Or.inl (Nat.lt_of_lt_of_le hless hle)
    · rcases hscan.settled with hlighter | hsettled
      · exact Or.inl (Nat.lt_of_le_of_lt hle' hlighter)
      · right
        intro i l hr hl
        rcases hends i l hr hl with hlt | ⟨rfl, rfl⟩
        · exact hsettled i l hr hlt
        · exact hidle.congr hahead
  · obtain rfl := Option.some.inj h
    refine ⟨hscan.shrinks.mono (Nat.le_refl 0) (by omega), rfl, hscan.found, ?_⟩
    rcases hscan.settled with hlighter | hsettled
    · exact Or.inl hlighter
    · right
      intro i l hr hl
      rcases hends i l hr hl with hlt | ⟨rfl, rfl⟩
      · exact hsettled i l hr hlt
      · exact absurd hr.lt (by omega)

theorem scanStep_measured (hstands : ∀ e ∈ es, e.vma ≠ 0) (hscan : Measured es j st)
    (hendAddr : st.endAddr = endBefore es (j - 1)) (hj : 1 ≤ j) (hlt : j < es.length)
    (h : scanStep debug st j = some st') : Measured es (j + 1) st' ∧ st'.endAddr = endBefore es j := by
  obtain ⟨last, rfl⟩ : ∃ last, j = last + 1 := ⟨j - 1, by omega⟩
  have hbehind : st.i ≤ last := Nat.le_of_lt_succ hscan.behind
  rw [scanStep] at h
  obtain ⟨a, ha, h⟩ := Option.bind_eq_some_iff.mp h
  obtain ⟨b, hb, h⟩ := Option.bind_eq_some_iff.mp h
  have ha' : es[last]? = some a := (hscan.shrinks.frame last (by omega) (Or.inr hbehind)).symm.trans ha
  have hb' : es[last + 1]? = some b := (hscan.shrinks.frame (last + 1) hlt (Or.inr (by omega))).symm.trans hb
  have hend : (if st.endAddr < a.endAddr then a.endAddr else st.endAddr) = endBefore es (last + 1) := by
    rw [endBefore_succ ha', hendAddr]
    rfl
  rw [hend] at h
  have hscan' : Measured es (last + 1) { st with endAddr := endBefore es (last + 1) } :=
    ⟨hscan.shrinks, hscan.behind, hscan.starts, hscan.joined, hscan.found, hscan.settled⟩
  by_cases hgap : endBefore es (last + 1) ≤ b.vma
  · simp only [if_pos hgap] at h
    have hstarts : Starts es (last + 1) := by
      intro e he
      obtain rfl := Option.some.inj (hb'.symm.trans he)
      exact hgap
    obtain ⟨st₁, hclose, rfl⟩ := Option.map_eq_some_iff.mp h
    obtain ⟨hshrinks, hendAddr', hfound, hsettled⟩ :=
      closeRegion_measured hstands hscan' (by omega) hstarts hclose
    exact ⟨⟨hshrinks, Nat.lt_succ_self _, hstarts, fun k hlo hhi => absurd hlo (Nat.not_lt.mpr (Nat.le_of_lt_succ hhi)),
      hfound, hsettled⟩, hendAddr'⟩
  · simp only [if_neg hgap] at h
    obtain rfl := Option.some.inj h
    refine ⟨⟨hscan.shrinks, Nat.lt_succ_of_lt hscan.behind, hscan.starts, ?_, hscan.found, hscan.settled⟩, rfl⟩
    intro k hlo hhi hstarts
    rcases Nat.lt_succ_iff_lt_or_eq.mp hhi with hk | rfl
    · exact hscan.joined k hlo hk hstarts
    · exact hgap (hstarts b hb')

/-- A scan that finds overlaps leaves a lighter array, unless the array is idle. -/
theorem scanOverlaps_measured {flag : Bool} (hstands : ∀ e ∈ es, e.vma ≠ 0) (hno : NoUnderflow es)
    (h : scanOverlaps debug es = some (es', flag)) :
    NoUnderflow es' ∧ (flag = true → mass es' < mass es ∨ Idle es) := by
  rcases scanOverlaps_rounds h with ⟨rfl, rfl, rfl⟩ | ⟨e, es, st, st', rfl, hloop, hclose, rfl, rfl⟩
  · exact ⟨hno, fun hf => absurd hf Bool.false_ne_true⟩
  · have hstart : Measured (e :: es) 1 ⟨0, 0, false, e :: es⟩ :=
      ⟨Shrinks.refl hno, Nat.lt_succ_self 0, starts_zero _, fun k hlo hhi => absurd hlo (by omega),
        fun hf => absurd hf Bool.false_ne_true, Or.inr fun i l _ hl => absurd hl (Nat.not_lt_zero l)⟩
    obtain ⟨hscan, -⟩ := Loops.invariant
      (I := fun j t => Measured (e :: es) j t ∧ t.endAddr = endBefore (e :: es) (j - 1)) es.length ⟨hstart, rfl⟩
      (fun j t t' hj hlt hinv hstep =>
        scanStep_measured hstands hinv.1 hinv.2 hj (by rw [List.length_cons]; omega) hstep) hloop
    rw [Nat.add_comm] at hscan
    have hstops : Starts (e :: es) (es.length + 1) := by
      intro b hb
      rw [List.getElem?_eq_none (by rw [List.length_cons])] at hb
      cases hb
    obtain ⟨hshrinks, -, hfound, hsettled⟩ := closeRegion_measured hstands hscan (Nat.lt_succ_self _) hstops hclose
    refine ⟨hshrinks.noUnderflow, fun hf => ?_⟩
    rcases hsettled with hlighter | hsettled
    · exact Or.inl hlighter
    · right
      refine ⟨hfound hf, ?_⟩
      intro i l hr
      exact hsettled i l hr hr.within

end

/-! The loop of `resolve_overlaps`, with entries of one address in whatever order `qsort` leaves them. -/

/-- What `resort_address` may make of an array. -/
def Resorted (es es' : List JitEntry) : Prop :=
  ∃ sorted : List JitEntry, sorted.Perm es ∧ (sorted.Pairwise fun a b => a.vma ≤ b.vma) ∧
    es' = sorted.dropWhile fun e => e.vma = 0

/-- An array that `resolve_overlaps` may scan first. -/
def Begins (startTime : UInt64) (entries es : List JitEntry) : Prop :=
  ∃ array : List JitEntry, array.Perm entries ∧ (array.Pairwise fun a b => a.vma ≤ b.vma) ∧
    if ∃ e ∈ array, e.lifeEnd < startTime then
      Resorted (array.map fun e => if e.lifeEnd < startTime then invalidateEntry e else e) es
    else es = array

/-- A round of the loop: the scan finds overlaps, and the array is sorted again. -/
def Again (debug : Bool) (es es' : List JitEntry) : Prop :=
  ∃ scanned, scanOverlaps debug es = some (scanned, true) ∧ Resorted scanned es'

/-- The arrays that are there after one round or more. -/
inductive Reached (debug : Bool) (startTime : UInt64) (entries : List JitEntry) : List JitEntry → Prop
  | first {es es' : List JitEntry} (h : Begins startTime entries es) (hagain : Again debug es es') :
      Reached debug startTime entries es'
  | next {es es' : List JitEntry} (h : Reached debug startTime entries es) (hagain : Again debug es es') :
      Reached debug startTime entries es'

/-- For some orders of the entries the loop does not end. -/
def LoopsForever (debug : Bool) (startTime : UInt64) (entries : List JitEntry) : Prop :=
  ∃ run : Nat → List JitEntry, Begins startTime entries (run 0) ∧ ∀ n, Again debug (run n) (run (n + 1))

/-- The loop with given sorting functions ends before `fuel` rounds. -/
def EndsWithin (sorts : Sorts) (debug : Bool) : Nat → List JitEntry → Prop
  | 0, _ => False
  | fuel + 1, es => ∀ scanned, scanOverlaps debug es = some (scanned, true) →
      EndsWithin sorts debug fuel (resortAddress sorts scanned)

section

variable {debug : Bool} {startTime : UInt64} {entries es es' : List JitEntry}

theorem resortAddress_resorted (sorts : Sorts) (es : List JitEntry) : Resorted es (resortAddress sorts es) :=
  ⟨_, sorts.address.perm es, sorts.address.sorted es, rfl⟩

/-- Sorting again takes away the entries that do not stand, and nothing else. -/
theorem Resorted.spec (h : Resorted es es') :
    (∀ e ∈ es', e.vma ≠ 0) ∧ (NoUnderflow es → NoUnderflow es') ∧ mass es' ≤ mass es := by
  obtain ⟨sorted, hperm, hsorted, rfl⟩ := h
  refine ⟨?_, ?_, ?_⟩
  · intro e he
    have hmem := (Sorting.mem_dropWhile_iff (p := fun e : JitEntry => decide (e.vma = 0)) (hsorted.imp ?_)).mp he
    · exact fun hzero => hmem.2 (decide_eq_true hzero)
    · intro a b hle hb
      rw [decide_eq_true_eq] at hb ⊢
      rw [hb] at hle
      exact UInt64.le_antisymm hle UInt64.zero_le
  · intro hno e he
    exact hno e (hperm.subset ((List.dropWhile_sublist _).subset he))
  · have hsplit : mass sorted = mass (sorted.takeWhile fun e => e.vma = 0) +
        mass (sorted.dropWhile fun e => e.vma = 0) := by
      rw [← mass_append, List.takeWhile_append_dropWhile]
    rw [← mass_perm hperm]
    omega

theorem Reached.stands (h : Reached debug startTime entries es) : ∀ e ∈ es, e.vma ≠ 0 := by
  cases h with
  | first _ hagain =>
    obtain ⟨_, -, hresorted⟩ := hagain
    exact hresorted.spec.1
  | next _ hagain =>
    obtain ⟨_, -, hresorted⟩ := hagain
    exact hresorted.spec.1

/-- A round that starts from an array which is not idle makes it lighter. -/
theorem Again.mass_lt (h : Again debug es es') (hstands : ∀ e ∈ es, e.vma ≠ 0) (hno : NoUnderflow es)
    (hidle : ¬Idle es) : mass es' < mass es := by
  obtain ⟨scanned, hscan, hresorted⟩ := h
  obtain ⟨-, hless⟩ := scanOverlaps_measured hstands hno hscan
  exact Nat.lt_of_le_of_lt hresorted.spec.2.2 ((hless rfl).resolve_right hidle)

/-- The condition on an array that is scanned once more. -/
structure Meets (es : List JitEntry) : Prop where
  noUnderflow : ∀ e ∈ es, ¬e.Underflows
  notIdle : ¬Idle es

theorem not_loopsForever (h : ∀ es, Reached debug startTime entries es → Meets es) :
    ¬LoopsForever debug startTime entries := by
  rintro ⟨run, hbegins, hagain⟩
  have hreached : ∀ n, Reached debug startTime entries (run (n + 1)) := by
    intro n
    induction n with
    | zero => exact .first hbegins (hagain 0)
    | succ n ih => exact .next ih (hagain (n + 1))
  have hless : ∀ n, mass (run (n + 1 + 1)) < mass (run (n + 1)) := by
    intro n
    have hmeets := h _ (hreached n)
    exact (hagain (n + 1)).mass_lt (hreached n).stands (fun e he _ => hmeets.noUnderflow e he) hmeets.notIdle
  have hbound : ∀ n, mass (run (n + 1)) + n ≤ mass (run 1) := by
    intro n
    induction n with
    | zero => exact Nat.le_refl _
    | succ n ih =>
      have hstep := hless n
      omega
  have hpast := hbound (mass (run 1) + 1)
  omega

/-- The rounds under given sorting functions. -/
def runOf (sorts : Sorts) (debug : Bool) (es : List JitEntry) : Nat → List JitEntry
  | 0 => es
  | n + 1 =>
    match scanOverlaps debug (runOf sorts debug es n) with
    | some (scanned, _) => resortAddress sorts scanned
    | none => []

theorem runOf_succ (sorts : Sorts) {es scanned : List JitEntry}
    (h : scanOverlaps debug es = some (scanned, true)) (n : Nat) :
    runOf sorts debug es (n + 1) = runOf sorts debug (resortAddress sorts scanned) n := by
  induction n with
  | zero => simp only [runOf, h]
  | succ n ih => rw [runOf, ih, runOf]

/-- A loop that ends within no number of rounds has a round from every array of its run. -/
theorem again_of_not_endsWithin (sorts : Sorts) (h : ∀ fuel, ¬EndsWithin sorts debug fuel es) (n : Nat) :
    Again debug (runOf sorts debug es n) (runOf sorts debug es (n + 1)) := by
  induction n generalizing es with
  | zero =>
    have hone := h 1
    simp only [EndsWithin, not_forall] at hone
    obtain ⟨scanned, hscan, -⟩ := hone
    refine ⟨scanned, hscan, ?_⟩
    rw [runOf_succ sorts hscan]
    exact resortAddress_resorted sorts scanned
  | succ n ih =>
    have hone := h 1
    simp only [EndsWithin, not_forall] at hone
    obtain ⟨scanned, hscan, -⟩ := hone
    rw [runOf_succ sorts hscan, runOf_succ sorts hscan]
    apply ih
    intro fuel hends
    apply h (fuel + 1)
    intro scanned' hscan'
    rw [hscan] at hscan'
    cases hscan'
    exact hends

theorem begins_of_createArrays (sorts : Sorts) {arrays : Arrays} (h : createArrays sorts entries = some arrays) :
    Begins startTime entries (invalidateEarlybirds sorts startTime arrays).addressAscending := by
  rw [createArrays] at h
  split_ifs at h
  obtain rfl := Option.some.inj h
  refine ⟨_, sorts.address.perm entries, sorts.address.sorted entries, ?_⟩
  rw [invalidateEarlybirds]
  split_ifs with hearly
  · exact resortAddress_resorted sorts _
  · rfl

/-- With sorting functions given, the loop ends after some number of rounds. -/
theorem endsWithin_of_finite (hfinite : ¬LoopsForever debug startTime entries) (sorts : Sorts) {arrays : Arrays}
    (harrays : createArrays sorts entries = some arrays) :
    ∃ fuel, EndsWithin sorts debug fuel (invalidateEarlybirds sorts startTime arrays).addressAscending := by
  by_contra hnever
  refine hfinite ⟨runOf sorts debug (invalidateEarlybirds sorts startTime arrays).addressAscending,
    begins_of_createArrays sorts harrays, ?_⟩
  apply again_of_not_endsWithin
  intro fuel hends
  exact hnever ⟨fuel, hends⟩

/-- The loop of `resolve_overlaps` ends, in every order of the entries, when each array that is scanned again
has no entry that underflows and is not idle. -/
theorem resolveOverlaps_terminates (debug : Bool) (startTime : UInt64) (entries : List JitEntry)
    (h : ∀ es, Reached debug startTime entries es → Meets es) :
    ¬LoopsForever debug startTime entries ∧
      ∀ sorts arrays, createArrays sorts entries = some arrays →
        ∃ fuel, EndsWithin sorts debug fuel (invalidateEarlybirds sorts startTime arrays).addressAscending := by
  have hfinite := not_loopsForever h
  exact ⟨hfinite, fun sorts _ harrays => endsWithin_of_finite hfinite sorts harrays⟩

/-! Entries that are all longer than nothing. -/

def Filled (es : List JitEntry) : Prop := ∀ e ∈ es, e.Sound ∧ e.lo < e.hi

theorem Filled.endAddr (h : Filled es) {e : JitEntry} (he : e ∈ es) : e.vma < e.endAddr := by
  obtain ⟨hsound, hlt⟩ := h e he
  rw [UInt64.lt_iff_toNat_lt, hsound.endAddr]
  exact hlt

theorem Begins.filled (h : Begins startTime entries es) (hfilled : Filled entries) : Filled es := by
  obtain ⟨array, hperm, -, hes⟩ := h
  split_ifs at hes with hearly
  · have hstands := hes.spec.1
    obtain ⟨sorted, hsorted, -, rfl⟩ := hes
    intro e he
    obtain ⟨x, hx, hxe⟩ := List.mem_map.mp (hsorted.subset ((List.dropWhile_sublist _).subset he))
    split_ifs at hxe with hlife
    · exact absurd (congrArg JitEntry.vma hxe).symm (hstands e he)
    · exact hxe ▸ hfilled x (hperm.subset hx)
  · subst hes
    exact fun e he => hfilled e (hperm.subset he)

/-- Pieces of such entries are such entries. -/
theorem Again.filled (h : Again debug es es') (hfilled : Filled es) : Filled es' := by
  obtain ⟨scanned, hscan, hresorted⟩ := h
  obtain ⟨hrefines, -⟩ := scanOverlaps_refines (fun e he => (hfilled e he).1) hscan
  have hstands := hresorted.spec.1
  obtain ⟨sorted, hperm, -, rfl⟩ := hresorted
  intro p hp
  have hmem := hperm.subset ((List.dropWhile_sublist _).subset hp)
  obtain ⟨e, he, -, hpiece⟩ := hrefines.piece p hmem (hstands p hp)
  exact ⟨hrefines.sane p hmem (hstands p hp), hpiece.filled (hfilled e he).2⟩

theorem Reached.filled (h : Reached debug startTime entries es) (hfilled : Filled entries) : Filled es := by
  induction h with
  | first hbegins hagain => exact hagain.filled (hbegins.filled hfilled)
  | next _ hagain ih => exact hagain.filled ih

theorem Reached.sorted (h : Reached debug startTime entries es) : es.Pairwise fun a b => a.vma ≤ b.vma := by
  have hresorted : ∃ scanned, Resorted scanned es := by
    cases h with
    | first _ hagain => exact hagain.imp fun _ h => h.2
    | next _ hagain => exact hagain.imp fun _ h => h.2
  obtain ⟨_, sorted, -, hsorted, rfl⟩ := hresorted
  exact hsorted.sublist (List.dropWhile_sublist _)

theorem le_endBefore {j k : Nat} {e : JitEntry} (hk : es[k]? = some e) (hlt : k < j) : e.endAddr ≤ endBefore es j := by
  induction j with
  | zero => exact absurd hlt (Nat.not_lt_zero k)
  | succ j ih =>
    have hkeeps : endBefore es j ≤ endBefore es (j + 1) := by
      cases hj : es[j]? with
      | none =>
        rw [endBefore, endBefore, List.take_add_one, hj]
        exact UInt64.le_of_eq (by simp)
      | some e' =>
        rw [endBefore_succ hj]
        split_ifs with hless
        · exact UInt64.le_of_lt hless
        · exact UInt64.le_refl _
    rcases Nat.lt_succ_iff_lt_or_eq.mp hlt with hlt | rfl
    · exact UInt64.le_trans (ih hlt) hkeeps
    · rw [endBefore_succ hk]
      split_ifs with hless
      · exact UInt64.le_refl _
      · exact UInt64.not_lt.mp hless

/-- What is not behind all ends is before one of them. -/
theorem exists_endAddr {j : Nat} {addr : UInt64} (h : addr < endBefore es j) :
    ∃ k e, k < j ∧ es[k]? = some e ∧ addr < e.endAddr := by
  induction j with
  | zero => exact absurd h UInt64.not_lt_zero
  | succ j ih =>
    have hbefore : addr < endBefore es j → ∃ k e, k < j + 1 ∧ es[k]? = some e ∧ addr < e.endAddr := by
      intro h
      obtain ⟨k, e, hlt, hk, hend⟩ := ih h
      exact ⟨k, e, Nat.lt_succ_of_lt hlt, hk, hend⟩
    cases hj : es[j]? with
    | none =>
      rw [endBefore, List.take_add_one, hj] at h
      exact hbefore (by simpa [endBefore] using h)
    | some e =>
      rw [endBefore_succ hj] at h
      split_ifs at h with hless
      · exact ⟨j, e, Nat.lt_succ_self j, hj, h⟩
      · exact hbefore h

theorem selectOne_some {i last : Nat} (hle : i ≤ last) (hlt : last < es.length) :
    ∃ idx, selectOne es i last = some idx := by
  have hkeeps : ∀ (is : List Nat) (best : Nat × UInt64), ∃ best', is.foldl (selectStep es) (some best) = some best' := by
    intro is
    induction is with
    | nil => exact fun best => ⟨best, rfl⟩
    | cons k is ih =>
      intro best
      obtain ⟨best', hbest'⟩ : ∃ best', selectStep es (some best) k = some best' := by
        cases hk : es[k]? with
        | none => exact ⟨best, by simp only [selectStep, hk]⟩
        | some e =>
          simp only [selectStep, hk]
          split_ifs <;> exact ⟨_, rfl⟩
      rw [List.foldl_cons, hbest']
      exact ih best'
  have hfirst : selectStep es none i = some (i, es[i].lifetime) := by
    simp only [selectStep, List.getElem?_eq_getElem (Nat.lt_of_le_of_lt hle hlt)]
  obtain ⟨best, hbest⟩ := hkeeps (List.range' (i + 1) (last - i)) (i, es[i].lifetime)
  refine ⟨best.1, ?_⟩
  rw [selectOne, show last + 1 - i = last - i + 1 by omega, List.range'_succ, List.foldl_cons, hfirst, hbest]
  rfl

/-- In order, the entry that a region keeps overlaps its neighbour or one before it. -/
theorem Region.not_idle {i last : Nat} (h : Region es i last) (hsorted : es.Pairwise fun a b => a.vma ≤ b.vma)
    (hfilled : Filled es) : ¬IdleRegion es i last := by
  have hle : ∀ {j k : Nat} {a b : JitEntry}, j < k → es[j]? = some a → es[k]? = some b → a.vma ≤ b.vma := by
    intro j k a b hjk ha hb
    obtain ⟨hj, rfl⟩ := List.getElem?_eq_some_iff.mp ha
    obtain ⟨hk, rfl⟩ := List.getElem?_eq_some_iff.mp hb
    exact List.pairwise_iff_getElem.mp hsorted j k hj hk hjk
  -- an entry of the region does not start behind all that are before it there
  have hjoined : ∀ k e, i < k → k ≤ last → es[k]? = some e → ∃ j a, i ≤ j ∧ j < k ∧ es[j]? = some a ∧ Overlap a e := by
    intro k e hik hkl hk
    have hnot := h.joined k hik hkl
    rw [Starts, not_forall] at hnot
    obtain ⟨e', hnot⟩ := hnot
    obtain ⟨he', hlt⟩ := Classical.not_imp.mp hnot
    obtain rfl := Option.some.inj (hk.symm.trans he')
    obtain ⟨j, a, hjk, hj, hend⟩ := exists_endAddr (UInt64.not_le.mp hlt)
    have hij : i ≤ j := by
      by_contra hji
      have hi : i < es.length := Nat.lt_trans h.lt h.within
      have hstart := h.starts _ (List.getElem?_eq_getElem hi)
      have hbefore := UInt64.le_trans (le_endBefore hj (Nat.lt_of_not_le hji)) hstart
      have hafter := UInt64.le_trans hbefore (hle hik (List.getElem?_eq_getElem hi) hk)
      exact absurd hend (UInt64.not_lt.mpr hafter)
    exact ⟨j, a, hij, hjk, hj, UInt64.lt_of_le_of_lt (hle hjk hj hk) (hfilled.endAddr (List.mem_of_getElem? hk)), hend⟩
  intro hidle
  obtain ⟨idx, hidx⟩ := selectOne_some (Nat.le_of_lt h.lt) h.within
  obtain ⟨hlo, hhi⟩ := selectOne_within hidx
  have hkeep := List.getElem?_eq_getElem (show idx < es.length by have hwithin := h.within; omega)
  rcases Nat.eq_or_lt_of_le hlo with rfl | hlt
  · have hnext := List.getElem?_eq_getElem (show i + 1 < es.length by have hwithin := h.within; have hlt := h.lt; omega)
    obtain ⟨j, a, hij, hjk, hj, hover⟩ := hjoined (i + 1) _ (Nat.lt_succ_self i) h.lt hnext
    obtain rfl : j = i := by omega
    exact hidle j a hidx hj (j + 1) _ (Nat.le_succ j) h.lt (Nat.succ_ne_self j) hnext ⟨hover.2, hover.1⟩
  · obtain ⟨j, a, hij, hjk, hj, hover⟩ := hjoined idx _ hlt (Nat.le_of_lt_succ hhi) hkeep
    exact hidle idx _ hidx hkeep j a hij (by omega) (by omega) hj hover

/-- Where no entry of the list is empty or wraps, the loop of `resolve_overlaps` ends. -/
theorem resolveOverlaps_terminates_filled (debug : Bool) (startTime : UInt64) (hfilled : Filled entries) :
    ¬LoopsForever debug startTime entries ∧
      ∀ sorts arrays, createArrays sorts entries = some arrays →
        ∃ fuel, EndsWithin sorts debug fuel (invalidateEarlybirds sorts startTime arrays).addressAscending := by
  have hfinite : ¬LoopsForever debug startTime entries := by
    refine not_loopsForever fun es hreached => ⟨fun e he hunder => ?_, ?_⟩
    · have hsize := (hreached.filled hfilled e he).1.size
      unfold JitEntry.Underflows at hunder
      omega
    · rintro ⟨⟨i, last, hregion⟩, hidle⟩
      exact hregion.not_idle hreached.sorted (hreached.filled hfilled) (hidle i last hregion)
  exact ⟨hfinite, fun sorts _ harrays => endsWithin_of_finite hfinite sorts harrays⟩

end

/-- A method with code, and one without any at the same address that the dump has after it. -/
def sampleCode (name : List UInt8) : JitEntry := ⟨100, some 7, 10, name, 0, 5⟩

def sampleEmpty : JitEntry := ⟨100, some 8, 0, [0x62], 0, 3⟩

theorem handle_sampleCode (debug : Bool) (name : List UInt8) :
    handleOverlapRegion debug 0 1 [sampleCode name, sampleEmpty] =
      some [sampleCode (markedName name 100), sampleEmpty] := by
  have hselect : selectOne [sampleCode name, sampleEmpty] 0 1 = some 0 := by
    simp [selectOne, selectStep, sampleCode, sampleEmpty, JitEntry.lifetime, List.range']
  have heliminate : eliminateOverlaps debug 0 1 0 (sampleCode name) [sampleCode name, sampleEmpty] =
      some ([sampleCode name, sampleEmpty], 5) := by
    have hends : (sampleCode name).endAddr = 110 ∧ sampleEmpty.endAddr = 100 := ⟨rfl, rfl⟩
    simp [eliminateOverlaps, eliminateStep, hends, List.range']
    simp [sampleCode, sampleEmpty]
  simp [handleOverlapRegion, hselect, heliminate, JitEntry.lifetime]
  simp [sampleCode]

theorem scan_sampleCode (debug : Bool) (name : List UInt8) :
    scanOverlaps debug [sampleCode name, sampleEmpty] =
      some ([sampleCode (markedName name 100), sampleEmpty], true) := by
  have hends : (sampleCode name).endAddr = 110 ∧ sampleEmpty.endAddr = 100 := ⟨rfl, rfl⟩
  have hvma : sampleEmpty.vma = 100 := rfl
  simp [scanOverlaps, scanStep, closeRegion, hends, hvma, handle_sampleCode, intMax]

/-- Every scan finds the two entries again, and nothing is split. -/
theorem empty_entry_loops : LoopsForever false 0 [sampleCode [0x61], sampleEmpty] := by
  refine ⟨fun n => [sampleCode ((fun name => markedName name 100)^[n] [0x61]), sampleEmpty], ?_, ?_⟩
  · refine ⟨_, List.Perm.refl _, by decide, ?_⟩
    rw [if_neg (by decide)]
    rfl
  · intro n
    refine ⟨_, scan_sampleCode false _, _, List.Perm.refl _, ?_, ?_⟩
    · exact List.pairwise_pair.mpr (UInt64.le_refl (100 : UInt64))
    · dsimp only
      rw [Function.iterate_succ_apply']
      rfl

/-- The parts of the wide entry around the long one. -/
def sampleParts : List JitEntry :=
  [⟨90, some 8, 10, [0x62, 0x23, 0x30], 2, 5⟩, ⟨100, some 7, 20, [0x61, 0x25, 0x31, 0x30, 0x30], 1, 9⟩,
    ⟨120, none, 10, [0x62, 0x23, 0x31], 2, 5⟩]

/-- Entries of different addresses have one order. -/
theorem sorted_unique {es es' : List JitEntry} (hperm : es.Perm es')
    (hsorted : es.Pairwise fun a b => a.vma ≤ b.vma) (hsorted' : es'.Pairwise fun a b => a.vma ≤ b.vma)
    (hinj : ∀ a ∈ es', ∀ b ∈ es', a.vma = b.vma → a = b) : es = es' := by
  apply List.Perm.eq_of_pairwise ?_ hsorted hsorted' hperm
  intro a b ha hb hab hba
  exact hinj a (hperm.subset ha) b hb (UInt64.le_antisymm hab hba)

theorem begins_sampleWide {es : List JitEntry} (h : Begins 1 [sampleLong, sampleWide] es) :
    es = [sampleWide, sampleLong] := by
  obtain ⟨array, hperm, hsorted, hes⟩ := h
  obtain rfl : array = [sampleWide, sampleLong] :=
    sorted_unique (hperm.trans (List.Perm.swap _ _ _)) hsorted (by decide) (by decide)
  rwa [if_neg (by decide)] at hes

theorem again_sampleWide {es : List JitEntry} (h : Again false [sampleWide, sampleLong] es) : es = sampleParts := by
  obtain ⟨scanned, hscan, sorted, hperm, hsorted, rfl⟩ := h
  have hsplit : scanOverlaps false [sampleWide, sampleLong] = some (sampleParts, true) := by decide
  obtain ⟨rfl, -⟩ := Prod.mk.inj (Option.some.inj (hsplit.symm.trans hscan))
  rw [sorted_unique hperm hsorted (by decide) (by decide)]
  rfl

/-- The array of the parts is the only one that is scanned again, and it has no overlap. -/
theorem reached_sampleWide {es : List JitEntry} (h : Reached false 1 [sampleLong, sampleWide] es) :
    es = sampleParts := by
  induction h with
  | first hbegins hagain =>
    rw [begins_sampleWide hbegins] at hagain
    exact again_sampleWide hagain
  | next _ hagain ih =>
    obtain ⟨scanned, hscan, -⟩ := hagain
    have hlast : scanOverlaps false sampleParts = some (sampleParts, false) := by decide
    rw [ih, hlast] at hscan
    cases hscan

/-- The wide entry is split in the first round, and the second one is the last. -/
theorem resolveOverlaps_terminates_split : ¬LoopsForever false 1 [sampleLong, sampleWide] ∧
    ∀ sorts arrays, createArrays sorts [sampleLong, sampleWide] = some arrays →
      ∃ fuel, EndsWithin sorts false fuel (invalidateEarlybirds sorts 1 arrays).addressAscending := by
  apply resolveOverlaps_terminates
  intro es h
  rw [reached_sampleWide h]
  refine ⟨by unfold JitEntry.Underflows; decide, ?_⟩
  rintro ⟨⟨i, last, hregion⟩, -⟩
  have hgaps : Starts sampleParts 1 ∧ Starts sampleParts 2 := by
    constructor
    · rintro e ⟨⟩
      decide
    · rintro e ⟨⟩
      decide
  have hwithin : last < 3 := hregion.within
  have hlt := hregion.lt
  have hjoined := hregion.joined (i + 1) (by omega) hlt
  rcases (show i = 0 ∨ i = 1 by omega) with rfl | rfl
  · exact hjoined hgaps.1
  · exact hjoined hgaps.2

end Oprofile.Opjitconv
