import Oprofile.Library.Loops
import Oprofile.Opjitconv.JitSymbol

/-! What `resolve_overlaps` makes of the entries: pieces of them that cover the same addresses. -/
namespace Oprofile.Opjitconv

/-- The first address. -/
def JitEntry.lo (e : JitEntry) : Nat := e.vma.toNat

/-- The address behind the last. -/
def JitEntry.hi (e : JitEntry) : Nat := e.vma.toNat + e.codeSize.toInt.toNat

def JitEntry.Has (e : JitEntry) (addr : Nat) : Prop := e.lo ≤ addr ∧ addr < e.hi

/-- The entry is not invalidated and its range does not wrap. -/
structure JitEntry.Sound (e : JitEntry) : Prop where
  nonzero : e.vma ≠ 0
  size : 0 ≤ e.codeSize.toInt
  noWrap : e.hi < 2 ^ 64

inductive Suffix : List UInt8 → Prop
  | left : Suffix [0x23, 0x30]
  | right : Suffix [0x23, 0x31]
  | percent {digits : List UInt8} (hne : digits ≠ []) (h : ∀ d ∈ digits, 0x30 ≤ d ∧ d ≤ 0x39) :
      Suffix (0x25 :: digits)

/-- A name followed by suffixes. -/
inductive Suffixed (name : List UInt8) : List UInt8 → Prop
  | same : Suffixed name name
  | add {long suffix : List UInt8} (h : Suffixed name long) (hs : Suffix suffix) :
      Suffixed name (long ++ suffix)

theorem Suffixed.trans {a b c : List UInt8} (hab : Suffixed a b) (hbc : Suffixed b c) : Suffixed a c := by
  induction hbc with
  | same => exact hab
  | add _ hs ih => exact .add ih hs

/-- A part of an entry, under its name with suffixes. -/
structure Piece (e p : JitEntry) : Prop where
  lo : e.lo ≤ p.lo
  hi : p.hi ≤ e.hi
  lifeStart : p.lifeStart = e.lifeStart
  lifeEnd : p.lifeEnd = e.lifeEnd
  name : Suffixed e.symbolName p.symbolName
  code : p.code = none ∨ p.code = e.code ∧ p.vma = e.vma
  filled : e.lo < e.hi → p.lo < p.hi

theorem Piece.refl (e : JitEntry) : Piece e e :=
  ⟨Nat.le_refl _, Nat.le_refl _, rfl, rfl, .same, Or.inr ⟨rfl, rfl⟩, id⟩

theorem Piece.trans {e p q : JitEntry} (hp : Piece e p) (hq : Piece p q) : Piece e q where
  lo := Nat.le_trans hp.lo hq.lo
  hi := Nat.le_trans hq.hi hp.hi
  lifeStart := hq.lifeStart.trans hp.lifeStart
  lifeEnd := hq.lifeEnd.trans hp.lifeEnd
  name := hp.name.trans hq.name
  code := by
    rcases hq.code with hnone | ⟨hcode, hvma⟩
    · exact Or.inl hnone
    · rcases hp.code with hnone | ⟨hcode', hvma'⟩
      · exact Or.inl (hcode.trans hnone)
      · exact Or.inr ⟨hcode.trans hcode', hvma.trans hvma'⟩
  filled h := hq.filled (hp.filled h)

theorem Piece.has {e p : JitEntry} (h : Piece e p) {addr : Nat} (hp : p.Has addr) : e.Has addr :=
  ⟨Nat.le_trans h.lo hp.1, Nat.lt_of_lt_of_le hp.2 h.hi⟩

/-! Machine arithmetic. -/

theorem JitEntry.Sound.endAddr {e : JitEntry} (h : e.Sound) : e.endAddr.toNat = e.hi := by
  have hsize : e.codeSize.toInt64.toUInt64.toNat = e.codeSize.toInt.toNat := by
    have h64 := Int32.toInt_toInt64 e.codeSize
    have hneg : (0 : Int64) ≤ e.codeSize.toInt64 := by
      rw [Int64.le_iff_toInt_le, h64]
      exact h.size
    rw [Int64.toNat_toUInt64_of_le hneg, ← Int64.toNat_toInt, h64]
  rw [JitEntry.endAddr, UInt64.toNat_add, hsize]
  exact Nat.mod_eq_of_lt h.noWrap

theorem JitEntry.Sound.hi_le {e : JitEntry} (h : e.Sound) : e.hi < e.lo + 2 ^ 31 := by
  have hlt := Int32.toInt_lt e.codeSize
  have hsize := h.size
  change e.vma.toNat + e.codeSize.toInt.toNat < e.vma.toNat + 2 ^ 31
  omega

/-- The distance of two addresses as an `int`. -/
theorem distance_toInt {a b : UInt64} (hle : b.toNat ≤ a.toNat) (hlt : a.toNat < b.toNat + 2 ^ 31) :
    (a - b).toUInt32.toInt32.toInt = ((a.toNat - b.toNat : Nat) : Int) := by
  have hsub : (a - b).toNat = a.toNat - b.toNat := UInt64.toNat_sub_of_le _ _ (UInt64.le_iff_toNat_le.mpr hle)
  have h32 : (a - b).toUInt32.toNat = a.toNat - b.toNat := by
    rw [UInt64.toNat_toUInt32, hsub]
    omega
  change (a - b).toUInt32.toBitVec.toInt = _
  rw [BitVec.toInt_eq_toNat_of_lt]
  · exact congrArg Int.ofNat h32
  · change 2 * (a - b).toUInt32.toNat < _
    omega

/-! The parts of a split entry. -/

section

variable {e keep : JitEntry}

theorem splitRight_piece (he : e.Sound) (hover : e.vma < keep.endAddr) {p : JitEntry}
    (hp : p ∈ splitRight e keep) : p.Sound ∧ Piece e p := by
  rw [splitRight] at hp
  split_ifs at hp with hright
  · obtain rfl := List.mem_singleton.mp hp
    rw [UInt64.lt_iff_toNat_lt] at hright hover
    have hbound := he.hi_le
    have hnoWrap := he.noWrap
    rw [he.endAddr] at hright
    have hover' : e.lo < keep.endAddr.toNat := hover
    have hsize := distance_toInt (a := e.endAddr) (b := keep.endAddr) (by rw [he.endAddr]; omega)
      (by rw [he.endAddr]; omega)
    rw [he.endAddr] at hsize
    have hhi : keep.endAddr.toNat + (e.endAddr - keep.endAddr).toUInt32.toInt32.toInt.toNat = e.hi := by
      rw [hsize, Int.toNat_natCast]
      omega
    refine ⟨⟨?_, ?_, ?_⟩, ⟨Nat.le_of_lt hover', Nat.le_of_eq hhi, rfl, rfl, .add .same .right, Or.inl rfl,
      fun _ => hright.trans_eq hhi.symm⟩⟩
    · intro hzero
      have hzero' : keep.endAddr = 0 := hzero
      rw [hzero'] at hover'
      exact absurd hover' (Nat.not_lt_zero _)
    · rw [hsize]
      exact Int.natCast_nonneg _
    · change keep.endAddr.toNat + (e.endAddr - keep.endAddr).toUInt32.toInt32.toInt.toNat < 2 ^ 64
      omega
  · cases hp

theorem splitRight_has (he : e.Sound) (hkeep : keep.Sound) (hover : e.vma < keep.endAddr) {addr : Nat}
    (ha : e.Has addr) (hkeepHi : keep.hi ≤ addr) : ∃ p ∈ splitRight e keep, p.Has addr := by
  have hright : keep.endAddr < e.endAddr := by
    rw [UInt64.lt_iff_toNat_lt, he.endAddr, hkeep.endAddr]
    exact Nat.lt_of_le_of_lt hkeepHi ha.2
  rw [splitRight, if_pos hright]
  refine ⟨_, List.mem_singleton.mpr rfl, ?_, ?_⟩
  · change keep.endAddr.toNat ≤ addr
    rw [hkeep.endAddr]
    exact hkeepHi
  · rw [UInt64.lt_iff_toNat_lt] at hright hover
    have hbound := he.hi_le
    have hover' : e.lo < keep.endAddr.toNat := hover
    rw [he.endAddr] at hright
    have hsize := distance_toInt (a := e.endAddr) (b := keep.endAddr) (by rw [he.endAddr]; omega)
      (by rw [he.endAddr]; omega)
    change addr < keep.endAddr.toNat + (e.endAddr - keep.endAddr).toUInt32.toInt32.toInt.toNat
    rw [hsize, Int.toNat_natCast, he.endAddr]
    have hlt := ha.2
    omega

theorem splitLeft_piece (he : e.Sound) (hover : keep.vma < e.endAddr)
    (hstands : (splitLeft e keep).vma ≠ 0) : (splitLeft e keep).Sound ∧ Piece e (splitLeft e keep) := by
  rw [splitLeft] at hstands ⊢
  split_ifs at hstands ⊢ with hleft
  · rw [UInt64.lt_iff_toNat_lt] at hleft hover
    have hbound := he.hi_le
    have hnoWrap := he.noWrap
    rw [he.endAddr] at hover
    have hleft' : e.lo < keep.vma.toNat := hleft
    have hsize := distance_toInt (Nat.le_of_lt hleft') (show _ < e.lo + 2 ^ 31 by omega)
    have hhi : e.vma.toNat + (keep.vma - e.vma).toUInt32.toInt32.toInt.toNat = keep.vma.toNat := by
      rw [hsize, Int.toNat_natCast]
      change e.lo + (keep.vma.toNat - e.lo) = keep.vma.toNat
      omega
    refine ⟨⟨he.nonzero, ?_, ?_⟩, ⟨Nat.le_refl _, ?_, rfl, rfl, .add .same .left, Or.inr ⟨rfl, rfl⟩,
      fun _ => hleft'.trans_eq hhi.symm⟩⟩
    · rw [hsize]
      exact Int.natCast_nonneg _
    · change e.vma.toNat + (keep.vma - e.vma).toUInt32.toInt32.toInt.toNat < 2 ^ 64
      omega
    · change e.vma.toNat + (keep.vma - e.vma).toUInt32.toInt32.toInt.toNat ≤ e.hi
      omega
  · exact absurd rfl hstands

theorem splitLeft_has (he : e.Sound) (hover : keep.vma < e.endAddr) {addr : Nat} (ha : e.Has addr)
    (hkeepLo : addr < keep.lo) : (splitLeft e keep).vma ≠ 0 ∧ (splitLeft e keep).Has addr := by
  have hleft : e.vma < keep.vma := by
    rw [UInt64.lt_iff_toNat_lt]
    exact Nat.lt_of_le_of_lt ha.1 hkeepLo
  rw [splitLeft, if_pos hleft]
  refine ⟨he.nonzero, ha.1, ?_⟩
  rw [UInt64.lt_iff_toNat_lt] at hleft hover
  rw [he.endAddr] at hover
  have hbound := he.hi_le
  have hleft' : e.lo < keep.vma.toNat := hleft
  have hsize := distance_toInt (Nat.le_of_lt hleft') (show _ < e.lo + 2 ^ 31 by omega)
  change addr < e.lo + (keep.vma - e.vma).toUInt32.toInt32.toInt.toNat
  rw [hsize, Int.toNat_natCast]
  change addr < e.lo + (keep.vma.toNat - e.lo)
  have hlt : addr < keep.vma.toNat := hkeepLo
  omega

end

/-! Arrays of entries, some of them invalidated. -/

/-- Every entry that is not invalidated is sound. -/
def Sane (es : List JitEntry) : Prop := ∀ e ∈ es, e.vma ≠ 0 → e.Sound

/-- An entry that stands covers this address. -/
def Covered (es : List JitEntry) (addr : Nat) : Prop := ∃ e ∈ es, e.vma ≠ 0 ∧ e.Has addr

/-- The second array holds pieces of the entries in the first, and they cover the same. -/
structure Refines (es es' : List JitEntry) : Prop where
  sane : Sane es'
  piece : ∀ p ∈ es', p.vma ≠ 0 → ∃ e ∈ es, e.vma ≠ 0 ∧ Piece e p
  cover : ∀ addr, Covered es addr → Covered es' addr

theorem Refines.refl {es : List JitEntry} (h : Sane es) : Refines es es :=
  ⟨h, fun p hp hstands => ⟨p, hp, hstands, Piece.refl p⟩, fun _ ha => ha⟩

theorem Refines.trans {es es' es'' : List JitEntry} (h : Refines es es') (h' : Refines es' es'') :
    Refines es es'' where
  sane := h'.sane
  piece p hp hstands := by
    obtain ⟨q, hq, hqstands, hqp⟩ := h'.piece p hp hstands
    obtain ⟨e, he, hestands, heq⟩ := h.piece q hq hqstands
    exact ⟨e, he, hestands, heq.trans hqp⟩
  cover addr ha := h'.cover addr (h.cover addr ha)

/-- An entry gives way to pieces of it, and another entry may cover the rest. -/
theorem Refines.set {es extra : List JitEntry} {i : Nat} {e p : JitEntry} (hsane : Sane es)
    (hi : es[i]? = some e) (hestands : e.vma ≠ 0)
    (hpieces : ∀ q ∈ p :: extra, q.vma ≠ 0 → q.Sound ∧ Piece e q)
    (hcover : ∀ addr, e.Has addr → Covered (p :: extra) addr ∨
      ∃ k q, k ≠ i ∧ es[k]? = some q ∧ q.vma ≠ 0 ∧ q.Has addr) :
    Refines es (es.set i p ++ extra) := by
  have hlt : i < es.length := (List.getElem?_eq_some_iff.mp hi).1
  have hmem : e ∈ es := List.mem_of_getElem? hi
  have hput : ∀ q ∈ p :: extra, q ∈ es.set i p ++ extra := by
    intro q hq
    rcases List.mem_cons.mp hq with rfl | hq
    · exact List.mem_append_left _ (List.mem_set hlt q)
    · exact List.mem_append_right _ hq
  have hold : ∀ {k : Nat} {q : JitEntry}, k ≠ i → es[k]? = some q → q ∈ es.set i p ++ extra := by
    intro k q hne hk
    apply List.mem_append_left
    apply List.mem_of_getElem? (i := k)
    rw [List.getElem?_set_ne (Ne.symm hne)]
    exact hk
  have hsplit : ∀ q ∈ es.set i p ++ extra, q ∈ p :: extra ∨ q ∈ es := by
    intro q hq
    rcases List.mem_append.mp hq with hq | hq
    · rcases List.mem_or_eq_of_mem_set hq with hq | rfl
      · exact Or.inr hq
      · exact Or.inl List.mem_cons_self
    · exact Or.inl (List.mem_cons_of_mem _ hq)
  refine ⟨?_, ?_, ?_⟩
  · intro q hq hstands
    rcases hsplit q hq with hq | hq
    · exact (hpieces q hq hstands).1
    · exact hsane q hq hstands
  · intro q hq hstands
    rcases hsplit q hq with hq | hq
    · exact ⟨e, hmem, hestands, (hpieces q hq hstands).2⟩
    · exact ⟨q, hq, hstands, Piece.refl q⟩
  · rintro addr ⟨q, hq, hstands, ha⟩
    obtain ⟨k, hk⟩ := List.getElem?_of_mem hq
    by_cases hne : k = i
    · subst hne
      obtain rfl : e = q := Option.some.inj (hi.symm.trans hk)
      rcases hcover addr ha with ⟨r, hr, hrstands, hra⟩ | ⟨k', r, hne', hk', hrstands, hra⟩
      · exact ⟨r, hput r hr, hrstands, hra⟩
      · exact ⟨r, hold hne' hk', hrstands, hra⟩
    · exact ⟨q, hold hne hk, hstands, ha⟩

/-- The entries from `lo` to before `hi` give way to pieces; the others stay where they are. -/
structure Reworks (lo hi : Nat) (es es' : List JitEntry) : Prop extends Refines es es' where
  grows : es.length ≤ es'.length
  frame : ∀ k < es.length, k < lo ∨ hi ≤ k → es'[k]? = es[k]?

theorem Reworks.refl {lo hi : Nat} {es : List JitEntry} (h : Sane es) : Reworks lo hi es es :=
  ⟨Refines.refl h, Nat.le_refl _, fun _ _ _ => rfl⟩

theorem Reworks.trans {lo hi : Nat} {es es' es'' : List JitEntry} (h : Reworks lo hi es es')
    (h' : Reworks lo hi es' es'') : Reworks lo hi es es'' where
  toRefines := h.toRefines.trans h'.toRefines
  grows := Nat.le_trans h.grows h'.grows
  frame k hk hout := (h'.frame k (Nat.lt_of_lt_of_le hk h.grows) hout).trans (h.frame k hk hout)

theorem Reworks.mono {lo hi lo' hi' : Nat} {es es' : List JitEntry} (h : Reworks lo hi es es')
    (hlo : lo' ≤ lo) (hhi : hi ≤ hi') : Reworks lo' hi' es es' where
  toRefines := h.toRefines
  grows := h.grows
  frame k hk hout := h.frame k hk (by omega)

theorem reworks_set {es extra : List JitEntry} {i : Nat} {p : JitEntry}
    (h : Refines es (es.set i p ++ extra)) : Reworks i (i + 1) es (es.set i p ++ extra) where
  toRefines := h
  grows := by
    rw [List.length_append, List.length_set]
    exact Nat.le_add_right _ _
  frame k hk hout := by
    rw [List.getElem?_append_left (by rwa [List.length_set]), List.getElem?_set_ne (by omega)]

/-! One region of overlaps. -/

section

variable {debug : Bool} {es es' : List JitEntry} {keep : JitEntry} {keepIdx : Nat}

theorem eliminateStep_reworks {st st' : Elimination} {i : Nat} (hsane : Sane st.entries) (hkeep : keep.Sound)
    (hkeepIdx : st.entries[keepIdx]? = some keep)
    (hstands : ∀ e, st.entries[i]? = some e → e.vma ≠ 0)
    (h : eliminateStep debug keepIdx keep st i = some st') :
    Reworks i (i + 1) st.entries st'.entries ∧ st'.entries[keepIdx]? = some keep := by
  rw [eliminateStep] at h
  split_ifs at h with hi
  · cases h
    exact ⟨Reworks.refl hsane, hkeepIdx⟩
  · split at h
    · cases h
    · next e he =>
      have hne := hstands e he
      have hsound := hsane e (List.mem_of_getElem? he) hne
      by_cases hassert : debug = true ∧ ¬(e.vma ≤ e.endAddr ∧ keep.vma ≤ keep.endAddr)
      · rw [if_pos hassert] at h
        cases h
      rw [if_neg hassert] at h
      by_cases hover : e.vma < keep.endAddr ∧ keep.vma < e.endAddr
      · rw [if_pos hover] at h
        obtain rfl := Option.some.inj h
        have hreworks := reworks_set <| Refines.set hsane he hne
          (by
            intro q hq hqstands
            rcases List.mem_cons.mp hq with rfl | hq
            · exact splitLeft_piece hsound hover.2 hqstands
            · exact splitRight_piece hsound hover.1 hq)
          (by
            intro addr ha
            rcases Nat.lt_or_ge addr keep.lo with hlo | hlo
            · exact Or.inl ⟨_, List.mem_cons_self, splitLeft_has hsound hover.2 ha hlo⟩
            · rcases Nat.lt_or_ge addr keep.hi with hhi | hhi
              · exact Or.inr ⟨keepIdx, keep, Ne.symm hi, hkeepIdx, hkeep.nonzero, hlo, hhi⟩
              · obtain ⟨p, hp, hpa⟩ := splitRight_has hsound hkeep hover.1 ha hhi
                exact Or.inl ⟨p, List.mem_cons_of_mem _ hp, (splitRight_piece hsound hover.1 hp).1.nonzero, hpa⟩)
        refine ⟨hreworks, ?_⟩
        have hlt := (List.getElem?_eq_some_iff.mp hkeepIdx).1
        exact (hreworks.frame keepIdx hlt (by omega)).trans hkeepIdx
      · rw [if_neg hover] at h
        obtain rfl := Option.some.inj h
        exact ⟨Reworks.refl hsane, hkeepIdx⟩

/-- The whole loop: what is still ahead is untouched, so every round meets an entry that stands. -/
theorem eliminateLoop_reworks (n : Nat) {i : Nat} {st st' : Elimination} (hsane : Sane st.entries)
    (hkeep : keep.Sound) (hkeepIdx : st.entries[keepIdx]? = some keep)
    (hstands : ∀ k, i ≤ k → k < i + n → ∃ e, st.entries[k]? = some e ∧ e.vma ≠ 0)
    (h : (List.range' i n).foldlM (eliminateStep debug keepIdx keep) st = some st') :
    Reworks i (i + n) st.entries st'.entries ∧ st'.entries[keepIdx]? = some keep := by
  induction n generalizing i st with
  | zero =>
    obtain rfl := Option.some.inj h
    exact ⟨Reworks.refl hsane, hkeepIdx⟩
  | succ n ih =>
    rw [List.range'_succ, List.foldlM_cons] at h
    obtain ⟨st₁, hstep, hrest⟩ := Option.bind_eq_some_iff.mp h
    obtain ⟨e, he, hestands⟩ := hstands i (Nat.le_refl i) (by omega)
    obtain ⟨hfirst, hkeepIdx₁⟩ := eliminateStep_reworks hsane hkeep hkeepIdx
      (fun e' he' => Option.some.inj (he.symm.trans he') ▸ hestands) hstep
    have hahead : ∀ k, i + 1 ≤ k → k < i + 1 + n → ∃ e, st₁.entries[k]? = some e ∧ e.vma ≠ 0 := by
      intro k hlo hhi
      obtain ⟨e, he, hestands⟩ := hstands k (by omega) (by omega)
      have hlt := (List.getElem?_eq_some_iff.mp he).1
      exact ⟨e, (hfirst.frame k hlt (by omega)).trans he, hestands⟩
    obtain ⟨hlast, hkeepIdx₂⟩ := ih hfirst.sane hkeepIdx₁ hahead hrest
    exact ⟨(hfirst.mono (Nat.le_refl i) (by omega)).trans (hlast.mono (by omega) (by omega)), hkeepIdx₂⟩

theorem selectStep_within {lo hi i : Nat} {best : Option (Nat × UInt64)} (hi' : lo ≤ i ∧ i < hi)
    (h : ∀ c, best.map Prod.fst = some c → lo ≤ c ∧ c < hi) :
    ∀ c, (selectStep es best i).map Prod.fst = some c → lo ≤ c ∧ c < hi := by
  intro c hc
  cases he : es[i]? with
  | none =>
    simp only [selectStep, he] at hc
    exact h c hc
  | some e =>
    cases best with
    | none =>
      simp only [selectStep, he] at hc
      obtain rfl := Option.some.inj hc
      exact hi'
    | some best =>
      simp only [selectStep, he] at hc
      by_cases hlonger : best.2 < e.lifetime
      · simp only [if_pos hlonger] at hc
        obtain rfl := Option.some.inj hc
        exact hi'
      · simp only [if_neg hlonger] at hc
        exact h c hc

theorem selectOne_within {startIdx endIdx idx : Nat} (h : selectOne es startIdx endIdx = some idx) :
    startIdx ≤ idx ∧ idx < endIdx + 1 := by
  have hloop : ∀ (is : List Nat) (best : Option (Nat × UInt64)),
      (∀ i ∈ is, startIdx ≤ i ∧ i < endIdx + 1) →
      (∀ c, best.map Prod.fst = some c → startIdx ≤ c ∧ c < endIdx + 1) →
      ∀ c, (is.foldl (selectStep es) best).map Prod.fst = some c → startIdx ≤ c ∧ c < endIdx + 1 := by
    intro is
    induction is with
    | nil => exact fun _ _ hbest => hbest
    | cons i is ih =>
      intro best his hbest
      obtain ⟨hi, his⟩ := List.forall_mem_cons.mp his
      exact ih _ his (selectStep_within hi hbest)
  refine hloop _ none (fun i hi => ?_) (fun c hc => ?_) idx h
  · rw [List.mem_range'_1] at hi
    omega
  · cases hc

theorem decimal_digits (n : Nat) : ∀ d ∈ decimal n, 0x30 ≤ d ∧ d ≤ 0x39 := by
  intro d hd
  obtain ⟨c, hc, rfl⟩ := List.mem_map.mp hd
  have hdigit : c.isDigit = true := Nat.isDigit_of_mem_toDigits (by omega) (Nat.le_refl 10) hc
  obtain ⟨hlo, hhi⟩ := Char.isDigit_iff_toNat.mp hdigit
  rw [UInt8.le_iff_toNat_le, UInt8.le_iff_toNat_le, UInt8.toNat_ofNat']
  change 48 ≤ c.toNat % 2 ^ 8 ∧ c.toNat % 2 ^ 8 ≤ 57
  change 48 ≤ c.toNat at hlo
  change c.toNat ≤ 57 at hhi
  omega

theorem decimal_ne_nil (n : Nat) : decimal n ≠ [] := by
  rw [decimal, ne_eq, List.map_eq_nil_iff]
  exact Nat.toDigits_ne_nil

theorem markedName_suffixed (name : List UInt8) (pct : UInt64) : Suffixed name (markedName name pct) := by
  have hpos : 0 < (decimal pct.toUInt32.toInt32.toInt.natAbs).length :=
    List.length_pos_iff.mpr (decimal_ne_nil _)
  have hdigits := decimal_digits pct.toNat
  obtain ⟨d, ds, hds⟩ := List.exists_cons_of_ne_nil (decimal_ne_nil pct.toNat)
  rw [hds] at hdigits
  obtain ⟨room, hroom⟩ : ∃ room, (decimal pct.toUInt32.toInt32.toInt.natAbs).length + name.length + 2 + 1 - 1 =
      name.length + (room + 2) := ⟨(decimal pct.toUInt32.toInt32.toInt.natAbs).length, by omega⟩
  have hmarked : markedName name pct = name ++ 0x25 :: d :: ds.take room := by
    rw [markedName]
    simp only [hroom]
    rw [List.take_length_add_append, hds]
    rfl
  rw [hmarked]
  refine .add .same (.percent (List.cons_ne_nil _ _) fun x hx => ?_)
  rcases List.mem_cons.mp hx with rfl | hx
  · exact hdigits x List.mem_cons_self
  · exact hdigits x (List.mem_cons_of_mem _ (List.mem_of_mem_take hx))

theorem rename_reworks {i : Nat} {e : JitEntry} {name : List UInt8} (hsane : Sane es)
    (hi : es[i]? = some e) (he : e.Sound) (hname : Suffixed e.symbolName name) :
    Reworks i (i + 1) es (es.set i { e with symbolName := name }) := by
  have hrefines : Refines es (es.set i { e with symbolName := name } ++ []) := by
    refine Refines.set hsane hi he.nonzero ?_ ?_
    · intro q hq _
      obtain rfl := List.mem_singleton.mp hq
      exact ⟨⟨he.nonzero, he.size, he.noWrap⟩,
        ⟨Nat.le_refl _, Nat.le_refl _, rfl, rfl, hname, Or.inr ⟨rfl, rfl⟩, id⟩⟩
    · intro addr ha
      exact Or.inl ⟨_, List.mem_singleton_self _, he.nonzero, ha⟩
  have h := reworks_set hrefines
  rwa [List.append_nil] at h

theorem handleOverlapRegion_reworks {startIdx endIdx : Nat} (hsane : Sane es) (hle : startIdx ≤ endIdx)
    (hstands : ∀ k, startIdx ≤ k → k < endIdx + 1 → ∃ e, es[k]? = some e ∧ e.vma ≠ 0)
    (h : handleOverlapRegion debug startIdx endIdx es = some es') : Reworks startIdx (endIdx + 1) es es' := by
  rw [handleOverlapRegion] at h
  obtain ⟨idx, hidx, h⟩ := Option.bind_eq_some_iff.mp h
  obtain ⟨keep, hkeepIdx, h⟩ := Option.bind_eq_some_iff.mp h
  obtain ⟨⟨es₁, totaltime⟩, helim, h⟩ := Option.bind_eq_some_iff.mp h
  obtain ⟨hlo, hhi⟩ := selectOne_within hidx
  obtain ⟨e, he, hstands'⟩ := hstands idx hlo hhi
  obtain rfl : e = keep := Option.some.inj (he.symm.trans hkeepIdx)
  have hkeep := hsane e (List.mem_of_getElem? he) hstands'
  obtain ⟨st, hloop, hst⟩ := Option.map_eq_some_iff.mp helim
  have hend : startIdx + (endIdx + 1 - startIdx) = endIdx + 1 := by omega
  obtain ⟨hreworks, hkeepIdx₁⟩ :=
    eliminateLoop_reworks (endIdx + 1 - startIdx) hsane hkeep hkeepIdx (by rwa [hend]) hloop
  rw [hend] at hreworks
  cases hst
  by_cases hmax : st.maxEnd - st.minStart = UInt64.ofNat (2 ^ 64 - 1)
  · simp only [if_pos hmax] at h
    cases h
  simp only [if_neg hmax] at h
  obtain ⟨e', he', h⟩ := Option.bind_eq_some_iff.mp h
  obtain rfl : e = e' := Option.some.inj (hkeepIdx₁.symm.trans he')
  obtain rfl := Option.some.inj h
  exact hreworks.trans ((rename_reworks hreworks.sane hkeepIdx₁ hkeep (markedName_suffixed _ _)).mono hlo hhi)

end

/-! The scans. -/

/-- Where the scan stands before it looks at entry `j`. As long as nothing was found, the entries before
`j` are as they were, and those before the region end before it starts. -/
structure Scanning (es : List JitEntry) (j : Nat) (st : Scan) : Prop where
  refines : Refines es st.entries
  grows : es.length ≤ st.entries.length
  behind : st.i < j
  ahead : ∀ k < es.length, st.i ≤ k → st.entries[k]? = es[k]?
  same : st.flag = false → st.entries = es
  endAddr : ∀ k < j - 1, ∀ e, es[k]? = some e → e.endAddr ≤ st.endAddr
  apart : st.flag = false → st.i = j - 1 → (es.take j).Pairwise fun a b => a.endAddr ≤ b.vma

section

variable {debug : Bool} {es es' : List JitEntry} {st st' : Scan} {j : Nat}

/-- Closing a region that goes up to `last`. -/
theorem closeRegion_scanning {last : Nat} (hsound : ∀ e ∈ es, e.Sound) (hscan : Scanning es (last + 1) st)
    (hlast : last < es.length) (h : closeRegion debug last st = some st') :
    Refines es st'.entries ∧ es.length ≤ st'.entries.length ∧
    (∀ k < es.length, last + 1 ≤ k → st'.entries[k]? = es[k]?) ∧ st'.endAddr = st.endAddr ∧
    (st'.flag = false → st.flag = false ∧ st.i = last ∧ st'.entries = es) := by
  rw [closeRegion] at h
  split_ifs at h with hi
  · obtain ⟨entries, hregion, rfl⟩ := Option.map_eq_some_iff.mp h
    have hbehind : st.i ≤ last := Nat.le_of_lt_succ hscan.behind
    have hreworks := handleOverlapRegion_reworks hscan.refines.sane hbehind (fun k hlo hhi => by
      have hk : k < es.length := by omega
      refine ⟨es[k], ?_, (hsound _ (List.getElem_mem hk)).nonzero⟩
      rw [hscan.ahead k hk hlo, List.getElem?_eq_getElem hk]) hregion
    refine ⟨hscan.refines.trans hreworks.toRefines, Nat.le_trans hscan.grows hreworks.grows, ?_, rfl, nofun⟩
    intro k hk hout
    rw [hreworks.frame k (Nat.lt_of_lt_of_le hk hscan.grows) (Or.inr hout)]
    exact hscan.ahead k hk (by omega)
  · obtain rfl := Option.some.inj h
    have heq : st.i = last := not_not.mp hi
    exact ⟨hscan.refines, hscan.grows, fun k hk hout => hscan.ahead k hk (by omega), rfl,
      fun hflag => ⟨hflag, heq, hscan.same hflag⟩⟩

theorem scanStep_scanning (hsound : ∀ e ∈ es, e.Sound) (hscan : Scanning es j st) (hj : 1 ≤ j)
    (hlt : j < es.length) (h : scanStep debug st j = some st') : Scanning es (j + 1) st' := by
  obtain ⟨last, rfl⟩ : ∃ last, j = last + 1 := ⟨j - 1, by omega⟩
  rw [scanStep] at h
  obtain ⟨a, ha, h⟩ := Option.bind_eq_some_iff.mp h
  obtain ⟨b, hb, h⟩ := Option.bind_eq_some_iff.mp h
  have hbehind : st.i ≤ last := Nat.le_of_lt_succ hscan.behind
  have ha' : es[last]? = some a := (hscan.ahead last (by omega) hbehind).symm.trans ha
  have hb' : es[last + 1]? = some b := (hscan.ahead (last + 1) hlt (by omega)).symm.trans hb
  generalize hend : (if st.endAddr < a.endAddr then a.endAddr else st.endAddr) = endAddr at h
  have hmax : st.endAddr ≤ endAddr ∧ a.endAddr ≤ endAddr := by
    rw [← hend]
    split_ifs with hless
    · exact ⟨UInt64.le_of_lt hless, UInt64.le_refl _⟩
    · exact ⟨UInt64.le_refl _, UInt64.not_lt.mp hless⟩
  have hends : ∀ k < last + 1, ∀ e, es[k]? = some e → e.endAddr ≤ endAddr := by
    intro k hk e he
    rcases Nat.lt_or_ge k last with hless | hge
    · exact UInt64.le_trans (hscan.endAddr k hless e he) hmax.1
    · obtain rfl : k = last := by omega
      obtain rfl : a = e := Option.some.inj (ha'.symm.trans he)
      exact hmax.2
  have hscan' : Scanning es (last + 1) { st with endAddr := endAddr } :=
    ⟨hscan.refines, hscan.grows, hscan.behind, hscan.ahead, hscan.same,
      fun k hk e he => hends k (by omega) e he, hscan.apart⟩
  by_cases hgap : endAddr ≤ b.vma
  · simp only [if_pos hgap] at h
    obtain ⟨st₁, hclose, rfl⟩ := Option.map_eq_some_iff.mp h
    obtain ⟨hrefines, hgrows, hahead, hendAddr, hflag⟩ :=
      closeRegion_scanning hsound hscan' (by omega) hclose
    refine ⟨hrefines, hgrows, Nat.lt_succ_self _, hahead, fun hf => (hflag hf).2.2, ?_, ?_⟩
    · intro k hk e he
      change e.endAddr ≤ st₁.endAddr
      rw [hendAddr]
      exact hends k hk e he
    · intro hf _
      obtain ⟨hf', hi, -⟩ := hflag hf
      have hapart := hscan.apart hf' hi
      rw [List.take_add_one, hb', List.pairwise_append]
      refine ⟨hapart, List.pairwise_singleton _ _, ?_⟩
      intro e he b' hb₁
      obtain rfl := List.mem_singleton.mp hb₁
      obtain ⟨k, hk, rfl⟩ := List.mem_take_iff_getElem.mp he
      exact UInt64.le_trans (hends k (by omega) _ (List.getElem?_eq_getElem _)) hgap
  · simp only [if_neg hgap] at h
    obtain rfl := Option.some.inj h
    refine ⟨hscan.refines, hscan.grows, by change st.i < _; omega, hscan.ahead, hscan.same, hends, ?_⟩
    intro _ hi
    change st.i = last + 1 at hi
    omega

/-- A scan is one round for each entry but the first, and the last region closed. -/
theorem scanOverlaps_rounds {flag : Bool} (h : scanOverlaps debug es = some (es', flag)) :
    (es = [] ∧ es' = [] ∧ flag = false) ∨ ∃ e rest st st', es = e :: rest ∧
      (List.range' 1 rest.length).foldlM (scanStep debug) ⟨0, 0, false, e :: rest⟩ = some st ∧
      closeRegion debug rest.length st = some st' ∧ es' = st'.entries ∧ flag = st'.flag := by
  rw [scanOverlaps] at h
  split_ifs at h with hmax
  obtain ⟨st, hloop, h⟩ := Option.bind_eq_some_iff.mp h
  obtain ⟨st', hclose, h⟩ := Option.bind_eq_some_iff.mp h
  cases h
  cases es with
  | nil =>
    obtain rfl := Option.some.inj hloop
    have hempty : some (⟨0, 0, false, []⟩ : Scan) = some st' := hclose
    cases hempty
    exact Or.inl ⟨rfl, rfl, rfl⟩
  | cons e rest =>
    have hlast : max 1 (e :: rest).length - 1 = rest.length := by
      rw [List.length_cons]
      omega
    rw [hlast] at hclose
    exact Or.inr ⟨e, rest, st, st', rfl, hloop, hclose, rfl, rfl⟩

theorem scanning_start {e : JitEntry} (hsound : ∀ x ∈ e :: es, x.Sound) :
    Scanning (e :: es) 1 ⟨0, 0, false, e :: es⟩ :=
  ⟨Refines.refl fun x hx _ => hsound x hx, Nat.le_refl _, Nat.lt_succ_self 0, fun _ _ _ => rfl, fun _ => rfl,
    fun k hk => absurd hk (Nat.not_lt_zero k), fun _ _ => List.pairwise_singleton _ e⟩

/-- A scan works on pieces, and finds nothing only where every entry ends before the next. -/
theorem scanOverlaps_refines {flag : Bool} (hsound : ∀ e ∈ es, e.Sound)
    (h : scanOverlaps debug es = some (es', flag)) :
    Refines es es' ∧ (flag = false → es' = es ∧ es.Pairwise fun a b => a.endAddr ≤ b.vma) := by
  rcases scanOverlaps_rounds h with ⟨rfl, rfl, rfl⟩ | ⟨e, rest, st, st', rfl, hloop, hclose, rfl, rfl⟩
  · exact ⟨Refines.refl fun e he _ => hsound e he, fun _ => ⟨rfl, List.Pairwise.nil⟩⟩
  · have hscan := Loops.invariant (I := Scanning (e :: rest)) rest.length (scanning_start hsound)
      (fun j t t' hj hlt hscan hstep =>
        scanStep_scanning hsound hscan hj (by rw [List.length_cons]; omega) hstep) hloop
    rw [Nat.add_comm] at hscan
    obtain ⟨hrefines, -, -, -, hflag⟩ := closeRegion_scanning hsound hscan (Nat.lt_succ_self _) hclose
    refine ⟨hrefines, fun hf => ?_⟩
    obtain ⟨hf', hi, hsame⟩ := hflag hf
    have hapart := hscan.apart hf' hi
    rw [List.take_of_length_le (Nat.le_of_eq (List.length_cons ..))] at hapart
    exact ⟨hsame, hapart⟩

end

/-! The whole resolution. -/

theorem mem_dropWhile_of_not {α : Type} {p : α → Bool} {l : List α} {x : α} (hx : x ∈ l) (hp : p x = false) :
    x ∈ l.dropWhile p := by
  rw [← List.takeWhile_append_dropWhile (p := p) (l := l)] at hx
  rcases List.mem_append.mp hx with hx | hx
  · rw [List.all_eq_true.mp List.all_takeWhile x hx] at hp
    cases hp
  · exact hx

section

variable {sorts : Sorts} {debug : Bool} {startTime : UInt64} {es es' entries : List JitEntry}

/-- The array in order, without the invalidated entries. -/
theorem resortAddress_refines (sorts : Sorts) (hsane : Sane es) :
    Refines es (resortAddress sorts es) ∧ (∀ e ∈ resortAddress sorts es, e.Sound) ∧
    (resortAddress sorts es).Pairwise fun a b => a.vma ≤ b.vma := by
  have hperm := sorts.address.perm es
  have hsub : (resortAddress sorts es).Sublist (sorts.address.sort es) := List.dropWhile_sublist _
  have hmem : ∀ e ∈ resortAddress sorts es, e ∈ es := fun e he => hperm.subset (hsub.subset he)
  have hsorted := (sorts.address.sorted es).sublist hsub
  have hstands : ∀ e ∈ resortAddress sorts es, e.vma ≠ 0 := by
    intro e he
    cases hl : resortAddress sorts es with
    | nil =>
      rw [hl] at he
      cases he
    | cons first rest =>
      have hhead := List.head_dropWhile_not (fun e : JitEntry => decide (e.vma = 0))
        (l := sorts.address.sort es) (List.ne_nil_of_mem he)
      have hfirst : first.vma ≠ 0 := by
        simp only [resortAddress] at hl
        simp only [hl, List.head_cons] at hhead
        exact of_decide_eq_false hhead
      rw [hl] at he hsorted
      rcases List.mem_cons.mp he with rfl | he
      · exact hfirst
      · intro hzero
        have hle := List.rel_of_pairwise_cons hsorted he
        rw [hzero] at hle
        exact hfirst (UInt64.le_antisymm hle (UInt64.zero_le))
  have hsound : ∀ e ∈ resortAddress sorts es, e.Sound := fun e he => hsane e (hmem e he) (hstands e he)
  refine ⟨⟨fun e he _ => hsound e he, fun e he hs => ⟨e, hmem e he, hs, Piece.refl e⟩, ?_⟩, hsound, hsorted⟩
  rintro addr ⟨e, he, hs, ha⟩
  exact ⟨e, mem_dropWhile_of_not (hperm.symm.subset he) (decide_eq_false hs), hs, ha⟩

/-- What is left when the scans find nothing more. -/
theorem rescan_refines {fuel : Nat} {again : Bool} (hsound : ∀ e ∈ es, e.Sound)
    (hsorted : es.Pairwise fun a b => a.vma ≤ b.vma) (h : rescan sorts debug fuel es = some (es', again)) :
    Refines es es' ∧ (∀ e ∈ es', e.Sound) ∧ (es'.Pairwise fun a b => a.vma ≤ b.vma) ∧
    (es'.Pairwise fun a b => a.endAddr ≤ b.vma) ∧ (again = false → es' = es) := by
  induction fuel generalizing es es' again with
  | zero => cases h
  | succ fuel ih =>
    rw [rescan] at h
    split at h
    · cases h
    · next found hscan =>
      cases h
      obtain ⟨hrefines, hclean⟩ := scanOverlaps_refines hsound hscan
      obtain ⟨rfl, hapart⟩ := hclean rfl
      exact ⟨hrefines, hsound, hsorted, hapart, fun _ => rfl⟩
    · next found hscan =>
      obtain ⟨⟨es₁, again₁⟩, hrec, hpair⟩ := Option.map_eq_some_iff.mp h
      cases hpair
      obtain ⟨hrefines, -⟩ := scanOverlaps_refines hsound hscan
      obtain ⟨hresort, hsound', hsorted'⟩ := resortAddress_refines sorts hrefines.sane
      obtain ⟨hrest, hsound₁, hsorted₁, hapart, -⟩ := ih hsound' hsorted' hrec
      exact ⟨(hrefines.trans hresort).trans hrest, hsound₁, hsorted₁, hapart, nofun⟩

/-- Before the scans: the entries of the list that live long enough, in order. -/
theorem invalidateEarlybirds_refines (startTime : UInt64) {arrays : Arrays} (hlist : ∀ e ∈ entries, e.Sound)
    (harrays : createArrays sorts entries = some arrays) :
    Refines (entries.filter fun e => startTime ≤ e.lifeEnd)
      (invalidateEarlybirds sorts startTime arrays).addressAscending ∧
    (∀ e ∈ (invalidateEarlybirds sorts startTime arrays).addressAscending, e.Sound) ∧
    ((invalidateEarlybirds sorts startTime arrays).addressAscending.Pairwise fun a b => a.vma ≤ b.vma) ∧
    (invalidateEarlybirds sorts startTime arrays).symbolsAscending.Perm
      (invalidateEarlybirds sorts startTime arrays).addressAscending ∧
    ((invalidateEarlybirds sorts startTime arrays).symbolsAscending.Pairwise
      fun a b => a.symbolName ≤ b.symbolName) := by
  rw [createArrays] at harrays
  split_ifs at harrays
  obtain rfl := Option.some.inj harrays
  have hperm := sorts.address.perm entries
  rw [invalidateEarlybirds]
  split_ifs with hearly
  · generalize hmap : (sorts.address.sort entries).map _ = marked
    have hmarked : ∀ p ∈ marked, p.vma ≠ 0 → p ∈ entries.filter fun e => startTime ≤ e.lifeEnd := by
      intro p hp hstands
      rw [← hmap] at hp
      obtain ⟨e, he, rfl⟩ := List.mem_map.mp hp
      split_ifs at hstands ⊢ with hlife
      · exact absurd rfl hstands
      · exact List.mem_filter.mpr ⟨hperm.subset he, decide_eq_true (UInt64.not_lt.mp hlife)⟩
    have hrefines : Refines (entries.filter fun e => startTime ≤ e.lifeEnd) marked := by
      refine ⟨?_, ?_, ?_⟩
      · exact fun p hp hs => hlist p (List.mem_of_mem_filter (hmarked p hp hs))
      · exact fun p hp hs => ⟨p, hmarked p hp hs, hs, Piece.refl p⟩
      · rintro addr ⟨e, he, hs, ha⟩
        obtain ⟨he, hlife⟩ := List.mem_filter.mp he
        refine ⟨e, ?_, hs, ha⟩
        rw [← hmap]
        refine List.mem_map.mpr ⟨e, hperm.symm.subset he, ?_⟩
        rw [if_neg (UInt64.not_lt.mpr (of_decide_eq_true hlife))]
    obtain ⟨hresort, hsound, hsorted⟩ := resortAddress_refines sorts hrefines.sane
    exact ⟨hrefines.trans hresort, hsound, hsorted, sorts.symbolname.perm _, sorts.symbolname.sorted _⟩
  · have hall : (entries.filter fun e => startTime ≤ e.lifeEnd) = entries := by
      refine List.filter_eq_self.mpr fun e he => decide_eq_true (UInt64.not_lt.mp fun hlife => ?_)
      exact hearly ⟨e, hperm.symm.subset he, hlife⟩
    have hsound : ∀ e ∈ sorts.address.sort entries, e.Sound := fun e he => hlist e (hperm.subset he)
    rw [hall]
    refine ⟨⟨fun e he _ => hsound e he, ?_, ?_⟩, hsound, sorts.address.sorted entries,
      (sorts.symbolname.perm entries).trans hperm.symm, sorts.symbolname.sorted entries⟩
    · exact fun e he hs => ⟨e, hperm.subset he, hs, Piece.refl e⟩
    · rintro addr ⟨e, he, hs, ha⟩
      exact ⟨e, hperm.symm.subset he, hs, ha⟩

/-- What the arrays should hold: pieces of the entries that are alive at the start, apart from each
other, which cover the same addresses. -/
structure Resolution (startTime : UInt64) (entries : List JitEntry) (arrays : Arrays) : Prop where
  sorted : arrays.addressAscending.Pairwise fun a b => a.vma ≤ b.vma
  disjoint : arrays.addressAscending.Pairwise fun a b => ∀ addr, ¬(a.Has addr ∧ b.Has addr)
  union : ∀ addr, (∃ p ∈ arrays.addressAscending, p.Has addr) ↔
    ∃ e ∈ entries, startTime ≤ e.lifeEnd ∧ e.Has addr
  piece : ∀ p ∈ arrays.addressAscending, ∃ e ∈ entries, startTime ≤ e.lifeEnd ∧ Piece e p
  perm : arrays.symbolsAscending.Perm arrays.addressAscending
  byName : arrays.symbolsAscending.Pairwise fun a b => a.symbolName ≤ b.symbolName

theorem resolveOverlaps_resolution (sorts : Sorts) (debug : Bool) (fuel : Nat) (startTime : UInt64)
    (entries : List JitEntry) (arrays resolved : Arrays)
    (hentries : ∀ e ∈ entries, e.vma ≠ 0 ∧ 0 ≤ e.codeSize.toInt ∧ e.vma.toNat + e.codeSize.toInt.toNat < 2 ^ 64)
    (harrays : createArrays sorts entries = some arrays)
    (h : resolveOverlaps sorts debug fuel startTime arrays = some resolved) :
    Resolution startTime entries resolved := by
  have hlist : ∀ e ∈ entries, e.Sound := fun e he => ⟨(hentries e he).1, (hentries e he).2.1, (hentries e he).2.2⟩
  obtain ⟨hrefines, hsound, hsorted, hperm, hnames⟩ :=
    invalidateEarlybirds_refines startTime hlist harrays
  obtain ⟨⟨es, again⟩, hscans, rfl⟩ := Option.map_eq_some_iff.mp h
  obtain ⟨hrest, hsound', hsorted', hapart, hagain⟩ := rescan_refines hsound hsorted hscans
  have hwhole := hrefines.trans hrest
  have hpiece : ∀ p ∈ es, ∃ e ∈ entries, startTime ≤ e.lifeEnd ∧ Piece e p := by
    intro p hp
    obtain ⟨e, he, -, hep⟩ := hwhole.piece p hp (hsound' p hp).nonzero
    obtain ⟨he, hlife⟩ := List.mem_filter.mp he
    exact ⟨e, he, of_decide_eq_true hlife, hep⟩
  have hdisjoint : es.Pairwise fun a b => ∀ addr, ¬(a.Has addr ∧ b.Has addr) := by
    refine List.Pairwise.imp_of_mem ?_ hapart
    rintro a b ha - hle addr ⟨hina, hinb⟩
    rw [UInt64.le_iff_toNat_le, (hsound' a ha).endAddr] at hle
    exact absurd (Nat.lt_of_lt_of_le hina.2 hle) (Nat.not_lt.mpr hinb.1)
  have hunion : ∀ addr, (∃ p ∈ es, p.Has addr) ↔ ∃ e ∈ entries, startTime ≤ e.lifeEnd ∧ e.Has addr := by
    intro addr
    constructor
    · rintro ⟨p, hp, ha⟩
      obtain ⟨e, he, hlife, hep⟩ := hpiece p hp
      exact ⟨e, he, hlife, hep.has ha⟩
    · rintro ⟨e, he, hlife, ha⟩
      obtain ⟨p, hp, -, hpa⟩ := hwhole.cover addr
        ⟨e, List.mem_filter.mpr ⟨he, decide_eq_true hlife⟩, (hlist e he).nonzero, ha⟩
      exact ⟨p, hp, hpa⟩
  cases again with
  | true =>
    exact ⟨hsorted', hdisjoint, hunion, hpiece, sorts.symbolname.perm es, sorts.symbolname.sorted es⟩
  | false =>
    obtain rfl := hagain rfl
    exact ⟨hsorted', hdisjoint, hunion, hpiece, hperm, hnames⟩

end

/-- `qsort` as an insertion sort. -/
def insertionSorts : Sorts where
  address := Sorting.insertion _ (fun a b => UInt64.le_total a.vma b.vma) fun _ _ _ => UInt64.le_trans
  symbolname :=
    Sorting.insertion _ (fun a b => List.le_total a.symbolName b.symbolName) fun _ _ _ => List.le_trans

def sampleLong : JitEntry := ⟨100, some 7, 20, [0x61], 1, 9⟩

def sampleWide : JitEntry := ⟨90, some 8, 40, [0x62], 2, 5⟩

/-- The wide entry is split around the one that lives longer. -/
theorem resolveOverlaps_resolution_split : ∃ arrays resolved,
    createArrays insertionSorts [sampleLong, sampleWide] = some arrays ∧
    resolveOverlaps insertionSorts true 2 1 arrays = some resolved ∧
    resolved.addressAscending.length = 3 ∧ Resolution 1 [sampleLong, sampleWide] resolved := by
  have harrays : createArrays insertionSorts [sampleLong, sampleWide] =
      some ⟨[sampleWide, sampleLong], [sampleLong, sampleWide]⟩ := by decide
  obtain ⟨resolved, hresolved, hlength⟩ : ∃ resolved, resolveOverlaps insertionSorts true 2 1
      ⟨[sampleWide, sampleLong], [sampleLong, sampleWide]⟩ = some resolved ∧
      resolved.addressAscending.length = 3 := ⟨_, rfl, by decide⟩
  exact ⟨_, resolved, harrays, hresolved, hlength,
    resolveOverlaps_resolution _ _ _ _ _ _ _ (by decide) harrays hresolved⟩

end Oprofile.Opjitconv
