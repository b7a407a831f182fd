import Oprofile.Library.Loops
import Oprofile.Opjitconv.Overlaps

/-! An entry that no other one meets keeps its code through `resolve_overlaps`. -/
namespace Oprofile.Opjitconv

/-- The entry stands, and its range meets that of `e`. -/
def Meeting (e p : JitEntry) : Bool := decide (p.vma ≠ 0 ∧ p.lo < e.hi ∧ e.lo < p.hi)

/-- The entry but for its name and its life. -/
def JitEntry.image (e : JitEntry) : UInt64 × Int32 × Option Nat := (e.vma, e.codeSize, e.code)

/-- One entry alone meets the range of `e`, and it has the range and the code of `e`. -/
def Kept (e : JitEntry) (es : List JitEntry) : Prop := (es.filter (Meeting e)).map JitEntry.image = [e.image]

variable {e p x keep : JitEntry} {es es' extra : List JitEntry} {i j k : Nat}

theorem meeting_iff : Meeting e p = true ↔ p.vma ≠ 0 ∧ p.lo < e.hi ∧ e.lo < p.hi := decide_eq_true_iff

theorem lo_of_image (h : p.image = e.image) : p.lo = e.lo := congrArg (fun t => t.1.toNat) h

theorem hi_of_image (h : p.image = e.image) : p.hi = e.hi :=
  congrArg (fun t : UInt64 × Int32 × Option Nat => t.1.toNat + t.2.1.toInt.toNat) h

theorem code_of_image (h : p.image = e.image) : p.code = e.code := congrArg (fun t => t.2.2) h

/-- The one that meets the range of `e` has its range and code. -/
theorem Kept.image (h : Kept e es) (hp : p ∈ es) (hmeets : Meeting e p = true) : p.image = e.image := by
  have hmem := List.mem_map_of_mem (f := JitEntry.image) (List.mem_filter.mpr ⟨hp, hmeets⟩)
  rw [Kept] at h
  rw [h] at hmem
  exact List.mem_singleton.mp hmem

theorem Kept.exists (h : Kept e es) : ∃ p ∈ es, p.image = e.image := by
  have hmem : e.image ∈ (es.filter (Meeting e)).map JitEntry.image := by
    rw [h]
    exact List.mem_singleton_self _
  obtain ⟨p, hp, himage⟩ := List.mem_map.mp hmem
  exact ⟨p, List.mem_of_mem_filter hp, himage⟩

theorem split_at (hi : es[i]? = some x) (p : JitEntry) :
    es = es.take i ++ x :: es.drop (i + 1) ∧ es.set i p = es.take i ++ p :: es.drop (i + 1) := by
  obtain ⟨hlt, rfl⟩ := List.getElem?_eq_some_iff.mp hi
  rw [← List.drop_eq_getElem_cons hlt, List.take_append_drop]
  exact ⟨rfl, List.set_eq_take_cons_drop p hlt⟩

/-- The others do not meet it. -/
theorem Kept.alone (h : Kept e es) (hi : es[i]? = some x) (hx : Meeting e x = true) (hj : es[j]? = some p)
    (hne : j ≠ i) : Meeting e p = false := by
  by_contra hp
  rw [Bool.not_eq_false] at hp
  have hlen : (es.filter (Meeting e)).length = 1 := by
    have hlength := congrArg List.length h
    rwa [List.length_map] at hlength
  obtain ⟨hsplit, -⟩ := split_at hi x
  have hmem : p ∈ es.take i ++ es.drop (i + 1) := by
    rw [← List.eraseIdx_eq_take_drop_succ]
    exact List.mem_eraseIdx_iff_getElem?.mpr ⟨j, hne, hj⟩
  have hpos : 0 < ((es.take i ++ es.drop (i + 1)).filter (Meeting e)).length :=
    List.length_pos_of_mem (List.mem_filter.mpr ⟨hmem, hp⟩)
  rw [hsplit, List.filter_append, List.filter_cons_of_pos hx] at hlen
  rw [List.filter_append] at hpos
  simp only [List.length_append, List.length_cons] at hlen hpos
  omega

theorem Kept.perm (h : Kept e es) (hperm : es'.Perm es) : Kept e es' := by
  have himages := (hperm.filter (Meeting e)).map JitEntry.image
  rw [h] at himages
  exact List.perm_singleton.mp himages

/-- An entry gives way to one that meets the same. -/
theorem Kept.set (h : Kept e es) (hi : es[i]? = some x) (hsame : Meeting e p = Meeting e x)
    (himage : Meeting e x = true → p.image = x.image) : Kept e (es.set i p) := by
  obtain ⟨hsplit, hset⟩ := split_at hi p
  rw [Kept] at h ⊢
  rw [hset, ← h]
  conv_rhs => rw [hsplit]
  simp only [List.filter_append, List.map_append]
  congr 1
  cases hx : Meeting e x with
  | true =>
    rw [hx] at hsame
    rw [List.filter_cons_of_pos hsame, List.filter_cons_of_pos hx, List.map_cons, List.map_cons, himage hx]
  | false =>
    rw [hx] at hsame
    rw [List.filter_cons_of_neg (by rw [hsame]; exact Bool.false_ne_true),
      List.filter_cons_of_neg (by rw [hx]; exact Bool.false_ne_true)]

theorem Kept.append (h : Kept e es) (hextra : ∀ p ∈ extra, Meeting e p = false) : Kept e (es ++ extra) := by
  rw [Kept] at h ⊢
  have hnil : extra.filter (Meeting e) = [] := by
    refine List.filter_eq_nil_iff.mpr fun p hp => ?_
    rw [hextra p hp]
    exact Bool.false_ne_true
  rw [List.filter_append, hnil, List.append_nil, h]

/-- A part of an entry that does not meet `e`. -/
theorem Piece.notMeeting (h : Piece x p) (hx : x.vma ≠ 0) (hno : Meeting e x = false) : Meeting e p = false := by
  refine decide_eq_false fun hp => ?_
  have hlo := h.lo
  have hhi := h.hi
  obtain ⟨-, hbelow, habove⟩ := hp
  have hx' : Meeting e x = true := meeting_iff.mpr ⟨hx, by omega, by omega⟩
  rw [hno] at hx'
  cases hx'

/-! `eliminate_overlaps`. -/

variable {debug : Bool} {keepIdx : Nat}

/-- The entry that is split meets the kept one, so it is not the one that nothing else meets. -/
theorem eliminateStep_kept {st st' : Elimination} (hsane : Sane st.entries) (hkeep : keep.Sound)
    (hkeepIdx : st.entries[keepIdx]? = some keep) (hstands : ∀ x, st.entries[i]? = some x → x.vma ≠ 0)
    (h : eliminateStep debug keepIdx keep st i = some st') (hkept : Kept e st.entries) : Kept e st'.entries := by
  rw [eliminateStep] at h
  split_ifs at h with hi
  · cases h
    exact hkept
  · split at h
    · cases h
    · next x hx =>
      have hne := hstands x hx
      have hsound := hsane x (List.mem_of_getElem? hx) hne
      by_cases hassert : debug = true ∧ ¬(x.vma ≤ x.endAddr ∧ keep.vma ≤ keep.endAddr)
      · rw [if_pos hassert] at h
        cases h
      rw [if_neg hassert] at h
      by_cases hover : x.vma < keep.endAddr ∧ keep.vma < x.endAddr
      · rw [if_pos hover] at h
        obtain rfl := Option.some.inj h
        have hno : Meeting e x = false := by
          by_contra hmeets
          rw [Bool.not_eq_false] at hmeets
          have himage := hkept.image (List.mem_of_getElem? hx) hmeets
          obtain ⟨hover, hover'⟩ := hover
          rw [UInt64.lt_iff_toNat_lt, hkeep.endAddr] at hover
          rw [UInt64.lt_iff_toNat_lt, hsound.endAddr] at hover'
          have hlo := lo_of_image himage
          have hhi := hi_of_image himage
          change x.lo < keep.hi at hover
          change keep.lo < x.hi at hover'
          have halone := hkept.alone hx hmeets hkeepIdx (Ne.symm hi)
          rw [meeting_iff.mpr ⟨hkeep.nonzero, by omega, by omega⟩] at halone
          cases halone
        refine (hkept.set hx ?_ fun hmeets => ?_).append fun p hp => ?_
        · rw [hno]
          by_cases hleft : (splitLeft x keep).vma = 0
          · exact decide_eq_false fun hp => hp.1 hleft
          · exact (splitLeft_piece hsound hover.2 hleft).2.notMeeting hne hno
        · rw [hno] at hmeets
          cases hmeets
        · exact (splitRight_piece hsound hover.1 hp).2.notMeeting hne hno
      · rw [if_neg hover] at h
        obtain rfl := Option.some.inj h
        exact hkept

theorem eliminateLoop_kept (n : Nat) {st st' : Elimination} (hsane : Sane st.entries)
    (hkeep : keep.Sound) (hkeepIdx : st.entries[keepIdx]? = some keep)
    (hstands : ∀ k, i ≤ k → k < i + n → ∃ x, st.entries[k]? = some x ∧ x.vma ≠ 0)
    (h : (List.range' i n).foldlM (eliminateStep debug keepIdx keep) st = some st') (hkept : Kept e st.entries) :
    Kept e st'.entries := by
  have hrun := Loops.invariant (I := fun j t => Reworks i j st.entries t.entries ∧
    t.entries[keepIdx]? = some keep ∧ Kept e t.entries) n ⟨Reworks.refl hsane, hkeepIdx, hkept⟩ ?_ h
  · exact hrun.2.2
  · rintro j t t' hle hlt ⟨hreworks, hidx, hkept'⟩ hstep
    obtain ⟨x, hx, hne⟩ := hstands j hle hlt
    have hfound : t.entries[j]? = some x :=
      (hreworks.frame j (List.getElem?_eq_some_iff.mp hx).1 (Or.inr (Nat.le_refl j))).trans hx
    have hmet : ∀ y, t.entries[j]? = some y → y.vma ≠ 0 :=
      fun y hy => Option.some.inj (hfound.symm.trans hy) ▸ hne
    obtain ⟨hone, hidx'⟩ := eliminateStep_reworks hreworks.sane hkeep hidx hmet hstep
    refine ⟨(hreworks.mono (Nat.le_refl i) (Nat.le_succ j)).trans (hone.mono hle (Nat.le_refl _)), hidx', ?_⟩
    exact eliminateStep_kept hreworks.sane hkeep hidx hmet hstep hkept'

theorem handleOverlapRegion_kept {startIdx endIdx : Nat} (hsane : Sane es)
    (hstands : ∀ k, startIdx ≤ k → k < endIdx + 1 → ∃ x, es[k]? = some x ∧ x.vma ≠ 0)
    (h : handleOverlapRegion debug startIdx endIdx es = some es') (hkept : Kept e es) : Kept e es' := by
  rw [handleOverlapRegion] at h
  obtain ⟨idx, hidx, h⟩ := Option.bind_eq_some_iff.mp h
  obtain ⟨keep, hkeepIdx, h⟩ := Option.bind_eq_some_iff.mp h
  obtain ⟨⟨es₁, totaltime⟩, helim, h⟩ := Option.bind_eq_some_iff.mp h
  obtain ⟨hlo, hhi⟩ := selectOne_within hidx
  obtain ⟨x, hx, hne⟩ := hstands idx hlo hhi
  obtain rfl : x = keep := Option.some.inj (hx.symm.trans hkeepIdx)
  have hkeep := hsane x (List.mem_of_getElem? hx) hne
  obtain ⟨st, hloop, hst⟩ := Option.map_eq_some_iff.mp helim
  have hkept₁ := eliminateLoop_kept (endIdx + 1 - startIdx) hsane hkeep hkeepIdx
    (fun k hk hk' => hstands k hk (by omega)) hloop hkept
  cases hst
  by_cases hmax : st.maxEnd - st.minStart = UInt64.ofNat (2 ^ 64 - 1)
  · simp only [if_pos hmax] at h
    cases h
  simp only [if_neg hmax] at h
  obtain ⟨y, hy, h⟩ := Option.bind_eq_some_iff.mp h
  obtain rfl := Option.some.inj h
  exact hkept₁.set hy rfl fun _ => rfl

/-! The scans. -/

theorem closeRegion_kept {last : Nat} {st st' : Scan} (hsound : ∀ x ∈ es, x.Sound) (hscan : Scanning es (last + 1) st)
    (hlast : last < es.length) (h : closeRegion debug last st = some st') (hkept : Kept e st.entries) :
    Kept e st'.entries := by
  rw [closeRegion] at h
  split_ifs at h with hi
  · obtain ⟨entries, hregion, rfl⟩ := Option.map_eq_some_iff.mp h
    refine handleOverlapRegion_kept hscan.refines.sane (fun k hlo hhi => ?_) hregion hkept
    have hk : k < es.length := by omega
    refine ⟨es[k], ?_, (hsound _ (List.getElem_mem hk)).nonzero⟩
    rw [hscan.ahead k hk hlo, List.getElem?_eq_getElem hk]
  · obtain rfl := Option.some.inj h
    exact hkept

theorem Scanning.setEndAddr {st : Scan} {last : Nat} (endAddr : UInt64) (hscan : Scanning es (last + 1) st)
    (hends : ∀ k < last, ∀ x, es[k]? = some x → x.endAddr ≤ endAddr) :
    Scanning es (last + 1) { st with endAddr := endAddr } :=
  ⟨hscan.refines, hscan.grows, hscan.behind, hscan.ahead, hscan.same, hends, hscan.apart⟩

theorem scanStep_kept {st st' : Scan} (hsound : ∀ x ∈ es, x.Sound) (hscan : Scanning es j st) (hj : 1 ≤ j)
    (hlt : j < es.length) (h : scanStep debug st j = some st') (hkept : Kept e st.entries) : Kept e st'.entries := by
  obtain ⟨last, rfl⟩ : ∃ last, j = last + 1 := ⟨j - 1, by omega⟩
  rw [scanStep] at h
  obtain ⟨a, ha, h⟩ := Option.bind_eq_some_iff.mp h
  obtain ⟨b, hb, h⟩ := Option.bind_eq_some_iff.mp h
  generalize hend : (if st.endAddr < a.endAddr then a.endAddr else st.endAddr) = endAddr at h
  have hle : st.endAddr ≤ endAddr := by
    rw [← hend]
    split_ifs with hless
    · exact UInt64.le_of_lt hless
    · exact UInt64.le_refl _
  have hscan' := hscan.setEndAddr endAddr
    fun k hk x hx => UInt64.le_trans (hscan.endAddr k hk x hx) hle
  by_cases hgap : endAddr ≤ b.vma
  · simp only [if_pos hgap] at h
    obtain ⟨st₁, hclose, rfl⟩ := Option.map_eq_some_iff.mp h
    have hkept₁ := closeRegion_kept hsound hscan' (by omega) hclose hkept
    exact hkept₁
  · simp only [if_neg hgap] at h
    obtain rfl := Option.some.inj h
    exact hkept

theorem scanOverlaps_kept {flag : Bool} (hsound : ∀ x ∈ es, x.Sound) (h : scanOverlaps debug es = some (es', flag))
    (hkept : Kept e es) : Kept e es' := by
  rcases scanOverlaps_rounds h with ⟨rfl, -, -⟩ | ⟨first, rest, st, st', rfl, hloop, hclose, rfl, rfl⟩
  · obtain ⟨p, hp, -⟩ := hkept.exists
    cases hp
  · obtain ⟨hscan, hkept₁⟩ := Loops.invariant (I := fun j t => Scanning (first :: rest) j t ∧ Kept e t.entries)
      rest.length ⟨scanning_start hsound, hkept⟩ (by
        rintro j t t' hj hj' ⟨hscan, hkept⟩ hstep
        have hlt : j < (first :: rest).length := by rw [List.length_cons]; omega
        exact ⟨scanStep_scanning hsound hscan hj hlt hstep, scanStep_kept hsound hscan hj hlt hstep hkept⟩) hloop
    rw [Nat.add_comm] at hscan
    exact closeRegion_kept hsound hscan (Nat.lt_succ_self _) hclose hkept₁

theorem resortAddress_kept (sorts : Sorts) (hkept : Kept e es) : Kept e (resortAddress sorts es) := by
  have hsorted := hkept.perm (sorts.address.perm es)
  rw [Kept, ← List.takeWhile_append_dropWhile (p := fun x : JitEntry => decide (x.vma = 0)) (l := sorts.address.sort es),
    List.filter_append] at hsorted
  have hnil : ((sorts.address.sort es).takeWhile fun x => decide (x.vma = 0)).filter (Meeting e) = [] := by
    refine List.filter_eq_nil_iff.mpr fun x hx hmeets => ?_
    have hzero := List.mem_takeWhile_imp hx
    exact (meeting_iff.mp hmeets).1 (of_decide_eq_true hzero)
  rw [hnil, List.nil_append] at hsorted
  exact hsorted

theorem rescan_kept {sorts : Sorts} {fuel : Nat} {again : Bool} (hsound : ∀ x ∈ es, x.Sound)
    (h : rescan sorts debug fuel es = some (es', again)) (hkept : Kept e es) : Kept e es' := by
  induction fuel generalizing es es' again with
  | zero => cases h
  | succ fuel ih =>
    rw [rescan] at h
    split at h
    · cases h
    · next found hscan =>
      cases h
      exact scanOverlaps_kept hsound hscan hkept
    · next found hscan =>
      obtain ⟨⟨es₁, again₁⟩, hrec, hpair⟩ := Option.map_eq_some_iff.mp h
      cases hpair
      obtain ⟨hrefines, -⟩ := scanOverlaps_refines hsound hscan
      obtain ⟨-, hsound', -⟩ := resortAddress_refines sorts hrefines.sane
      exact ih hsound' hrec (resortAddress_kept sorts (scanOverlaps_kept hsound hscan hkept))

/-- The entries that are not invalidated at the start are the ones that count. -/
theorem invalidated_meeting (startTime : UInt64) (e : JitEntry) (es : List JitEntry) :
    ((es.map fun x => if x.lifeEnd < startTime then invalidateEntry x else x).filter (Meeting e)) =
      (es.filter fun x => startTime ≤ x.lifeEnd).filter (Meeting e) := by
  induction es with
  | nil => rfl
  | cons x es ih =>
    rw [List.map_cons]
    by_cases hearly : x.lifeEnd < startTime
    · have hinvalid : Meeting e (invalidateEntry x) = false := decide_eq_false fun h => h.1 rfl
      rw [if_pos hearly, List.filter_cons_of_neg (by rw [hinvalid]; exact Bool.false_ne_true),
        List.filter_cons_of_neg (by simpa using hearly), ih]
    · have halive : decide (startTime ≤ x.lifeEnd) = true := decide_eq_true (UInt64.not_lt.mp hearly)
      rw [if_neg hearly, List.filter_cons,
        List.filter_cons_of_pos (p := fun x : JitEntry => decide (startTime ≤ x.lifeEnd)) halive, List.filter_cons, ih]

theorem invalidateEarlybirds_kept {sorts : Sorts} {startTime : UInt64} {entries : List JitEntry} {arrays : Arrays}
    (harrays : createArrays sorts entries = some arrays)
    (hkept : Kept e (entries.filter fun x => startTime ≤ x.lifeEnd)) :
    Kept e (invalidateEarlybirds sorts startTime arrays).addressAscending := by
  rw [createArrays] at harrays
  split_ifs at harrays
  obtain rfl := Option.some.inj harrays
  have hperm := sorts.address.perm entries
  have hsorted := hkept.perm (hperm.filter fun x => decide (startTime ≤ x.lifeEnd))
  rw [Kept, ← invalidated_meeting] at hsorted
  rw [invalidateEarlybirds]
  split_ifs with hearly
  · exact resortAddress_kept sorts hsorted
  · have hsame : (sorts.address.sort entries).map (fun x => if x.lifeEnd < startTime then invalidateEntry x else x) =
        sorts.address.sort entries := by
      conv_rhs => rw [← List.map_id (sorts.address.sort entries)]
      refine List.map_congr_left fun x hx => if_neg fun hlife => hearly ⟨x, hx, hlife⟩
    rw [hsame] at hsorted
    exact hsorted

/-- One entry of a list that is alive at the start, and met by no other one that is. -/
theorem kept_of_alone {startTime : UInt64} {pre post : List JitEntry} (hmeets : Meeting e e = true)
    (halive : startTime ≤ e.lifeEnd)
    (halone : ∀ x ∈ pre ++ post, startTime ≤ x.lifeEnd → Meeting e x = false) :
    Kept e ((pre ++ e :: post).filter fun x => startTime ≤ x.lifeEnd) := by
  have hnone : ∀ l : List JitEntry, (∀ x ∈ l, startTime ≤ x.lifeEnd → Meeting e x = false) →
      (l.filter fun x => startTime ≤ x.lifeEnd).filter (Meeting e) = [] := by
    intro l hl
    refine List.filter_eq_nil_iff.mpr fun x hx => ?_
    obtain ⟨hx, hlife⟩ := List.mem_filter.mp hx
    rw [hl x hx (of_decide_eq_true hlife)]
    exact Bool.false_ne_true
  rw [Kept, List.filter_append,
    List.filter_cons_of_pos (p := fun x : JitEntry => decide (startTime ≤ x.lifeEnd)) (decide_eq_true halive),
    List.filter_append, List.filter_cons_of_pos hmeets, hnone pre fun x hx => halone x (List.mem_append_left _ hx),
    hnone post fun x hx => halone x (List.mem_append_right _ hx)]
  rfl

end Oprofile.Opjitconv
