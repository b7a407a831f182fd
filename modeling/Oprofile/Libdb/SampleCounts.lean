import Oprofile.Libdb.Mapped
import Oprofile.Libdb.Sequences

/-! Whether the count of a key can go backwards. The overflow test of an update is made in the width of
`unsigned long`, the addition in 32 bits. -/
namespace Oprofile.Libdb

open ByteMem IndexChain Tally

inductive DataModel
  | ilp32
  | lp64

/-- The bits of an `unsigned long`. -/
def DataModel.longBits : DataModel → Nat
  | .ilp32 => 32
  | .lp64 => 64

variable {m : DataModel} {d d' : OdbData} {v : Nat} {key : UInt64}

/-- `odb_update_node_with_offset` with an `unsigned long` of either width. -/
def odbUpdateNodeWithLong (m : DataModel) (io : GrowOutcome) (d : OdbData) (key : UInt64)
    (offset : BitVec m.longBits) : Option (Nat × OdbData) :=
  let index := d.bucket (odbDoHash d key.toNat)
  match walk d.next (fun i => d.key i == key.toNat) walkFuel index with
  | none => none
  | some 0 => some (addNode io d key.toNat (offset.toNat % 2 ^ 32))
  | some (i + 1) =>
    if (d.value (i + 1) + offset.toNat) % 2 ^ m.longBits ≠ 0 then
      some (0, d.setValue (i + 1) ((d.value (i + 1) + offset.toNat) % 2 ^ 32))
    else some (0, d)

/-- The count the store holds for a key. -/
def storedCount (d : OdbData) (key : UInt64) : Option Nat := find key.toNat (odbEntries d)

theorem Kept.nodup (h : Kept d) : ((odbEntries d).map Prod.fst).Nodup :=
  odbEntries_nodup (d := d.mapped) h.rep

theorem storedCount_lt (h : Kept d) (hc : storedCount d key = some v) : v < 2 ^ 32 := by
  have hmem := (mem_iff_find h.nodup).mpr hc
  simp only [odbEntries, odbGetIterator, List.mem_map] at hmem
  obtain ⟨pos, -, heq⟩ := hmem
  have hv : d.value (1 + pos) = v := congrArg Prod.snd heq
  rw [← hv]
  exact get32_lt _ _

/-- The walk of an update stops at the node of a key that is stored. -/
theorem walk_stored (h : Kept d) (hc : storedCount d key = some v) :
    ∃ i, i + 1 < d.currentSize ∧ (odbEntries d)[i]? = some (key.toNat, v) ∧ d.value (i + 1) = v ∧
      walk d.next (fun i => d.key i == key.toNat) walkFuel (d.bucket (odbDoHash d key.toNat)) = some (i + 1) := by
  have hmem := (mem_iff_find h.nodup).mpr hc
  rcases walk_key h.rep key.toNat with ⟨i, hi, hic, hki, hw⟩ | ⟨hnew, -⟩
  · obtain ⟨i, rfl⟩ := Nat.exists_eq_succ_of_ne_zero (Nat.pos_iff_ne_zero.mp hi)
    have hent : (odbEntries d)[i]? = some (d.key (i + 1), d.value (i + 1)) := odbEntries_getElem? hic
    have hkey : d.key (i + 1) = key.toNat := hki
    rw [hkey] at hent
    have hval : some (d.value (i + 1)) = some v :=
      ((mem_iff_find h.nodup).mp (List.mem_of_getElem? hent)).symm.trans hc
    obtain rfl := Option.some.inj hval
    exact ⟨i, hic, hent, rfl, hw⟩
  · obtain ⟨i, hi, hic, hki⟩ := (mem_odbEntries_keys (d := d)).mp (List.mem_map_of_mem (f := Prod.fst) hmem)
    exact absurd hki (hnew i hi hic)

theorem walk_absent (h : Kept d) (hc : storedCount d key = none) :
    (∀ i, 0 < i → i < d.currentSize → d.key i ≠ key.toNat) ∧
      walk d.next (fun i => d.key i == key.toNat) walkFuel (d.bucket (odbDoHash d key.toNat)) = some 0 := by
  rcases walk_key h.rep key.toNat with ⟨i, hi, hic, hki, -⟩ | hnew
  · exact absurd ((mem_odbEntries_keys (d := d)).mpr ⟨i, hi, hic, hki⟩) (find_eq_none_iff.mp hc)
  · exact hnew

/-! What one update does to the counts. -/

/-- The count that an update of a node leaves in it. -/
def bumpLong (m : DataModel) (value offset : Nat) : Nat :=
  if (value + offset) % 2 ^ m.longBits ≠ 0 then (value + offset) % 2 ^ 32 else value

theorem update_stored (h : Kept d) (hc : storedCount d key = some v) (io : GrowOutcome)
    (offset : BitVec m.longBits) :
    ∃ d', odbUpdateNodeWithLong m io d key offset = some (0, d') ∧ Kept d' ∧ ∀ k,
      storedCount d' k = if k = key then some (bumpLong m v offset.toNat) else storedCount d k := by
  obtain ⟨i, hic, hent, hval, hw⟩ := walk_stored h hc
  have hset : ∀ w l, odbEntries l = (odbEntries d).set i (key.toNat, w) → ∀ k,
      storedCount l k = if k = key then some w else storedCount d k := by
    intro w l hl k
    have hup : upsert key.toNat (fun _ => w) 0 (odbEntries d) = (odbEntries d).set i (key.toNat, w) :=
      upsert_eq_set h.nodup hent
    rw [storedCount, hl, ← hup, find_upsert, show find key.toNat (odbEntries d) = some v from hc]
    simp only [UInt64.toNat_inj]
    rfl
  simp only [odbUpdateNodeWithLong, hw, hval]
  rw [bumpLong]
  by_cases hov : (v + offset.toNat) % 2 ^ m.longBits ≠ 0
  · obtain ⟨hkept, hentries⟩ := setValue_kept (v := (v + offset.toNat) % 2 ^ 32) h hic
    have hkey : d.key (i + 1) = key.toNat := by
      have hent' := odbEntries_getElem? hic
      rw [hent] at hent'
      exact (congrArg Prod.fst (Option.some.inj hent')).symm
    rw [Nat.mod_mod, hkey] at hentries
    rw [if_pos hov, if_pos hov]
    exact ⟨_, rfl, hkept, hset _ _ hentries⟩
  · rw [if_neg hov, if_neg hov]
    refine ⟨d, rfl, h, hset v d ?_⟩
    obtain ⟨hlt, hget⟩ := List.getElem?_eq_some_iff.mp hent
    rw [← hget, List.set_getElem_self]

theorem update_absent (h : Kept d) (hc : storedCount d key = none) (io : GrowOutcome)
    (offset : BitVec m.longBits)
    (hgrow : d.size ≤ d.currentSize → io ≠ .ftruncateFails → CanGrow d) :
    ∃ status d', odbUpdateNodeWithLong m io d key offset = some (status, d') ∧ Kept d' ∧ ∀ k,
      storedCount d' k = if k = key ∧ ¬(d.size ≤ d.currentSize ∧ io ≠ .ok) then some (offset.toNat % 2 ^ 32)
        else storedCount d k := by
  obtain ⟨hnew, hw⟩ := walk_absent h hc
  have hk : key.toNat < 2 ^ 64 := key.toNat_lt
  obtain ⟨hkept, hent⟩ := addNode_kept (v := offset.toNat % 2 ^ 32) h io hk hnew hgrow
  refine ⟨(addNode io d key.toNat (offset.toNat % 2 ^ 32)).1, _, by simp only [odbUpdateNodeWithLong, hw], hkept, ?_⟩
  intro k
  by_cases hfails : d.size ≤ d.currentSize ∧ io ≠ .ok
  · rw [if_pos hfails] at hent
    rw [if_neg (fun hn => hn.2 hfails), storedCount, hent]
    rfl
  · rw [if_neg hfails, Nat.mod_mod, ← upsert_of_not_mem (f := id) (find_eq_none_iff.mp hc)] at hent
    rw [storedCount, hent, find_upsert, show find key.toNat (odbEntries d) = none from hc]
    simp only [UInt64.toNat_inj, hfails, not_false_eq_true, and_true]
    rfl

/-! What a count should be after an update, and when it is. -/

/-- The sum, or the old count where the sum has no room in 32 bits. -/
def countAfter (value offset : Nat) : Nat :=
  if value + offset < 2 ^ 32 then value + offset else value

/-- The overflow test stops the addition, or the addition is exact or changes nothing. -/
def GuardHolds (m : DataModel) (value offset : Nat) : Prop :=
  value + offset < 2 ^ 32 ∨ (value + offset) % 2 ^ m.longBits = 0 ∨ offset % 2 ^ 32 = 0

theorem bumpLong_eq_iff {offset : Nat} (hv : v < 2 ^ 32) :
    bumpLong m v offset = countAfter v offset ↔ GuardHolds m v offset := by
  have hbits : 2 ^ 32 ≤ 2 ^ m.longBits := by cases m <;> decide
  unfold bumpLong countAfter GuardHolds
  by_cases hfit : v + offset < 2 ^ 32
  · have hsum : (v + offset) % 2 ^ m.longBits = v + offset := Nat.mod_eq_of_lt (by omega)
    rw [hsum, if_pos hfit, Nat.mod_eq_of_lt hfit]
    refine ⟨fun _ => Or.inl hfit, fun _ => ?_⟩
    split
    · rfl
    · omega
  · rw [if_neg hfit]
    by_cases hz : (v + offset) % 2 ^ m.longBits = 0
    · rw [if_neg (not_not.mpr hz)]
      exact ⟨fun _ => Or.inr (Or.inl hz), fun _ => rfl⟩
    · rw [if_pos hz]
      constructor
      · intro he
        exact Or.inr (Or.inr (by omega))
      · rintro (hlt | hzero | hmul)
        · exact absurd hlt hfit
        · exact absurd hzero hz
        · omega

/-! Runs of updates. -/

/-- A call, and what the system answers if it has to grow the table. -/
structure Update (m : DataModel) where
  grow : GrowOutcome
  key : UInt64
  offset : BitVec m.longBits

def Update.apply (u : Update m) (d : OdbData) : Option OdbData :=
  (odbUpdateNodeWithLong m u.grow d u.key u.offset).map Prod.snd

def runUpdates (us : List (Update m)) (d : OdbData) : Option OdbData :=
  us.foldlM (fun d u => u.apply d) d

/-- The condition on an update of a store: of a stored key, that the overflow test is good for its count; of a
new key, that its offset has 32 bits, unless the growth for it fails, and that no file length is past 32 bits. -/
def Update.Meets (u : Update m) (d : OdbData) : Prop :=
  match storedCount d u.key with
  | some value => GuardHolds m value u.offset.toNat
  | none =>
    (d.size ≤ d.currentSize → u.grow ≠ .ftruncateFails → CanGrow d) ∧
      (u.offset.toNat < 2 ^ 32 ∨ d.size ≤ d.currentSize ∧ u.grow ≠ .ok)

/-- Every update of the run meets the condition in the state it finds. -/
def AllMeet (us : List (Update m)) (d : OdbData) : Prop :=
  ∀ xs u ys, us = xs ++ u :: ys → ∀ d₁, runUpdates xs d = some d₁ → u.Meets d₁

/-- How the count of the key of an update moves: a stored count becomes the sum if that fits and stays
otherwise; a new key gets its offset, or does not get in. -/
def CountMoves (before : Option Nat) (offset : Nat) (after : Option Nat) : Prop :=
  match before with
  | some value => after = some (countAfter value offset)
  | none => after = none ∨ after = some offset

/-- What a run from a store should do to the counts, between any two of its states. -/
structure CountsKept (us : List (Update m)) (d : OdbData) : Prop where
  returns : ∃ d', runUpdates us d = some d'
  exactStep : ∀ xs u ys, us = xs ++ u :: ys → ∃ d₁ d₂, runUpdates xs d = some d₁ ∧ u.apply d₁ = some d₂ ∧
    CountMoves (storedCount d₁ u.key) u.offset.toNat (storedCount d₂ u.key) ∧
    ∀ key, key ≠ u.key → storedCount d₂ key = storedCount d₁ key
  neverBackwards : ∀ xs ys zs, us = xs ++ ys ++ zs → ∀ d₁ d₂, runUpdates xs d = some d₁ →
    runUpdates ys d₁ = some d₂ → ∀ key v, storedCount d₁ key = some v →
    ∃ v', storedCount d₂ key = some v' ∧ v ≤ v'

theorem runUpdates_append {xs ys : List (Update m)} :
    runUpdates (xs ++ ys) d = (runUpdates xs d).bind (runUpdates ys) := by
  simp only [runUpdates, List.foldlM_append]
  rfl

theorem runUpdates_cons {u : Update m} {us : List (Update m)} :
    runUpdates (u :: us) d = (u.apply d).bind (runUpdates us) := rfl

/-- One update that meets the condition. -/
theorem Update.Meets.step {u : Update m} (h : Kept d) (hu : u.Meets d) :
    ∃ d', u.apply d = some d' ∧ Kept d' ∧
      CountMoves (storedCount d u.key) u.offset.toNat (storedCount d' u.key) ∧
      ∀ key, key ≠ u.key → storedCount d' key = storedCount d key := by
  unfold Update.Meets at hu
  cases hc : storedCount d u.key with
  | some v =>
    rw [hc] at hu
    obtain ⟨d', hd', hkept, hcount⟩ := update_stored h hc u.grow u.offset
    refine ⟨d', by rw [Update.apply, hd']; rfl, hkept, ?_, ?_⟩
    · rw [CountMoves, hcount, if_pos rfl, (bumpLong_eq_iff (storedCount_lt h hc)).mpr hu]
    · intro key hne
      rw [hcount, if_neg hne]
  | none =>
    rw [hc] at hu
    obtain ⟨status, d', hd', hkept, hcount⟩ := update_absent h hc u.grow u.offset hu.1
    refine ⟨d', by rw [Update.apply, hd']; rfl, hkept, ?_, ?_⟩
    · rw [CountMoves, hcount]
      by_cases hfails : d.size ≤ d.currentSize ∧ u.grow ≠ .ok
      · rw [if_neg (fun hn => hn.2 hfails), hc]
        exact Or.inl rfl
      · rw [if_pos ⟨rfl, hfails⟩, Nat.mod_eq_of_lt (hu.2.resolve_right hfails)]
        exact Or.inr rfl
    · intro key hne
      rw [hcount, if_neg (fun hn => hne hn.1)]

theorem AllMeet.tail {u : Update m} {us : List (Update m)} (h : AllMeet (u :: us) d) (hd : u.apply d = some d') :
    AllMeet us d' := by
  rintro xs w ys rfl d₁ hd₁
  apply h (u :: xs) w ys rfl
  rw [runUpdates_cons, hd]
  exact hd₁

theorem AllMeet.front {xs ys : List (Update m)} (h : AllMeet (xs ++ ys) d) : AllMeet xs d := by
  rintro as w bs rfl d₁ hd₁
  exact h as w (bs ++ ys) (by simp) d₁ hd₁

theorem AllMeet.back {xs ys : List (Update m)} (h : AllMeet (xs ++ ys) d) (hd : runUpdates xs d = some d') :
    AllMeet ys d' := by
  rintro as w bs rfl d₁ hd₁
  apply h (xs ++ as) w bs (by simp)
  rw [runUpdates_append, hd]
  exact hd₁

theorem CountMoves.le {before after : Option Nat} {offset : Nat} (h : CountMoves before offset after)
    (hb : before = some v) : ∃ v', after = some v' ∧ v ≤ v' := by
  subst hb
  refine ⟨_, h, ?_⟩
  unfold countAfter
  split_ifs <;> omega

/-- The run: the invariant, and every stored count at least what it was. -/
theorem AllMeet.run {us : List (Update m)} (h : Kept d) (hm : AllMeet us d) :
    ∃ d', runUpdates us d = some d' ∧ Kept d' ∧
      ∀ key v, storedCount d key = some v → ∃ v', storedCount d' key = some v' ∧ v ≤ v' := by
  induction us generalizing d with
  | nil => exact ⟨d, rfl, h, fun key v hv => ⟨v, hv, le_rfl⟩⟩
  | cons u us ih =>
    have hu : u.Meets d := hm [] u us rfl d rfl
    obtain ⟨d₁, hd₁, hkept, hmoves, hother⟩ := hu.step h
    obtain ⟨d₂, hd₂, hkept₂, hle₂⟩ := ih hkept (hm.tail hd₁)
    refine ⟨d₂, by rw [runUpdates_cons, hd₁]; exact hd₂, hkept₂, ?_⟩
    intro key v hv
    by_cases hkey : key = u.key
    · subst hkey
      obtain ⟨v₁, hv₁, hle₁⟩ := hmoves.le hv
      obtain ⟨v₂, hv₂, hle₂⟩ := hle₂ _ _ hv₁
      exact ⟨v₂, hv₂, le_trans hle₁ hle₂⟩
    · exact hle₂ _ _ ((hother key hkey).trans hv)

theorem AllMeet.kept {us : List (Update m)} (h : Kept d) (hm : AllMeet us d) : CountsKept us d := by
  refine ⟨?_, ?_, ?_⟩
  · obtain ⟨d', hd', -⟩ := hm.run h
    exact ⟨d', hd'⟩
  · rintro xs u ys rfl
    obtain ⟨d₁, hd₁, hkept, -⟩ := hm.front.run h
    obtain ⟨d₂, hd₂, -, hmoves⟩ := (hm xs u ys rfl d₁ hd₁).step hkept
    exact ⟨d₁, d₂, hd₁, hd₂, hmoves⟩
  · rintro xs ys zs rfl d₁ d₂ hd₁ hd₂
    obtain ⟨d₁', hd₁', hkept, -⟩ := hm.front.front.run h
    obtain rfl := Option.some.inj (hd₁'.symm.trans hd₁)
    obtain ⟨d₂', hd₂', -, hle⟩ := (hm.front.back hd₁).run hkept
    obtain rfl := Option.some.inj (hd₂'.symm.trans hd₂)
    exact hle

/-- Of a stored key the count after an update is the sum if that fits and else the old count, if and only if
the overflow test is good for it; and a run whose updates all meet the condition keeps the counts. -/
theorem sampleCounts_kept_iff (m : DataModel) (d : OdbData) (h : Kept d) :
    (∀ io key (offset : BitVec m.longBits) value, storedCount d key = some value →
      ∃ d', odbUpdateNodeWithLong m io d key offset = some (0, d') ∧
        (storedCount d' key = some (countAfter value offset.toNat) ↔ GuardHolds m value offset.toNat)) ∧
    ∀ us : List (Update m), AllMeet us d → CountsKept us d := by
  constructor
  · intro io key offset value hc
    obtain ⟨d', hd', -, hcount⟩ := update_stored h hc io offset
    refine ⟨d', hd', ?_⟩
    rw [hcount, if_pos rfl, Option.some.injEq]
    exact bumpLong_eq_iff (storedCount_lt h hc)
  · intro us hm
    exact hm.kept h

theorem storedCount_new {sizeofHeader : Nat} (h : sizeofHeader + sizeofDescr + defaultNodeNr * 20 < 2 ^ 32)
    (key : UInt64) : storedCount (odbOpenNew sizeofHeader) key = none := by
  obtain ⟨-, hc, -⟩ := odbOpenNew_size h
  have hnil : odbEntries (odbOpenNew sizeofHeader) = [] :=
    List.eq_nil_of_length_eq_zero (by rw [odbEntries_length, hc])
  rw [storedCount, hnil]
  rfl

/-- The first update of a new file. -/
theorem first_update {sizeofHeader : Nat} (h : sizeofHeader + sizeofDescr + defaultNodeNr * 20 < 2 ^ 32)
    (u : Update m) : ∃ d, u.apply (odbOpenNew sizeofHeader) = some d ∧ Kept d ∧
      storedCount d u.key = some (u.offset.toNat % 2 ^ 32) := by
  obtain ⟨hs, hc, -⟩ := odbOpenNew_size h
  have hfree : ¬(odbOpenNew sizeofHeader).size ≤ (odbOpenNew sizeofHeader).currentSize := by omega
  obtain ⟨status, d, hd, hkept, hcount⟩ := update_absent (odbOpenNew_rep h).kept (storedCount_new h u.key)
    u.grow u.offset (fun hfull => absurd hfull hfree)
  refine ⟨d, by rw [Update.apply, hd]; rfl, hkept, ?_⟩
  rw [hcount, if_pos ⟨rfl, fun hn => hfree hn.1⟩]

/-- A count of 5 and an offset that takes the sum to 2^64: the test stops it. -/
theorem sampleCounts_kept_iff_stopped :
    CountsKept (m := .lp64) [⟨.ok, 7, 5⟩, ⟨.ok, 7, 0xfffffffffffffffb⟩] (odbOpenNew 40) := by
  have hlim : 40 + sizeofDescr + defaultNodeNr * 20 < 2 ^ 32 := by decide
  refine (sampleCounts_kept_iff .lp64 _ (odbOpenNew_rep hlim).kept).2 _ ?_
  intro xs u ys hsplit d₁ hd₁
  obtain ⟨hs, hc, -⟩ := odbOpenNew_size hlim
  rcases xs with _ | ⟨x, _ | ⟨y, xs⟩⟩
  · obtain ⟨rfl, rfl⟩ := List.cons_eq_cons.mp hsplit
    obtain rfl := Option.some.inj hd₁
    rw [Update.Meets, storedCount_new hlim]
    exact ⟨fun hfull => absurd hfull (by omega), Or.inl (by decide)⟩
  · obtain ⟨rfl, htail⟩ := List.cons_eq_cons.mp hsplit
    obtain ⟨rfl, rfl⟩ := List.cons_eq_cons.mp htail
    obtain ⟨d, hd, -, hcount⟩ := first_update hlim (⟨.ok, 7, 5⟩ : Update .lp64)
    rw [runUpdates_cons, hd] at hd₁
    obtain rfl := Option.some.inj hd₁
    rw [Update.Meets, hcount]
    exact Or.inr (Or.inl (by decide))
  · obtain ⟨-, htail⟩ := List.cons_eq_cons.mp hsplit
    obtain ⟨-, hnil⟩ := List.cons_eq_cons.mp htail
    exact absurd hnil.symm (by simp)

/-- One more sample after 4294967295 of them takes the count of a key to zero. -/
theorem full_count_wraps : ∃ d d', (⟨.ok, 7, 0xffffffff⟩ : Update .lp64).apply (odbOpenNew 40) = some d ∧
    storedCount d 7 = some 0xffffffff ∧ odbUpdateNode .ok d 7 = some (0, d') ∧ storedCount d' 7 = some 0 := by
  have hlim : 40 + sizeofDescr + defaultNodeNr * 20 < 2 ^ 32 := by decide
  obtain ⟨d, hd, hkept, hcount⟩ := first_update hlim (⟨.ok, 7, 0xffffffff⟩ : Update .lp64)
  obtain ⟨d', hd', -, hcount'⟩ := update_stored (m := .lp64) hkept hcount .ok 1
  exact ⟨d, d', hd, hcount, hd', (hcount' 7).trans rfl⟩

end Oprofile.Libdb
