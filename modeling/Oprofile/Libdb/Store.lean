import Oprofile.Library.Tally
import Oprofile.Libdb.Invariant

/-! The store refines a table of counts: one update is one table update. -/
namespace Oprofile.Libdb

open ByteMem IndexChain Tally

variable {d d' : OdbData} {p k v : Nat}

/-- Chains only depend on the nodes below `p`, the buckets and the mask. -/
theorem linked_congr (h : Linked d p) (hs : d'.size = d.size) (hm : d'.hashMask = d.hashMask)
    (hn : ∀ j, j < p → d'.next j = d.next j) (hb : ∀ b, d'.bucket b = d.bucket b)
    (hk : ∀ j, j < p → d'.key j = d.key j) : Linked d' p := by
  intro b hbs
  obtain ⟨xs, hc, hx⟩ := h b (hs ▸ hbs)
  refine ⟨xs, ?_, ?_⟩
  · rw [hb b]
    exact chain_congr hc fun j hj => hn j ((hx j).mp hj).2.1
  · intro i
    rw [hx i]
    constructor
    · rintro ⟨hi, hip, hih⟩
      exact ⟨hi, hip, by rw [hk i hip, odbDoHash_congr hm, hih]⟩
    · rintro ⟨hi, hip, hih⟩
      exact ⟨hi, hip, by rw [← hih, hk i hip, odbDoHash_congr hm]⟩

/-- `add_node` links the node it has filled exactly as the rebuild loop does. -/
theorem addFreeNode_eq (h : Layout d) (hk : k < 2 ^ 64) :
    addFreeNode d k v =
      (odbRelink ((d.setValue d.currentSize v).setKey d.currentSize k)
        d.currentSize).setCurrentSize ((d.currentSize + 1) % 2 ^ 32) := by
  have h1 : Layout (d.setValue d.currentSize v) := h.setValue
  have h2 : Layout ((d.setValue d.currentSize v).setKey d.currentSize k) := h1.setKey
  have hkey : ((d.setValue d.currentSize v).setKey d.currentSize k).key d.currentSize = k :=
    key_setKey_self.trans (Nat.mod_eq_of_lt hk)
  have hcur : (odbRelink ((d.setValue d.currentSize v).setKey d.currentSize k)
      d.currentSize).currentSize = d.currentSize :=
    (odbRelink_frame h2).2.2.1.trans (h1.currentSize_setKey.trans h.currentSize_setValue)
  rw [odbRelink, hkey] at hcur ⊢
  rw [addFreeNode, odbCommitReservation, hcur]

/-- Adding a key while a free node is left. -/
theorem addFreeNode_tables (h : Tables d) (hfree : d.currentSize < d.size) (hk : k < 2 ^ 64) :
    Tables (addFreeNode d k v) ∧ (addFreeNode d k v).size = d.size ∧
      (addFreeNode d k v).currentSize = d.currentSize + 1 ∧
      (addFreeNode d k v).offsetNode = d.offsetNode ∧
      (addFreeNode d k v).key d.currentSize = k ∧
      (addFreeNode d k v).value d.currentSize = v % 2 ^ 32 ∧
      (∀ i, i < d.currentSize → (addFreeNode d k v).key i = d.key i ∧
        (addFreeNode d k v).value i = d.value i) := by
  have hlim := h.layout.limit
  have hpos := h.cur_pos
  rw [addFreeNode_eq h.layout hk]
  have h1 : Layout (d.setValue d.currentSize v) := h.layout.setValue
  have h2 : Layout ((d.setValue d.currentSize v).setKey d.currentSize k) := h1.setKey
  have hs2 := h1.size_setKey (i := d.currentSize) (v := k)
  rw [h.layout.size_setValue] at hs2
  have hc2 := h1.currentSize_setKey (i := d.currentSize) (v := k)
  rw [h.layout.currentSize_setValue] at hc2
  have hlink : Linked ((d.setValue d.currentSize v).setKey d.currentSize k) d.currentSize := by
    refine linked_congr h.linked hs2 rfl ?_ ?_ ?_
    · intro j _
      rw [next_setKey, next_setValue]
    · intro b
      rw [h1.bucket_setKey (by rw [h.layout.size_setValue]; exact hfree),
        h.layout.bucket_setValue hfree]
    · intro j hj
      rw [key_setKey_ne (by omega), key_setValue]
  have hkeyc : ((d.setValue d.currentSize v).setKey d.currentSize k).key d.currentSize = k :=
    key_setKey_self.trans (Nat.mod_eq_of_lt hk)
  have hvalc : ((d.setValue d.currentSize v).setKey d.currentSize k).value d.currentSize =
      v % 2 ^ 32 := by rw [value_setKey, value_setValue_self]
  have hkeyo : ∀ i, i < d.currentSize →
      ((d.setValue d.currentSize v).setKey d.currentSize k).key i = d.key i := by
    intro i hi
    rw [key_setKey_ne (by omega), key_setValue]
  have hvalo : ∀ i, i < d.currentSize →
      ((d.setValue d.currentSize v).setKey d.currentSize k).value i = d.value i := by
    intro i hi
    rw [value_setKey, value_setValue_ne (by omega)]
  have hoff : ((d.setValue d.currentSize v).setKey d.currentSize k).offsetNode = d.offsetNode := rfl
  generalize (d.setValue d.currentSize v).setKey d.currentSize k = e at *
  obtain ⟨h3, hs3, hc3, hk3, hv3⟩ := odbRelink_frame (p := d.currentSize) h2
  have hl3 := linked_relink h2 hlink hpos (by omega)
  have ho3 : (odbRelink e d.currentSize).offsetNode = e.offsetNode := rfl
  generalize odbRelink e d.currentSize = r at *
  have h4 : Layout (r.setCurrentSize ((d.currentSize + 1) % 2 ^ 32)) := h3.setCurrentSize
  have hs4 := Layout.size_setCurrentSize (d := r) (v := (d.currentSize + 1) % 2 ^ 32)
  have hc4 := Layout.currentSize_setCurrentSize (d := r) (v := (d.currentSize + 1) % 2 ^ 32)
  have hcur : (r.setCurrentSize ((d.currentSize + 1) % 2 ^ 32)).currentSize =
      d.currentSize + 1 := by omega
  have hk4 : ∀ i, (r.setCurrentSize ((d.currentSize + 1) % 2 ^ 32)).key i = r.key i :=
    fun _ => h3.key_setCurrentSize
  have hv4 : ∀ i, (r.setCurrentSize ((d.currentSize + 1) % 2 ^ 32)).value i = r.value i :=
    fun _ => h3.value_setCurrentSize
  have hl4 : Linked (r.setCurrentSize ((d.currentSize + 1) % 2 ^ 32)) (d.currentSize + 1) :=
    linked_congr hl3 hs4 rfl (fun _ _ => h3.next_setCurrentSize)
      (fun _ => h3.bucket_setCurrentSize) (fun _ _ => h3.key_setCurrentSize)
  have ho4 : (r.setCurrentSize ((d.currentSize + 1) % 2 ^ 32)).offsetNode = r.offsetNode := rfl
  generalize r.setCurrentSize ((d.currentSize + 1) % 2 ^ 32) = t at *
  have hkey : ∀ i, i < d.currentSize → t.key i = d.key i := by
    intro i hi
    rw [hk4, hk3 i (by omega), hkeyo i hi]
  have hkeyn : t.key d.currentSize = k := by rw [hk4, hk3 _ (by omega), hkeyc]
  refine ⟨⟨h4, by omega, by omega, hcur ▸ hl4⟩, by omega, hcur, ?_, hkeyn, ?_, ?_⟩
  · exact ho4.trans (ho3.trans hoff)
  · rw [hv4, hv3 _ (by omega), hvalc]
  · intro i hi
    exact ⟨hkey i hi, by rw [hv4, hv3 _ (by omega), hvalo i hi]⟩

/-- Adding a key that is not in the store. -/
theorem addFreeNode_rep (h : Rep d) (hfree : d.currentSize < d.size) (hk : k < 2 ^ 64)
    (hnew : ∀ i, 0 < i → i < d.currentSize → d.key i ≠ k) :
    Rep (addFreeNode d k v) ∧ (addFreeNode d k v).size = d.size ∧
      (addFreeNode d k v).currentSize = d.currentSize + 1 ∧
      (addFreeNode d k v).offsetNode = d.offsetNode ∧
      (addFreeNode d k v).key d.currentSize = k ∧
      (addFreeNode d k v).value d.currentSize = v % 2 ^ 32 ∧
      (∀ i, i < d.currentSize → (addFreeNode d k v).key i = d.key i ∧
        (addFreeNode d k v).value i = d.value i) := by
  obtain ⟨ht, hsize, hcur, hoff, hkeyn, hvaln, hold⟩ := addFreeNode_tables (v := v) h.tables hfree hk
  refine ⟨⟨ht.layout, ht.cur_pos, ht.cur_le, ht.linked, ?_⟩, hsize, hcur, hoff, hkeyn, hvaln, hold⟩
  intro i j hi hic hj hjc he
  rw [hcur] at hic hjc
  by_cases hie : i = d.currentSize <;> by_cases hje : j = d.currentSize
  · omega
  · rw [hie, hkeyn, (hold j (by omega)).1] at he
    exact (hnew j hj (by omega) he.symm).elim
  · rw [hje, hkeyn, (hold i (by omega)).1] at he
    exact (hnew i hi (by omega) he).elim
  · rw [(hold i (by omega)).1, (hold j (by omega)).1] at he
    exact h.distinct i j hi (by omega) hj (by omega) he

/-! The walk along a bucket finds the node of the key, or the end of the chain. -/

/-- The walk of an update stops at the node holding the key, and at zero when there is none. -/
theorem walk_key (h : Rep d) (k : Nat) :
    (∃ i, 0 < i ∧ i < d.currentSize ∧ d.key i = k ∧
      walk d.next (fun i => d.key i == k) walkFuel (d.bucket (odbDoHash d k)) = some i) ∨
    ((∀ i, 0 < i → i < d.currentSize → d.key i ≠ k) ∧
      walk d.next (fun i => d.key i == k) walkFuel (d.bucket (odbDoHash d k)) = some 0) := by
  obtain ⟨xs, hc, hx⟩ := h.linked _ (odbDoHash_lt h.layout k)
  have hlen : xs.length < walkFuel :=
    Nat.lt_trans (chain_length_lt hc h.cur_pos fun j hj => ((hx j).mp hj).2.1) (currentSize_lt d)
  have hw := walk_eq (fun i => d.key i == k) hc hlen
  cases hf : xs.find? (fun i => d.key i == k) with
  | none =>
    right
    rw [hf] at hw
    refine ⟨?_, hw⟩
    intro i hi hic he
    have hmem : i ∈ xs := (hx i).mpr ⟨hi, hic, by rw [he]⟩
    have hnone := List.find?_eq_none.mp hf i hmem
    simp [he] at hnone
  | some i =>
    left
    rw [hf] at hw
    obtain ⟨hi, hic, -⟩ := (hx i).mp (List.mem_of_find?_eq_some hf)
    have hki : d.key i = k := by simpa using List.find?_some hf
    exact ⟨i, hi, hic, hki, hw⟩

theorem setValue_rep (h : Rep d) {i : Nat} (hi : i < d.currentSize) :
    Rep (d.setValue i v) ∧ (d.setValue i v).size = d.size ∧
      (d.setValue i v).currentSize = d.currentSize := by
  have hs := h.layout.size_setValue (i := i) (v := v)
  have hc := h.layout.currentSize_setValue (i := i) (v := v)
  have hle := h.cur_le
  refine ⟨⟨h.layout.setValue, ?_, ?_, ?_, ?_⟩, hs, hc⟩
  · rw [hc]
    exact h.cur_pos
  · rw [hc, hs]
    exact hle
  · rw [hc]
    exact linked_congr h.linked hs rfl (fun _ _ => next_setValue)
      (fun _ => h.layout.bucket_setValue (by omega)) (fun _ _ => key_setValue)
  · intro a b ha hac hb hbc he
    rw [hc] at hac hbc
    rw [key_setValue, key_setValue] at he
    exact h.distinct a b ha hac hb hbc he

/-! The nodes in use, in the order in which the iterator yields them. -/

theorem odbEntries_length (d : OdbData) : (odbEntries d).length = d.currentSize - 1 := by
  simp [odbEntries, odbGetIterator]

theorem odbEntries_getElem? {i : Nat} (hi : i + 1 < d.currentSize) :
    (odbEntries d)[i]? = some (d.key (i + 1), d.value (i + 1)) := by
  have hlt : i < d.currentSize - 1 := by omega
  simp [odbEntries, odbGetIterator, hlt, Nat.add_comm 1 i]

theorem mem_odbEntries_keys : k ∈ (odbEntries d).map Prod.fst ↔
    ∃ i, 0 < i ∧ i < d.currentSize ∧ d.key i = k := by
  simp only [odbEntries, odbGetIterator, List.map_map, List.mem_map, List.mem_range,
    Function.comp_apply]
  constructor
  · rintro ⟨j, hj, rfl⟩
    exact ⟨1 + j, by omega, by omega, rfl⟩
  · rintro ⟨i, hi, hic, rfl⟩
    exact ⟨i - 1, by omega, by rw [show 1 + (i - 1) = i by omega]⟩

theorem odbEntries_nodup (h : Rep d) : ((odbEntries d).map Prod.fst).Nodup := by
  simp only [odbEntries, odbGetIterator, List.map_map]
  refine List.Nodup.map_on ?_ List.nodup_range
  intro a ha b hb he
  rw [List.mem_range] at ha hb
  have := h.distinct (1 + a) (1 + b) (by omega) (by omega) (by omega) (by omega) he
  omega

/-- Tables that hold no key twice. -/
theorem Tables.rep (h : Tables d) (hkeys : ((odbEntries d).map Prod.fst).Nodup) : Rep d := by
  refine ⟨h.layout, h.cur_pos, h.cur_le, h.linked, ?_⟩
  intro i j hi hic hj hjc he
  simp only [odbEntries, odbGetIterator, List.map_map] at hkeys
  have hinj := List.inj_on_of_nodup_map hkeys (List.mem_range.mpr (show i - 1 < d.currentSize - 1 by omega))
    (List.mem_range.mpr (show j - 1 < d.currentSize - 1 by omega))
  simp only [Function.comp_apply, show 1 + (i - 1) = i by omega, show 1 + (j - 1) = j by omega] at hinj
  have := hinj he
  omega

/-- The list of entries, read off node by node. -/
theorem odbEntries_eq {l : List (Nat × Nat)} (hlen : l.length = d.currentSize - 1)
    (hl : ∀ i, i < l.length → l[i]? = some (d.key (i + 1), d.value (i + 1))) :
    odbEntries d = l := by
  apply List.ext_getElem?
  intro i
  by_cases hi : i < l.length
  · rw [hl i hi, odbEntries_getElem? (by omega)]
  · rw [List.getElem?_eq_none (by rw [odbEntries_length]; omega),
      List.getElem?_eq_none (by omega)]

theorem addFreeNode_entries (h : Tables d) (hfree : d.currentSize < d.size) (hk : k < 2 ^ 64) :
    odbEntries (addFreeNode d k v) = odbEntries d ++ [(k, v % 2 ^ 32)] := by
  obtain ⟨-, -, hcur, -, hkc, hvc, hold⟩ := addFreeNode_tables (v := v) h hfree hk
  have hpos := h.cur_pos
  have hlen := odbEntries_length d
  refine odbEntries_eq (by simp [hcur]; omega) ?_
  intro i hi
  simp only [List.length_append, List.length_singleton] at hi
  by_cases hlast : i + 1 = d.currentSize
  · rw [hlast, hkc, hvc, List.getElem?_append_right (by omega)]
    simp [show i - (odbEntries d).length = 0 by omega]
  · rw [List.getElem?_append_left (by omega), odbEntries_getElem? (by omega),
      (hold (i + 1) (by omega)).1, (hold (i + 1) (by omega)).2]

theorem setValue_entries (h : Rep d) {i : Nat} (hi : i + 1 < d.currentSize) :
    odbEntries (d.setValue (i + 1) v) =
      (odbEntries d).set i (d.key (i + 1), v % 2 ^ 32) := by
  have hcur := h.layout.currentSize_setValue (i := i + 1) (v := v)
  have hlen := odbEntries_length d
  refine odbEntries_eq (by rw [hcur, List.length_set, hlen]) ?_
  intro j hj
  rw [List.length_set, hlen] at hj
  rw [key_setValue]
  by_cases he : i = j
  · subst he
    rw [List.getElem?_set_self (by omega), value_setValue_self]
  · rw [List.getElem?_set_ne he, odbEntries_getElem? (by omega), value_setValue_ne (by omega)]

/-- `add_node` appends the key to the entries, whether it is there or not; a full table is doubled. -/
theorem addNode_tables (h : Tables d) (hk : k < 2 ^ 64) (hgrow : d.currentSize = d.size → CanGrow d) :
    ∃ d', addNode .ok d k v = (0, d') ∧ Tables d' ∧ odbEntries d' = odbEntries d ++ [(k, v % 2 ^ 32)] ∧
      d'.offsetNode = d.offsetNode ∧
      d'.size = if d.currentSize = d.size then d.size * 2 else d.size := by
  have hle := h.cur_le
  rw [addNode]
  by_cases hfull : d.currentSize = d.size
  · obtain ⟨g, hg, ht, hs, hcur, hoff, hold⟩ := odbGrowHashtable_tables h (hgrow hfull)
    have hpos := h.layout.size_pos
    have hent : odbEntries g = odbEntries d := by
      refine odbEntries_eq (by rw [odbEntries_length, hcur]) ?_
      intro i hi
      rw [odbEntries_length] at hi
      rw [odbEntries_getElem? (by omega), (hold (i + 1) (by omega)).1,
        (hold (i + 1) (by omega)).2]
    rw [if_pos (by omega), hg]
    obtain ⟨ht', hs', -, ho', -⟩ := addFreeNode_tables (v := v) ht (by omega) hk
    refine ⟨_, rfl, ht', ?_, ho'.trans hoff, ?_⟩
    · rw [addFreeNode_entries ht (by omega) hk, hent]
    · rw [if_pos hfull, hs', hs]
  · rw [if_neg (by omega)]
    obtain ⟨ht', hs', -, ho', -⟩ := addFreeNode_tables (v := v) h (by omega) hk
    refine ⟨_, rfl, ht', addFreeNode_entries h (by omega) hk, ho', ?_⟩
    rw [if_neg hfull, hs']

/-- `add_node` of a new key. -/
theorem addNode_rep (h : Rep d) (hk : k < 2 ^ 64) (hnew : ∀ i, 0 < i → i < d.currentSize → d.key i ≠ k)
    (hgrow : d.currentSize = d.size → CanGrow d) :
    ∃ d', addNode .ok d k v = (0, d') ∧ Rep d' ∧ odbEntries d' = odbEntries d ++ [(k, v % 2 ^ 32)] ∧
      d'.offsetNode = d.offsetNode ∧
      d'.size = if d.currentSize = d.size then d.size * 2 else d.size := by
  obtain ⟨d', hd', ht, hent, hoff, hsize⟩ := addNode_tables (v := v) h.tables hk hgrow
  have hkeys : ((odbEntries d').map Prod.fst).Nodup := by
    have hfresh : k ∉ (odbEntries d).map Prod.fst := by
      rw [mem_odbEntries_keys]
      rintro ⟨i, hi, hic, hki⟩
      exact hnew i hi hic hki
    rw [hent, List.map_append]
    exact (odbEntries_nodup h).append (List.nodup_singleton k) (List.disjoint_singleton.mpr hfresh)
  exact ⟨d', hd', ht.rep hkeys, hent, hoff, hsize⟩

/-- The value a node holds after an update with `offset`. -/
def bumpValue (value offset : Nat) : Nat :=
  if (value + offset) % 2 ^ 64 ≠ 0 then (value + offset) % 2 ^ 32 else value

/-- One update of the store is one update of the table of its entries; the table doubles exactly
when a new key finds it full. -/
theorem odbUpdateNodeWithOffset_refines (h : Rep d) (key offset : UInt64)
    (hgrow : key.toNat ∉ (odbEntries d).map Prod.fst → d.currentSize = d.size → CanGrow d) :
    ∃ d', odbUpdateNodeWithOffset .ok d key offset = some (0, d') ∧ Rep d' ∧
      odbEntries d' = upsert key.toNat (fun v => bumpValue v offset.toNat)
        (offset.toNat % 2 ^ 32) (odbEntries d) ∧
      d'.offsetNode = d.offsetNode ∧
      d'.size = if key.toNat ∉ (odbEntries d).map Prod.fst ∧ d.currentSize = d.size
        then d.size * 2 else d.size := by
  have hk : key.toNat < 2 ^ 64 := key.toNat_lt
  have hle := h.cur_le
  rcases walk_key h key.toNat with ⟨i, hi, hic, hki, hw⟩ | ⟨hnew, hw⟩
  · have hmem : key.toNat ∈ (odbEntries d).map Prod.fst :=
      mem_odbEntries_keys.mpr ⟨i, hi, hic, hki⟩
    obtain ⟨i, rfl⟩ := Nat.exists_eq_succ_of_ne_zero (by omega : i ≠ 0)
    have hent : (odbEntries d)[i]? = some (key.toNat, d.value (i + 1)) := by
      rw [odbEntries_getElem? hic, hki]
    simp only [odbUpdateNodeWithOffset, hw]
    rw [upsert_eq_set (odbEntries_nodup h) hent]
    by_cases hov : (d.value (i + 1) + offset.toNat) % 2 ^ 64 ≠ 0
    · obtain ⟨hrep, hs, -⟩ :=
        setValue_rep (v := (d.value (i + 1) + offset.toNat) % 2 ^ 32) h hic
      refine ⟨_, by rw [if_pos hov], hrep, ?_, rfl, ?_⟩
      · rw [setValue_entries h hic, hki, bumpValue, if_pos hov, Nat.mod_mod]
      · rw [if_neg (fun hc => hc.1 hmem)]
        exact hs
    · refine ⟨d, by rw [if_neg hov], h, ?_, rfl, by simp [hmem]⟩
      obtain ⟨hlt, hget⟩ := List.getElem?_eq_some_iff.mp hent
      rw [bumpValue, if_neg hov, ← hget, List.set_getElem_self]
  · have hmem : key.toNat ∉ (odbEntries d).map Prod.fst := by
      rw [mem_odbEntries_keys]
      rintro ⟨i, hi, hic, hki⟩
      exact hnew i hi hic hki
    obtain ⟨d', hd', hrep, hent, hoff, hs⟩ := addNode_rep (v := offset.toNat % 2 ^ 32) h hk hnew (hgrow hmem)
    refine ⟨d', by simp only [odbUpdateNodeWithOffset, hw, hd'], hrep, ?_, hoff, ?_⟩
    · rw [upsert_of_not_mem hmem, hent, Nat.mod_mod]
    · rw [hs]
      simp only [hmem, not_false_eq_true, true_and]

end Oprofile.Libdb
