import Oprofile.Libdb.CheckHash

/-! Sequences of calls on one store, from the file `odb_open` creates. -/
namespace Oprofile.Libdb

open ByteMem IndexChain Tally

/-- A call on an open store. -/
inductive Call
  | odbUpdateNode (key : UInt64)
  | odbUpdateNodeWithOffset (key offset : UInt64)
  | odbGrowHashtable
  deriving DecidableEq

/-- One call, with `ftruncate` and `mremap` succeeding; nothing if the call never returns. -/
def step (d : OdbData) : Call → Option OdbData
  | .odbUpdateNode key => (odbUpdateNode .ok d key).map Prod.snd
  | .odbUpdateNodeWithOffset key offset =>
    (odbUpdateNodeWithOffset .ok d key offset).map Prod.snd
  | .odbGrowHashtable => some (odbGrowHashtable .ok d).2

def run (calls : List Call) (d : OdbData) : Option OdbData := calls.foldlM step d

/-- The keys and offsets a sequence of calls passes. -/
def passed (calls : List Call) : List (Nat × Nat) :=
  calls.flatMap fun
    | .odbUpdateNode key => [(key.toNat, 1)]
    | .odbUpdateNodeWithOffset key offset => [(key.toNat, offset.toNat)]
    | .odbGrowHashtable => []

def passedKeys (calls : List Call) : Finset Nat := ((passed calls).map Prod.fst).toFinset

/-- The number of nodes of the table after a sequence of calls: it doubles on request and when a
new key finds no free node (node zero is never used). -/
def tableSize (calls : List Call) : Nat :=
  (calls.foldl
    (fun (s : Finset Nat × Nat) c =>
      let keys := s.1 ∪ passedKeys [c]
      (keys, if c = .odbGrowHashtable ∨ (keys ≠ s.1 ∧ s.1.card + 1 = s.2) then s.2 * 2 else s.2))
    (∅, defaultNodeNr)).2

/-- All file sizes stay below the 32-bit limit. -/
def BelowLimit (sizeofHeader : Nat) (calls : List Call) : Prop :=
  sizeofHeader + sizeofDescr + tableSize calls * 20 < 2 ^ 32

/-- What a store must satisfy after `calls`. -/
structure Stored (calls : List Call) (d : OdbData) : Prop where
  /-- No two nodes in use have the same key. -/
  distinct : ∀ i j, 0 < i → i < d.currentSize → 0 < j → j < d.currentSize →
    d.key i = d.key j → i = j
  /-- Every chain ends at zero, visits no index twice and only nodes in use. -/
  acyclic : ∀ b, b < d.size * bucketFactor → ∃ xs, Chain d.next (d.bucket b) xs ∧ xs.Nodup ∧
    ∀ i ∈ xs, i < d.currentSize
  /-- Every node in use is visited once from the bucket of its key and from no other bucket. -/
  reached : ∀ i, 0 < i → i < d.currentSize → odbDoHash d (d.key i) < d.size * bucketFactor ∧
    ∀ b, b < d.size * bucketFactor → ∀ xs, Chain d.next (d.bucket b) xs →
      xs.count i = if odbDoHash d (d.key i) = b then 1 else 0
  bounded : d.currentSize ≤ d.size
  /-- The iterator yields each key that was passed, once, with the sum of its offsets. -/
  entries : ((odbEntries d).map Prod.fst).Nodup ∧
    ((∀ k ∈ passedKeys calls, total k (passed calls) < 2 ^ 32) →
      ∀ k v, (k, v) ∈ odbEntries d ↔ k ∈ passedKeys calls ∧ v = total k (passed calls))
  /-- The next growth rebuilds its hash table in memory that is all zero. -/
  zeroed : CanGrow d → ∀ b, b < d.size * 2 * bucketFactor → (odbRemap d).bucket b = 0

/-- The two bitmaps of `odb_check_hash` can be allocated, and the size of the second, the largest
key plus one, does not wrap to zero. -/
def Checkable (malloc : Nat → Bool) (calls : List Call) : Prop :=
  malloc ((passedKeys calls).card + 1) = true ∧ (passedKeys calls).sup id ≠ 2 ^ 64 - 1 ∧
    malloc ((passedKeys calls).sup id + 1) = true

variable {d : OdbData} {calls : List Call} {sizeofHeader : Nat}

/-! The new file. -/

theorem odbOpenNew_size (h : sizeofHeader + sizeofDescr + defaultNodeNr * 20 < 2 ^ 32) :
    (odbOpenNew sizeofHeader).size = 128 ∧ (odbOpenNew sizeofHeader).currentSize = 1 ∧
      (odbOpenNew sizeofHeader).file.size = sizeofHeader + sizeofDescr + defaultNodeNr * 20 ∧
      (∀ x, sizeofHeader + 8 ≤ x → (odbOpenNew sizeofHeader).file.byte x = 0) := by
  have hts : ∀ f : File, ∀ a b c e : Nat, tablesSize ⟨f, sizeofHeader, sizeofHeader + sizeofDescr,
      a, b, c, e⟩ defaultNodeNr = sizeofHeader + sizeofDescr + defaultNodeNr * 20 :=
    fun _ _ _ _ _ => tablesSize_eq h
  have hdescr : (odbOpenNew sizeofHeader).descr = sizeofHeader := rfl
  have hbyte : (odbOpenNew sizeofHeader).file.byte =
      put32 (put32 (File.empty.truncate (tablesSize ⟨File.empty, sizeofHeader,
        sizeofHeader + sizeofDescr, 0, 0, 0, 0⟩ defaultNodeNr)).byte sizeofHeader 128)
        (sizeofHeader + 4) 1 := rfl
  refine ⟨?_, ?_, hts _ _ _ _ _, ?_⟩
  · rw [OdbData.size, hdescr, hbyte, get32_put32_disjoint (by omega), get32_put32_self]
    rfl
  · rw [OdbData.currentSize, hdescr, hbyte, get32_put32_self]
    rfl
  · intro x hx
    rw [hbyte, put32_byte_ne (by omega), put32_byte_ne (by omega)]
    exact File.truncate_byte_of_le (Nat.zero_le x)

theorem odbOpenNew_rep (h : sizeofHeader + sizeofDescr + defaultNodeNr * 20 < 2 ^ 32) :
    Rep (odbOpenNew sizeofHeader) := by
  obtain ⟨hs, hc, hf, hz⟩ := odbOpenNew_size h
  have hoff : (odbOpenNew sizeofHeader).offsetNode = sizeofHeader + 32 := rfl
  have hmask : (odbOpenNew sizeofHeader).hashMask =
      (odbOpenNew sizeofHeader).size * bucketFactor - 1 := rfl
  have hsz : get32 (odbOpenNew sizeofHeader).file.byte sizeofHeader = 128 := hs
  have hlay : Layout (odbOpenNew sizeofHeader) := by
    refine ⟨rfl, rfl, rfl, rfl, ?_, by omega, ?_, ?_⟩
    · rw [hmask, bucketFactor, Nat.mul_one]
    · rw [hf, hs]
      rfl
    · rw [hs]
      exact h
  refine ⟨hlay, by omega, by omega, ?_, ?_⟩
  · rw [hc]
    apply linked_zero
    intro b
    have hh := hlay.hash
    exact get32_eq_zero fun x hx _ => hz x (by omega)
  · intro i j hi hic
    omega

/-! The shape of the table along a sequence. -/

theorem passed_append (calls : List Call) (c : Call) :
    passed (calls ++ [c]) = passed calls ++ passed [c] := by
  simp [passed]

theorem passedKeys_append (calls : List Call) (c : Call) :
    passedKeys (calls ++ [c]) = passedKeys calls ∪ passedKeys [c] := by
  simp [passedKeys, passed_append]

theorem tableSize_keys (calls : List Call) :
    (calls.foldl
      (fun (s : Finset Nat × Nat) c =>
        let keys := s.1 ∪ passedKeys [c]
        (keys,
          if c = .odbGrowHashtable ∨ (keys ≠ s.1 ∧ s.1.card + 1 = s.2) then s.2 * 2 else s.2))
      (∅, defaultNodeNr)) = (passedKeys calls, tableSize calls) := by
  induction calls using List.reverseRecOn with
  | nil => rfl
  | append_singleton calls c ih =>
    refine Prod.ext ?_ rfl
    rw [List.foldl_append, ih, passedKeys_append]
    rfl

theorem tableSize_append (calls : List Call) (c : Call) :
    tableSize (calls ++ [c]) =
      if c = .odbGrowHashtable ∨ (passedKeys calls ∪ passedKeys [c] ≠ passedKeys calls ∧
        (passedKeys calls).card + 1 = tableSize calls) then tableSize calls * 2
      else tableSize calls := by
  rw [tableSize, List.foldl_append, tableSize_keys]
  rfl

theorem belowLimit_of_append {c : Call} (h : BelowLimit sizeofHeader (calls ++ [c])) :
    BelowLimit sizeofHeader calls := by
  unfold BelowLimit at h ⊢
  rw [tableSize_append] at h
  split_ifs at h <;> omega

/-! Every sequence of calls returns and refines the table of counts. -/

/-- What the induction over a sequence carries. -/
structure Refines (sizeofHeader : Nat) (calls : List Call) (d : OdbData) : Prop where
  rep : Rep d
  offset : d.offsetNode = sizeofHeader + sizeofDescr
  size : d.size = tableSize calls
  entries : odbEntries d = tally bumpValue (· % 2 ^ 32) (passed calls)

theorem Refines.keys (h : Refines sizeofHeader calls d) :
    ((odbEntries d).map Prod.fst).toFinset = passedKeys calls := by
  ext k
  rw [List.mem_toFinset, h.entries, mem_keys_tally, passedKeys, List.mem_toFinset]

theorem Refines.currentSize (h : Refines sizeofHeader calls d) :
    d.currentSize = (passedKeys calls).card + 1 := by
  have hpos := h.rep.cur_pos
  rw [← h.keys, List.toFinset_card_of_nodup (odbEntries_nodup h.rep), List.length_map,
    odbEntries_length]
  omega

theorem Refines.update (h : Refines sizeofHeader calls d) (key offset : UInt64) {c : Call}
    (hc : passed [c] = [(key.toNat, offset.toNat)]) (hne : c ≠ .odbGrowHashtable)
    (hlim : BelowLimit sizeofHeader (calls ++ [c])) :
    ∃ d', (odbUpdateNodeWithOffset .ok d key offset).map Prod.snd = some d' ∧
      Refines sizeofHeader (calls ++ [c]) d' := by
  have hkeys : passedKeys [c] = {key.toNat} := by simp [passedKeys, hc]
  have hmem : key.toNat ∈ (odbEntries d).map Prod.fst ↔ key.toNat ∈ passedKeys calls := by
    rw [← h.keys, List.mem_toFinset]
  have hgrows : (key.toNat ∉ (odbEntries d).map Prod.fst ∧ d.currentSize = d.size) ↔
      (passedKeys calls ∪ passedKeys [c] ≠ passedKeys calls ∧
        (passedKeys calls).card + 1 = tableSize calls) := by
    rw [hmem, h.currentSize, h.size, hkeys]
    have : passedKeys calls ∪ {key.toNat} = passedKeys calls ↔ key.toNat ∈ passedKeys calls := by
      rw [Finset.union_eq_left, Finset.singleton_subset_iff]
    rw [ne_eq, this]
  unfold BelowLimit at hlim
  rw [tableSize_append] at hlim
  have hcan : key.toNat ∉ (odbEntries d).map Prod.fst → d.currentSize = d.size → CanGrow d := by
    intro hnew hfull
    rw [if_pos (Or.inr (hgrows.mp ⟨hnew, hfull⟩))] at hlim
    unfold CanGrow
    rw [h.offset, h.size]
    exact hlim
  obtain ⟨d', hd, hrep, hent, hoff, hsize⟩ :=
    odbUpdateNodeWithOffset_refines h.rep key offset hcan
  refine ⟨d', by rw [hd]; rfl, hrep, hoff.trans h.offset, ?_, ?_⟩
  · rw [← h.size] at hgrows
    rw [hsize, tableSize_append, ← h.size]
    exact if_congr (by rw [hgrows, or_iff_right hne]) rfl rfl
  · rw [hent, h.entries, passed_append, hc, tally_append]

theorem Refines.step (h : Refines sizeofHeader calls d) (c : Call)
    (hlim : BelowLimit sizeofHeader (calls ++ [c])) :
    ∃ d', Libdb.step d c = some d' ∧ Refines sizeofHeader (calls ++ [c]) d' := by
  cases c with
  | odbUpdateNode key => exact h.update key 1 rfl (by simp) hlim
  | odbUpdateNodeWithOffset key offset => exact h.update key offset rfl (by simp) hlim
  | odbGrowHashtable =>
    have hts : tableSize (calls ++ [.odbGrowHashtable]) = tableSize calls * 2 := by
      rw [tableSize_append, if_pos (Or.inl rfl)]
    have hcan : CanGrow d := by
      unfold BelowLimit at hlim
      unfold CanGrow
      rw [h.offset, h.size]
      rwa [hts] at hlim
    obtain ⟨g, hg, hrep, hs, hcur, hoff, hold⟩ := odbGrowHashtable_rep h.rep hcan
    have hle := h.rep.cur_le
    refine ⟨g, by rw [Libdb.step, hg], hrep, hoff.trans h.offset, ?_, ?_⟩
    · rw [hs, hts, h.size]
    · have hnone : passed [.odbGrowHashtable] = [] := rfl
      rw [passed_append, hnone, List.append_nil, ← h.entries]
      refine odbEntries_eq (by rw [odbEntries_length, hcur]) ?_
      intro i hi
      rw [odbEntries_length] at hi
      rw [odbEntries_getElem? (by omega), (hold (i + 1) (by omega)).1,
        (hold (i + 1) (by omega)).2]

theorem run_refines (hlim : BelowLimit sizeofHeader calls) :
    ∃ d, run calls (odbOpenNew sizeofHeader) = some d ∧ Refines sizeofHeader calls d := by
  induction calls using List.reverseRecOn with
  | nil =>
    have hrep := odbOpenNew_rep hlim
    obtain ⟨hs, hc, -⟩ := odbOpenNew_size hlim
    refine ⟨_, rfl, hrep, rfl, hs, ?_⟩
    exact List.eq_nil_of_length_eq_zero (by rw [odbEntries_length, hc])
  | append_singleton calls c ih =>
    obtain ⟨d, hd, hr⟩ := ih (belowLimit_of_append hlim)
    obtain ⟨d', hd', hr'⟩ := hr.step c hlim
    have hrun : calls.foldlM step (odbOpenNew sizeofHeader) = some d := hd
    exact ⟨d', by simp [run, List.foldlM_append, hrun, hd'], hr'⟩

theorem Refines.stored (h : Refines sizeofHeader calls d) : Stored calls d := by
  have hrep := h.rep
  refine ⟨hrep.distinct, ?_, ?_, hrep.cur_le, ⟨odbEntries_nodup hrep, ?_⟩, ?_⟩
  · intro b hb
    rw [bucketFactor, Nat.mul_one] at hb
    obtain ⟨xs, hc, hx⟩ := hrep.linked b hb
    exact ⟨xs, hc, chain_nodup hc, fun i hi => ((hx i).mp hi).2.1⟩
  · intro i hi hic
    rw [bucketFactor, Nat.mul_one]
    refine ⟨odbDoHash_lt hrep.layout _, ?_⟩
    intro b hb xs hxs
    obtain ⟨ys, hc, hy⟩ := hrep.linked b hb
    obtain rfl := chain_unique hxs hc
    split_ifs with he
    · exact List.count_eq_one_of_mem (chain_nodup hc) ((hy i).mpr ⟨hi, hic, he⟩)
    · exact List.count_eq_zero.mpr fun hm => he ((hy i).mp hm).2.2
  · intro hsum k v
    have hadd : ∀ v n, v + n < 2 ^ 32 → bumpValue v n = v + n := by
      intro v n hlt
      unfold bumpValue
      split_ifs <;> omega
    rw [mem_iff_find (odbEntries_nodup hrep), h.entries]
    constructor
    · intro hf
      have hk : k ∈ (passed calls).map Prod.fst := by
        by_contra hn
        rw [← mem_keys_tally bumpValue (· % 2 ^ 32), ← find_eq_none_iff, hf] at hn
        cases hn
      have hk' : k ∈ passedKeys calls := List.mem_toFinset.mpr hk
      rw [find_tally hadd (fun n hn => Nat.mod_eq_of_lt hn) _ hk (hsum k hk')] at hf
      exact ⟨hk', (Option.some.inj hf).symm⟩
    · rintro ⟨hk, rfl⟩
      exact find_tally hadd (fun n hn => Nat.mod_eq_of_lt hn) _ (List.mem_toFinset.mp hk)
        (hsum k hk)
  · intro hg b _
    exact odbRemap_bucket hrep.layout hg b

theorem Refines.check_iff (h : Refines sizeofHeader calls d) (malloc : Nat → Bool) :
    odbCheckHash malloc d = .ok 0 ↔ Checkable malloc calls := by
  rw [odbCheckHash_iff h.rep, h.currentSize, maxKey, h.keys, Checkable]

/-- After any sequence of calls the store represents exactly what was passed, and
`odb_check_hash` accepts it, if and only if that check can get its bitmaps. -/
theorem odb_sequence_stored_and_checked (sizeofHeader : Nat) (calls : List Call)
    (malloc : Nat → Bool) (hlim : BelowLimit sizeofHeader calls) :
    (∃ d, run calls (odbOpenNew sizeofHeader) = some d ∧ Stored calls d ∧
      odbCheckHash malloc d = .ok 0) ↔ Checkable malloc calls := by
  obtain ⟨d, hd, hr⟩ := run_refines hlim
  constructor
  · rintro ⟨e, he, -, hcheck⟩
    obtain rfl := Option.some.inj (hd.symm.trans he)
    exact (hr.check_iff malloc).mp hcheck
  · intro hc
    exact ⟨d, hd, hr.stored, (hr.check_iff malloc).mpr hc⟩

theorem odb_sequence_two_keys :
    ∃ d, run [.odbUpdateNode 7, .odbGrowHashtable, .odbUpdateNodeWithOffset 7 4,
        .odbUpdateNode 263] (odbOpenNew 40) = some d ∧
      Stored [.odbUpdateNode 7, .odbGrowHashtable, .odbUpdateNodeWithOffset 7 4,
        .odbUpdateNode 263] d ∧ odbCheckHash (fun n => n ≤ 4096) d = .ok 0 :=
  (odb_sequence_stored_and_checked 40 _ _ (by unfold BelowLimit; decide)).mpr
    (by unfold Checkable; decide)

/-- With the key of all ones the size of the bitmap wraps to zero, and the check reads outside
it even when every allocation is granted. -/
theorem odb_check_all_ones_key :
    ¬ ∃ d, run [.odbUpdateNode 0xffffffffffffffff] (odbOpenNew 40) = some d ∧
      odbCheckHash (fun _ => true) d = .ok 0 := by
  rintro ⟨d, hd, hcheck⟩
  obtain ⟨e, he, hr⟩ := run_refines
    (by unfold BelowLimit; decide : BelowLimit 40 [.odbUpdateNode 0xffffffffffffffff])
  obtain rfl := Option.some.inj (hd.symm.trans he)
  exact ((hr.check_iff _).mp hcheck).2.1 rfl

end Oprofile.Libdb
