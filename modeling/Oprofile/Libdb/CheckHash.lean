import Mathlib.Order.Lattice.Nat
import Mathlib.Data.Finset.Lattice.Fold
import Mathlib.Data.List.Flatten
import Oprofile.Libdb.Store

/-! `odb_check_hash` and its two passes over the store (`db_debug.c`). -/
namespace Oprofile.Libdb

open ByteMem IndexChain

/-- The ways a call can end without returning: a wild memory access, `exit`, or a loop that
never ends. -/
inductive Stop
  | fault
  | exit (status : Nat)
  | diverge
  deriving DecidableEq

/-- The counters of the first loop of `odb_check_hash`. -/
structure Scan where
  nrNode : Nat
  nrNodeOutOfBound : Nat
  max : Nat

def scanNode (d : OdbData) (s : Scan) (index : Nat) : Scan :=
  { s with
    nrNode := (s.nrNode + 1) % 2 ^ 32
    max := if d.key index > s.max then d.key index else s.max }

def scanChain (d : OdbData) : Nat → Nat → Scan → Except Stop Scan
  | 0, _, _ => .error .diverge
  | fuel + 1, index, s =>
    if index = 0 then .ok s
    else if index ≥ d.currentSize then
      .ok { s with nrNodeOutOfBound := (s.nrNodeOutOfBound + 1) % 2 ^ 32 }
    else scanChain d fuel (d.next index) (scanNode d s index)

def scanTable (d : OdbData) : Except Stop Scan :=
  (List.range (d.size * bucketFactor)).foldlM
    (fun s pos => scanChain d walkFuel (d.bucket pos) s) ⟨0, 0, 0⟩

/-- `malloc(n)` followed by `memset(p, 0, n)`; `malloc` says which requests are granted. -/
def allocZeroed (malloc : Nat → Bool) (n : Nat) : Except Stop (Nat → Bool) :=
  if malloc n = true ∨ n = 0 then .ok fun _ => false else .error .fault

def setBit (bitmap : Nat → Bool) (i : Nat) : Nat → Bool := fun j => if j = i then true else bitmap j

/-- `while (index) { if (bitmap[index]) do_abort = 1; bitmap[index] = 1; index = next }`, on a
bitmap of `n` bytes. -/
def markChain (d : OdbData) (n : Nat) :
    Nat → Nat → (Nat → Bool) × Bool → Except Stop ((Nat → Bool) × Bool)
  | 0, _, _ => .error .diverge
  | fuel + 1, index, (bitmap, doAbort) =>
    if index = 0 then .ok (bitmap, doAbort)
    else if index ≥ n then .error .fault
    else markChain d n fuel (d.next index) (setBit bitmap index, doAbort || bitmap index)

/-- The loop that prints a circular chain and exits when it comes round. -/
def printChain (d : OdbData) (n : Nat) : Nat → Nat → (Nat → Bool) → Except Stop (Nat → Bool)
  | 0, _, _ => .error .diverge
  | fuel + 1, index, bitmap =>
    if index = 0 then .ok bitmap
    else if index ≥ n then .error .fault
    else if bitmap index then .error (.exit 1)
    else printChain d n fuel (d.next index) (setBit bitmap index)

def checkCircularBucket (d : OdbData) (n : Nat) (s : (Nat → Bool) × Bool) (pos : Nat) :
    Except Stop ((Nat → Bool) × Bool) := do
  let index := d.bucket pos
  let (bitmap, doAbort) ←
    if index ≠ 0 ∧ s.2 = false then markChain d n walkFuel index s else pure s
  let bitmap ← if doAbort then printChain d n walkFuel index (fun _ => false) else pure bitmap
  let (bitmap, _) ← markChain d n walkFuel index (bitmap, false)
  pure (bitmap, doAbort)

def checkCircularList (malloc : Nat → Bool) (d : OdbData) : Except Stop Nat := do
  let bitmap ← allocZeroed malloc d.currentSize
  let (_, doAbort) ← (List.range (d.size * bucketFactor)).foldlM
    (checkCircularBucket d d.currentSize) (bitmap, false)
  pure (if doAbort then 1 else 0)

/-- The loop of `check_redundant_key` over the keys of the nodes, on a bitmap of `n` bytes. -/
def redundantLoop (n : Nat) : List Nat → (Nat → Bool) → Except Stop Nat
  | [], _ => .ok 0
  | key :: keys, bitmap =>
    if key ≥ n then .error .fault
    else if bitmap key then .ok 1
    else redundantLoop n keys (setBit bitmap key)

/-- `check_redundant_key`; `max + 1` is an `odb_key_t`, 64 bits wide. -/
def checkRedundantKey (malloc : Nat → Bool) (d : OdbData) (max : Nat) : Except Stop Nat := do
  let n := (max + 1) % 2 ^ 64
  let bitmap ← allocZeroed malloc n
  redundantLoop n ((List.range' 1 (d.currentSize - 1)).map d.key) bitmap

def odbCheckHash (malloc : Nat → Bool) (d : OdbData) : Except Stop Nat := do
  let s ← scanTable d
  let ret := if s.nrNode ≠ (d.currentSize + 2 ^ 32 - 1) % 2 ^ 32 then 1 else 0
  let ret := if s.nrNodeOutOfBound ≠ 0 then 1 else ret
  let ret ← if ret = 0 then checkCircularList malloc d else pure ret
  if ret = 0 then checkRedundantKey malloc d s.max else pure ret

variable {d : OdbData} {i n : Nat} {xs : List Nat} {malloc : Nat → Bool}

/-! Each loop along one chain, given the list of nodes on it. -/

theorem scanChain_eq (h : Chain d.next i xs) (hx : ∀ j ∈ xs, j < d.currentSize) {fuel : Nat}
    (hf : xs.length < fuel) (s : Scan) :
    scanChain d fuel i s = .ok (xs.foldl (scanNode d) s) := by
  induction h generalizing fuel s with
  | nil =>
    obtain ⟨fuel, rfl⟩ := Nat.exists_eq_succ_of_ne_zero (Nat.pos_iff_ne_zero.mp hf)
    rfl
  | @cons i xs hi h ih =>
    obtain ⟨fuel, rfl⟩ := Nat.exists_eq_succ_of_ne_zero (by omega : fuel ≠ 0)
    have hlt := hx i (List.mem_cons_self ..)
    rw [List.length_cons] at hf
    rw [scanChain, if_neg hi, if_neg (by omega), List.foldl_cons]
    exact ih (fun j hj => hx j (List.mem_cons_of_mem _ hj)) (by omega) _

/-- Marking a chain of fresh nodes records exactly them and raises no alarm. -/
theorem markChain_eq (h : Chain d.next i xs) (hx : ∀ j ∈ xs, j < n) {fuel : Nat}
    (hf : xs.length < fuel) (bitmap : Nat → Bool) (a : Bool) :
    ∃ c, markChain d n fuel i (bitmap, a) =
        .ok (fun j => decide (j ∈ xs) || bitmap j, c) ∧
      ((∀ j ∈ xs, bitmap j = false) → c = a) := by
  induction h generalizing fuel bitmap a with
  | nil =>
    obtain ⟨fuel, rfl⟩ := Nat.exists_eq_succ_of_ne_zero (Nat.pos_iff_ne_zero.mp hf)
    exact ⟨a, by simp [markChain], fun _ => rfl⟩
  | @cons i xs hi h ih =>
    obtain ⟨fuel, rfl⟩ := Nat.exists_eq_succ_of_ne_zero (by omega : fuel ≠ 0)
    have hlt := hx i (List.mem_cons_self ..)
    have hnot : i ∉ xs := (List.nodup_cons.mp (chain_nodup (.cons hi h))).1
    rw [List.length_cons] at hf
    obtain ⟨c, hc, hfresh⟩ := ih (fun j hj => hx j (List.mem_cons_of_mem _ hj))
      (Nat.lt_of_succ_lt_succ hf) (setBit bitmap i) (a || bitmap i)
    refine ⟨c, ?_, ?_⟩
    · rw [markChain, if_neg hi, if_neg (by omega), hc]
      congr 2
      funext j
      by_cases hj : j = i <;> simp [setBit, hj]
    · intro hb
      rw [hfresh, hb i (List.mem_cons_self ..), Bool.or_false]
      intro j hj
      have hne : j ≠ i := by
        rintro rfl
        exact hnot hj
      simp [setBit, hne, hb j (List.mem_cons_of_mem _ hj)]

/-- Distinct keys below the bitmap's size are all new. -/
theorem redundantLoop_eq {keys : List Nat} {bitmap : Nat → Bool} (hn : ∀ k ∈ keys, k < n)
    (hd : keys.Nodup) (hb : ∀ k ∈ keys, bitmap k = false) :
    redundantLoop n keys bitmap = .ok 0 := by
  induction keys generalizing bitmap with
  | nil => rfl
  | cons k keys ih =>
    rw [List.nodup_cons] at hd
    have hk := hn k (List.mem_cons_self ..)
    rw [redundantLoop, if_neg (by omega), hb k (List.mem_cons_self ..), if_neg Bool.false_ne_true]
    refine ih (fun j hj => hn j (List.mem_cons_of_mem _ hj)) hd.2 ?_
    intro j hj
    have hne : j ≠ k := by
      rintro rfl
      exact hd.1 hj
    simp [setBit, hne, hb j (List.mem_cons_of_mem _ hj)]

/-! The chains of all buckets together list the nodes once each. -/

/-- The node lists of the buckets, chosen from the invariant. -/
theorem exists_buckets (h : Rep d) : ∃ xs : Nat → List Nat,
    (∀ b, b < d.size → Chain d.next (d.bucket b) (xs b)) ∧
    (∀ b, b < d.size → ∀ i, i ∈ xs b ↔ 0 < i ∧ i < d.currentSize ∧ odbDoHash d (d.key i) = b) := by
  have hall : ∀ b, ∃ xs, b < d.size → Chain d.next (d.bucket b) xs ∧
      ∀ i, i ∈ xs ↔ 0 < i ∧ i < d.currentSize ∧ odbDoHash d (d.key i) = b := by
    intro b
    by_cases hb : b < d.size
    · obtain ⟨xs, hx⟩ := h.linked b hb
      exact ⟨xs, fun _ => hx⟩
    · exact ⟨[], fun hb' => (hb hb').elim⟩
  choose xs hxs using hall
  exact ⟨xs, fun b hb => (hxs b hb).1, fun b hb => (hxs b hb).2⟩

section Passes

variable {chains : Nat → List Nat}

theorem bucket_nodes_lt (hc : ∀ b, b < d.size → Chain d.next (d.bucket b) (chains b))
    (hm : ∀ b, b < d.size → ∀ i, i ∈ chains b ↔
      0 < i ∧ i < d.currentSize ∧ odbDoHash d (d.key i) = b)
    (h : Rep d) {b : Nat} (hb : b < d.size) : (chains b).length < walkFuel :=
  Nat.lt_trans (chain_length_lt (hc b hb) h.cur_pos fun j hj => ((hm b hb j).mp hj).2.1)
    (currentSize_lt d)

theorem perm_nodes (h : Rep d)
    (hc : ∀ b, b < d.size → Chain d.next (d.bucket b) (chains b))
    (hm : ∀ b, b < d.size → ∀ i, i ∈ chains b ↔
      0 < i ∧ i < d.currentSize ∧ odbDoHash d (d.key i) = b) :
    ((List.range d.size).flatMap chains).Perm (List.range' 1 (d.currentSize - 1)) := by
  have hnodup : ((List.range d.size).flatMap chains).Nodup := by
    rw [List.nodup_flatMap]
    refine ⟨fun b hb => chain_nodup (hc b (List.mem_range.mp hb)), ?_⟩
    refine List.Nodup.pairwise_of_forall_ne List.nodup_range ?_
    intro a ha b hb hab i hia hib
    have h1 := (hm a (List.mem_range.mp ha) i).mp hia
    have h2 := (hm b (List.mem_range.mp hb) i).mp hib
    exact hab (h1.2.2.symm.trans h2.2.2)
  refine (List.perm_ext_iff_of_nodup hnodup List.nodup_range').mpr ?_
  intro i
  have hpos := h.cur_pos
  simp only [List.mem_flatMap, List.mem_range, List.mem_range'_1]
  constructor
  · rintro ⟨b, hb, hi⟩
    obtain ⟨h0, hlt, -⟩ := (hm b hb i).mp hi
    omega
  · rintro ⟨h0, hlt⟩
    have hb := odbDoHash_lt h.layout (d.key i)
    exact ⟨_, hb, (hm _ hb i).mpr ⟨by omega, by omega, rfl⟩⟩

theorem scanTable_eq (h : Rep d)
    (hc : ∀ b, b < d.size → Chain d.next (d.bucket b) (chains b))
    (hm : ∀ b, b < d.size → ∀ i, i ∈ chains b ↔
      0 < i ∧ i < d.currentSize ∧ odbDoHash d (d.key i) = b) :
    scanTable d = .ok (((List.range d.size).flatMap chains).foldl (scanNode d) ⟨0, 0, 0⟩) := by
  rw [scanTable, bucketFactor, Nat.mul_one]
  have hall : ∀ b ∈ List.range d.size, b < d.size := fun b hb => List.mem_range.mp hb
  generalize List.range d.size = bs at hall
  generalize (⟨0, 0, 0⟩ : Scan) = s
  induction bs generalizing s with
  | nil => rfl
  | cons b bs ih =>
    have hb := hall b (List.mem_cons_self ..)
    have hw := scanChain_eq (hc b hb) (fun j hj => ((hm b hb j).mp hj).2.1)
      (bucket_nodes_lt hc hm h hb) s
    rw [List.foldlM_cons, hw, List.flatMap_cons, List.foldl_append]
    exact ih (fun j hj => hall j (List.mem_cons_of_mem _ hj)) _

theorem scanNode_foldl (xs : List Nat) (s : Scan) (hs : s.nrNode < 2 ^ 32) :
    (xs.foldl (scanNode d) s).nrNode = (s.nrNode + xs.length) % 2 ^ 32 ∧
      (xs.foldl (scanNode d) s).nrNodeOutOfBound = s.nrNodeOutOfBound ∧
      (xs.foldl (scanNode d) s).max = (xs.map d.key).foldl Nat.max s.max := by
  induction xs generalizing s with
  | nil => exact ⟨(Nat.mod_eq_of_lt hs).symm, rfl, rfl⟩
  | cons i xs ih =>
    obtain ⟨h1, h2, h3⟩ := ih (scanNode d s i) (Nat.mod_lt _ (by omega))
    refine ⟨?_, h2, ?_⟩
    · rw [List.foldl_cons, h1, List.length_cons]
      simp only [scanNode]
      omega
    · rw [List.foldl_cons, h3, List.map_cons, List.foldl_cons]
      congr 1
      simp only [scanNode]
      split_ifs with hg
      · exact (Nat.max_eq_right (by omega)).symm
      · exact (Nat.max_eq_left (by omega)).symm

theorem checkCircularList_eq (h : Rep d)
    (hc : ∀ b, b < d.size → Chain d.next (d.bucket b) (chains b))
    (hm : ∀ b, b < d.size → ∀ i, i ∈ chains b ↔
      0 < i ∧ i < d.currentSize ∧ odbDoHash d (d.key i) = b)
    (hmal : malloc d.currentSize = true) : checkCircularList malloc d = .ok 0 := by
  have hstep : ∀ (bs : List Nat) (bitmap : Nat → Bool), bs.Nodup → (∀ b ∈ bs, b < d.size) →
      (∀ b ∈ bs, ∀ i ∈ chains b, bitmap i = false) →
      ∃ bitmap', bs.foldlM (checkCircularBucket d d.currentSize) (bitmap, false) =
        .ok (bitmap', false) := by
    intro bs
    induction bs with
    | nil => exact fun bitmap _ _ _ => ⟨bitmap, rfl⟩
    | cons b bs ih =>
      intro bitmap hnd hlt hfresh
      rw [List.nodup_cons] at hnd
      have hb := hlt b (List.mem_cons_self ..)
      have hin : ∀ j ∈ chains b, j < d.currentSize := fun j hj => ((hm b hb j).mp hj).2.1
      have hlen := bucket_nodes_lt hc hm h hb
      obtain ⟨c, hc1, hc2⟩ := markChain_eq (hc b hb) hin hlen bitmap false
      obtain ⟨c', hc3, -⟩ := markChain_eq (hc b hb) hin hlen
        (fun j => decide (j ∈ chains b) || bitmap j) false
      obtain ⟨c'', hc4, -⟩ := markChain_eq (hc b hb) hin hlen bitmap false
      have hmark : checkCircularBucket d d.currentSize (bitmap, false) b =
          .ok (fun j => decide (j ∈ chains b) || bitmap j, false) := by
        rw [hc2 (hfresh b (List.mem_cons_self ..))] at hc1
        by_cases h0 : d.bucket b = 0
        · simp [checkCircularBucket, h0, bind, Except.bind, pure, Except.pure, h0 ▸ hc1]
        · simp only [checkCircularBucket, h0, ne_eq, not_false_eq_true, and_self, if_true, hc1,
            bind, Except.bind, pure, Except.pure, Bool.false_eq_true, if_false, hc3]
          congr 2
          funext j
          by_cases hj : j ∈ chains b <;> simp [hj]
      rw [List.foldlM_cons, hmark]
      refine ih _ hnd.2 (fun a ha => hlt a (List.mem_cons_of_mem _ ha)) ?_
      intro a ha i hi
      have hab : a ≠ b := by
        rintro rfl
        exact hnd.1 ha
      have hnot : i ∉ chains b := by
        intro hib
        have h1 := (hm a (hlt a (List.mem_cons_of_mem _ ha)) i).mp hi
        have h2 := (hm b hb i).mp hib
        exact hab (h1.2.2.symm.trans h2.2.2)
      simp [hnot, hfresh a (List.mem_cons_of_mem _ ha) i hi]
  obtain ⟨bitmap', hfold⟩ := hstep (List.range (d.size * bucketFactor)) (fun _ => false)
    List.nodup_range (by intro b hb; simpa [bucketFactor] using hb) (fun _ _ _ _ => rfl)
  simp [checkCircularList, allocZeroed, hmal, bind, Except.bind, hfold, pure, Except.pure]

end Passes

/-- The largest key in the store, zero when it is empty. -/
def maxKey (d : OdbData) : Nat := ((odbEntries d).map Prod.fst).toFinset.sup id

theorem le_foldl_max (l : List Nat) (a : Nat) :
    a ≤ l.foldl Nat.max a ∧ ∀ k ∈ l, k ≤ l.foldl Nat.max a := by
  induction l generalizing a with
  | nil => simp
  | cons b l ih =>
    obtain ⟨h1, h2⟩ := ih (Nat.max a b)
    refine ⟨Nat.le_trans (Nat.le_max_left a b) h1, ?_⟩
    intro k hk
    rcases List.mem_cons.mp hk with rfl | hk
    · exact Nat.le_trans (Nat.le_max_right a k) h1
    · exact h2 k hk

theorem foldl_max_le {l : List Nat} {a m : Nat} (ha : a ≤ m) (hl : ∀ k ∈ l, k ≤ m) :
    l.foldl Nat.max a ≤ m := by
  induction l generalizing a with
  | nil => exact ha
  | cons b l ih =>
    exact ih (Nat.max_le.mpr ⟨ha, hl b (List.mem_cons_self ..)⟩)
      (fun k hk => hl k (List.mem_cons_of_mem _ hk))

theorem key_le_maxKey {k : Nat} (hk : k ∈ (odbEntries d).map Prod.fst) : k ≤ maxKey d :=
  Finset.le_sup (f := id) (List.mem_toFinset.mpr hk)

/-- What the first loop finds: every node once, no index out of bounds, the largest key. -/
theorem scanTable_spec (h : Rep d) : ∃ s, scanTable d = .ok s ∧
    s.nrNode = d.currentSize - 1 ∧ s.nrNodeOutOfBound = 0 ∧ s.max = maxKey d := by
  obtain ⟨chains, hc, hm⟩ := exists_buckets h
  have hperm := perm_nodes h hc hm
  obtain ⟨h1, h2, h3⟩ := scanNode_foldl (d := d) ((List.range d.size).flatMap chains) ⟨0, 0, 0⟩
    (Nat.two_pow_pos 32)
  refine ⟨_, scanTable_eq h hc hm, ?_, h2, ?_⟩
  · have hlt := currentSize_lt d
    rw [h1, hperm.length_eq, List.length_range', Nat.zero_add]
    exact Nat.mod_eq_of_lt (by omega)
  · rw [h3]
    apply Nat.le_antisymm
    · refine foldl_max_le (Nat.zero_le _) ?_
      intro k hk
      obtain ⟨i, hi, rfl⟩ := List.mem_map.mp hk
      have hi' := List.mem_range'_1.mp (hperm.mem_iff.mp hi)
      exact key_le_maxKey (mem_odbEntries_keys.mpr ⟨i, by omega, by omega, rfl⟩)
    · refine Finset.sup_le ?_
      intro k hk
      obtain ⟨i, hi, hic, rfl⟩ := mem_odbEntries_keys.mp (List.mem_toFinset.mp hk)
      refine (le_foldl_max _ 0).2 _ (List.mem_map_of_mem (hperm.mem_iff.mpr ?_))
      exact List.mem_range'_1.mpr (by omega)

theorem nodes_keys (d : OdbData) : (List.range' 1 (d.currentSize - 1)).map d.key =
    (odbEntries d).map Prod.fst := by
  simp [odbEntries, odbGetIterator, List.range'_eq_map_range]

/-- The redundancy pass allocates one byte per possible key up to the largest. It succeeds
exactly when that allocation does and its size did not wrap to zero. -/
theorem checkRedundantKey_iff (h : Rep d) : checkRedundantKey malloc d (maxKey d) = .ok 0 ↔
    maxKey d ≠ 2 ^ 64 - 1 ∧ malloc (maxKey d + 1) = true := by
  have hle : ∀ k ∈ (odbEntries d).map Prod.fst, k ≤ maxKey d := fun k hk => key_le_maxKey hk
  have hlt : maxKey d < 2 ^ 64 := by
    refine (Finset.sup_lt_iff (by decide)).mpr ?_
    intro k hk
    obtain ⟨i, -, -, rfl⟩ := mem_odbEntries_keys.mp (List.mem_toFinset.mp hk)
    exact key_lt d i
  simp only [checkRedundantKey, nodes_keys, bind, Except.bind]
  by_cases hwrap : maxKey d = 2 ^ 64 - 1
  · -- `max + 1` is zero: the bitmap has no byte, and the first key is read outside it.
    have hn : (maxKey d + 1) % 2 ^ 64 = 0 := by omega
    have hne : (odbEntries d).map Prod.fst ≠ [] := by
      intro he
      have h0 : maxKey d = 0 := by simp [maxKey, he]
      omega
    obtain ⟨k, ks, hk⟩ := List.exists_cons_of_ne_nil hne
    rw [hn, hk]
    simp [allocZeroed, redundantLoop, hwrap]
  · have hn : (maxKey d + 1) % 2 ^ 64 = maxKey d + 1 := Nat.mod_eq_of_lt (by omega)
    rw [hn]
    by_cases hm : malloc (maxKey d + 1) = true
    · have hloop := redundantLoop_eq (n := maxKey d + 1)
        (fun k hk => Nat.lt_succ_of_le (hle k hk)) (odbEntries_nodup h) (fun _ _ => rfl)
      simp only [allocZeroed, hm, true_or, if_true, hloop, ne_eq, hwrap, not_false_eq_true,
        and_self]
    · simp [allocZeroed, hm]

/-- `odb_check_hash` accepts a store that satisfies the invariant whenever it can run: both
bitmaps must be allocated, and the size of the second must not wrap to zero. -/
theorem odbCheckHash_iff (h : Rep d) : odbCheckHash malloc d = .ok 0 ↔
    malloc d.currentSize = true ∧ maxKey d ≠ 2 ^ 64 - 1 ∧ malloc (maxKey d + 1) = true := by
  obtain ⟨s, hs, hnr, hout, hmax⟩ := scanTable_spec h
  obtain ⟨chains, hc, hm⟩ := exists_buckets h
  have hlt := currentSize_lt d
  have hpos := h.cur_pos
  have hcount : ¬ s.nrNode ≠ (d.currentSize + 2 ^ 32 - 1) % 2 ^ 32 := by omega
  have hscan : odbCheckHash malloc d = (do
      let ret ← checkCircularList malloc d
      if ret = 0 then checkRedundantKey malloc d (maxKey d) else pure ret) := by
    rw [odbCheckHash, hs]
    simp only [bind, Except.bind, if_neg hcount, hout, hmax, ne_eq, not_true_eq_false, if_false,
      if_true]
  rw [hscan, ← checkRedundantKey_iff h]
  by_cases hmal : malloc d.currentSize = true
  · have hcirc := checkCircularList_eq h hc hm hmal
    simp [hcirc, hmal, bind, Except.bind]
  · have hne : d.currentSize ≠ 0 := by omega
    simp [checkCircularList, allocZeroed, hmal, hne, bind, Except.bind]

end Oprofile.Libdb
