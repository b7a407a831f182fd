import Oprofile.Library.Backtrack
import Mathlib.Data.List.Range
import Mathlib.Tactic.Linarith

/-! Counter allocation (`op_alloc_counter.c`). -/
namespace Oprofile.Libop

/-- The fields of an event that allocation looks at. -/
structure OpEvent where
  counterMask : UInt32
  ext : Option String

def bit (j : Nat) : UInt32 := 1 <<< UInt32.ofNat j

/-- The loop of `build_counter_arc` over one mask; a 32-bit mask is empty after 32 rounds. -/
def arcsFrom : Nat → Nat → UInt32 → List Nat
  | 0, _, _ => []
  | fuel + 1, j, mask =>
    if mask = 0 then []
    else if mask &&& bit j ≠ 0 then j :: arcsFrom fuel (j + 1) (mask &&& ~~~ bit j)
    else arcsFrom fuel (j + 1) mask

/-- `build_counter_arc`. -/
def buildCounterArc (pev : List OpEvent) : List (List Nat) :=
  pev.map fun event => arcsFrom 32 0 event.counterMask

/-- The inner loop of `allocate_counter`: `next` goes one level deeper with a counter. -/
def tryCounters (next : Nat → List UInt64 → Bool × List UInt64) (allocatedMask : UInt32) :
    List Nat → List UInt64 → Bool × List UInt64
  | [], counterMap => (false, counterMap)
  | counter :: arcs, counterMap =>
    if allocatedMask &&& bit counter ≠ 0 then tryCounters next allocatedMask arcs counterMap
    else
      match next counter counterMap with
      | (true, counterMap) => (true, counterMap)
      | (false, counterMap) => tryCounters next allocatedMask arcs counterMap

/-- `allocate_counter` on the levels from `depth` on. -/
def allocateCounter : List (List Nat) → Nat → UInt32 → List UInt64 → Bool × List UInt64
  | [], _, _, counterMap => (true, counterMap)
  | arcs :: ctrArc, depth, allocatedMask, counterMap =>
    if arcs = [] then allocateCounter ctrArc (depth + 1) allocatedMask (counterMap.set depth (-1))
    else
      tryCounters (fun counter counterMap => allocateCounter ctrArc (depth + 1)
        (allocatedMask ||| bit counter) (counterMap.set depth (UInt64.ofNat counter)))
        allocatedMask arcs counterMap

/-- What the machine tells: its cpu type, the number of counters of a type, the numbers of the counter
directories if there are any to scan, and whether it has the timer. -/
structure Host where
  cpuType : Nat
  nrCounters : Nat → Nat
  counterlist : Option (List Nat)
  hasTimerFs : Bool

/-- `op_get_counter_mask`: the number of counters, negative if it is not known, and the mask. -/
def opGetCounterMask (host : Host) : Int × UInt32 :=
  match host.counterlist with
  | none => (-1, 0)
  | some counterlist =>
    let available := counterlist.foldl (fun available counter => available ||| bit counter) 0
    if host.hasTimerFs then
      (counterlist.length + 1,
        ~~~ (available ||| 1 <<< (UInt32.ofNat (host.nrCounters host.cpuType) - 1)))
    else (counterlist.length, ~~~ available)

/-- The counters that `map_event_to_counter` goes by: how many, and which are not available. -/
def counters (host : Host) (cpuType : Nat) : Nat × UInt32 :=
  let (nrCounters, unavailable) :=
    if cpuType ≠ host.cpuType then ((host.nrCounters cpuType : Int), 0) else opGetCounterMask host
  if nrCounters ≤ 0 then
    (host.nrCounters cpuType, (~~~ 0) <<< UInt32.ofNat (host.nrCounters cpuType))
  else (nrCounters.toNat, unavailable)

/-- The loop that counts the events without `ext`; false where it gives up. -/
def enoughCounters (nrCounters : Nat) : List OpEvent → Nat → Bool
  | [], _ => true
  | event :: pev, nrPmcEvents =>
    if event.ext = none then
      if nrCounters < nrPmcEvents + 1 then false else enoughCounters nrCounters pev (nrPmcEvents + 1)
    else enoughCounters nrCounters pev nrPmcEvents

/-- `map_event_to_counter` with its counters; `junk` is what the fresh map holds. -/
def mapWith (nrCounters : Nat) (unavailable : UInt32) (pev : List OpEvent) (junk : UInt64) :
    Option (List UInt64) :=
  if ¬ enoughCounters nrCounters pev 0 then none
  else
    match allocateCounter (buildCounterArc pev) 0 unavailable (List.replicate pev.length junk) with
    | (true, counterMap) => some counterMap
    | (false, _) => none

/-- `map_event_to_counter`. -/
def mapEventToCounter (host : Host) (pev : List OpEvent) (cpuType : Nat) (junk : UInt64) :
    Option (List UInt64) :=
  mapWith (counters host cpuType).1 (counters host cpuType).2 pev junk

/-! Masks. -/

variable {mask mask' : UInt32} {j k fuel : Nat}

/-- The bit of a counter is set. -/
def Has (mask : UInt32) (j : Nat) : Prop := mask.toBitVec.getLsbD j = true

instance : Decidable (Has mask j) := inferInstanceAs (Decidable (_ = _))

theorem has_zero (j : Nat) : ¬ Has 0 j := by simp [Has]

theorem bit_toNat (hj : j < 32) : (bit j).toNat = 2 ^ j := by
  have hlt : 2 ^ j < 2 ^ 32 := Nat.pow_lt_pow_right (by omega) hj
  rw [bit, UInt32.toNat_shiftLeft, UInt32.toNat_ofNat', Nat.mod_eq_of_lt (by omega : j < 2 ^ 32),
    Nat.mod_eq_of_lt hj, Nat.shiftLeft_eq, UInt32.toNat_one, Nat.one_mul, Nat.mod_eq_of_lt hlt]

theorem has_iff : Has mask j ↔ mask.toNat.testBit j = true := Iff.rfl

theorem has_bit (hj : j < 32) : Has (bit j) k ↔ k = j := by
  rw [has_iff, bit_toNat hj, Nat.testBit_two_pow, decide_eq_true_iff, eq_comm]

theorem has_or : Has (mask ||| mask') j ↔ Has mask j ∨ Has mask' j := by
  simp [Has]

theorem has_and : Has (mask &&& mask') j ↔ Has mask j ∧ Has mask' j := by
  simp [Has]

theorem Has.lt (h : Has mask j) : j < 32 := by
  by_contra hge
  rw [Has, BitVec.getLsbD_of_ge _ _ (by omega)] at h
  cases h

theorem has_clear (hk : k < 32) : Has (mask &&& ~~~ bit k) j ↔ Has mask j ∧ j ≠ k := by
  have hnot : Has (~~~ bit k) j ↔ j < 32 ∧ ¬ Has (bit k) j := by simp [Has]
  rw [has_and, hnot, has_bit hk]
  exact ⟨fun h => ⟨h.1, h.2.2⟩, fun h => ⟨h.1, h.1.lt, h.2⟩⟩

theorem eq_zero_of_not_has (h : ∀ j, ¬ Has mask j) : mask = 0 := by
  apply UInt32.toNat_inj.mp
  apply Nat.eq_of_testBit_eq
  intro j
  exact (Bool.eq_false_iff.mpr (h j)).trans (Nat.zero_testBit j).symm

theorem and_bit_ne_zero (hj : j < 32) : mask &&& bit j ≠ 0 ↔ Has mask j := by
  constructor
  · intro hne
    by_contra hnot
    refine hne (eq_zero_of_not_has fun k hk => hnot ?_)
    obtain ⟨hmask, hbit⟩ := has_and.mp hk
    exact (has_bit hj).mp hbit ▸ hmask
  · intro hhas heq
    have hand : Has (mask &&& bit j) j := has_and.mpr ⟨hhas, (has_bit hj).mpr rfl⟩
    rw [heq] at hand
    exact has_zero j hand

/-- The candidate list of a mask: its counters in order. -/
theorem arcsFrom_eq (hlow : ∀ k < j, ¬ Has mask k) (hfuel : 32 ≤ j + fuel) (hj : j ≤ 32) :
    arcsFrom fuel j mask = (List.range' j (32 - j)).filter (Has mask) := by
  induction fuel generalizing j mask with
  | zero =>
    have h32 : j = 32 := by omega
    subst h32
    rfl
  | succ fuel ih =>
    rw [arcsFrom]
    by_cases hzero : mask = 0
    · rw [if_pos hzero, eq_comm, List.filter_eq_nil_iff]
      intro k _
      rw [hzero, decide_eq_true_iff]
      exact has_zero k
    have hlt : j < 32 := by
      by_contra hge
      exact hzero (eq_zero_of_not_has fun k hk => hlow k (Nat.lt_of_lt_of_le hk.lt (by omega)) hk)
    have hrange : List.range' j (32 - j) = j :: List.range' (j + 1) (32 - (j + 1)) := by
      rw [show 32 - j = 32 - (j + 1) + 1 by omega, List.range'_succ]
    rw [if_neg hzero, hrange]
    by_cases hhas : Has mask j
    · rw [if_pos ((and_bit_ne_zero hlt).mpr hhas), List.filter_cons_of_pos (by simpa using hhas),
        ih (fun k hk hc => ?_) (by omega) (by omega)]
      · refine congrArg (j :: ·) (List.filter_congr fun k hk => decide_eq_decide.mpr ?_)
        rw [has_clear hlt]
        have hgt := (List.mem_range'_1.mp hk).1
        exact ⟨fun hc => hc.1, fun hc => ⟨hc, by omega⟩⟩
      · obtain ⟨hc, hne⟩ := (has_clear hlt).mp hc
        exact hlow k (by omega) hc
    · rw [if_neg (mt (and_bit_ne_zero hlt).mp hhas), List.filter_cons_of_neg (by simpa using hhas),
        ih (fun k hk hc => ?_) (by omega) (by omega)]
      rcases Nat.lt_succ_iff_lt_or_eq.mp hk with hlt' | rfl
      · exact hlow k hlt' hc
      · exact hhas hc

theorem mem_arcs : j ∈ arcsFrom 32 0 mask ↔ Has mask j := by
  rw [arcsFrom_eq (fun k hk => absurd hk (Nat.not_lt_zero k)) (by omega) (by omega), List.mem_filter,
    List.mem_range'_1, decide_eq_true_iff]
  exact ⟨fun h => h.2, fun h => ⟨⟨by omega, by have := h.lt; omega⟩, h⟩⟩

theorem arcs_sorted (mask : UInt32) : (arcsFrom 32 0 mask).Pairwise (· < ·) := by
  rw [arcsFrom_eq (fun k hk => absurd hk (Nat.not_lt_zero k)) (by omega) (by omega)]
  exact List.Pairwise.filter _ List.pairwise_lt_range'

theorem arcs_eq_nil : arcsFrom 32 0 mask = [] ↔ mask = 0 := by
  constructor
  · intro h
    exact eq_zero_of_not_has fun j hj => by
      have hmem := mem_arcs.mpr hj
      rw [h] at hmem
      cases hmem
  · rintro rfl
    rfl

/-! The search. -/

/-- What may go into the map for a candidate list: a counter, or `(size_t)-1` if there is none. -/
def entries (arcs : List Nat) : List UInt64 := if arcs = [] then [-1] else arcs.map UInt64.ofNat

/-- Taking a counter, if it is free. -/
def take (allocatedMask : UInt32) (entry : UInt64) : Option UInt32 :=
  if entry = -1 then some allocatedMask
  else if allocatedMask &&& bit entry.toNat ≠ 0 then none
  else some (allocatedMask ||| bit entry.toNat)

/-- Behind what the levels before have put into the map stands what the search finds; if it finds
nothing, the map keeps its length and these entries. -/
def Fills (pre : List UInt64) (n : Nat) (r : Bool × List UInt64) : Option (List UInt64) → Prop
  | some xs => r = (true, pre ++ xs)
  | none => r.1 = false ∧ ∃ rest, r.2 = pre ++ rest ∧ rest.length = n

variable {next : Nat → List UInt64 → Bool × List UInt64} {arcs : List Nat} {pre rest : List UInt64}
  {n : Nat} {found : Nat → Option (List UInt64)} {ctrArc : List (List Nat)}

theorem tryCounters_fills (hnext : ∀ c ∈ arcs, ∀ rest, rest.length = n →
      Fills pre n (next c (pre ++ rest)) (found c)) (hrest : rest.length = n) :
    Fills pre n (tryCounters next mask arcs (pre ++ rest))
      (arcs.findSome? fun c => if mask &&& bit c ≠ 0 then none else found c) := by
  induction arcs generalizing rest with
  | nil => exact ⟨rfl, rest, rfl, hrest⟩
  | cons c arcs ih =>
    rw [List.forall_mem_cons] at hnext
    rw [tryCounters, List.findSome?_cons]
    by_cases htaken : mask &&& bit c ≠ 0
    · rw [if_pos htaken, if_pos htaken]
      exact ih hnext.2 hrest
    · rw [if_neg htaken, if_neg htaken]
      have hc := hnext.1 rest hrest
      cases hfound : found c with
      | some xs =>
        rw [hfound] at hc
        change next c (pre ++ rest) = _ at hc
        rw [hc]
        rfl
      | none =>
        rw [hfound] at hc
        obtain ⟨hfalse, rest', hmap, hlen⟩ := hc
        have hpair : next c (pre ++ rest) = (false, pre ++ rest') := Prod.ext hfalse hmap
        rw [hpair]
        exact ih hnext.2 hlen

theorem ofNat_toNat {c : Nat} (hc : c < 32) : (UInt64.ofNat c).toNat = c := by
  rw [UInt64.toNat_ofNat', Nat.mod_eq_of_lt (by omega)]

theorem ofNat_ne {c : Nat} (hc : c < 32) : UInt64.ofNat c ≠ -1 := by
  intro h
  have hval := congrArg UInt64.toNat h
  rw [ofNat_toNat hc] at hval
  exact absurd hc (by rw [hval]; decide)

theorem take_counter {c : Nat} (hc : c < 32) : take mask (UInt64.ofNat c) =
    if mask &&& bit c ≠ 0 then none else some (mask ||| bit c) := by
  rw [take, if_neg (ofNat_ne hc), ofNat_toNat hc]

theorem set_append_cons {x y : UInt64} : (pre ++ y :: rest).set pre.length x = pre ++ [x] ++ rest := by
  simp

theorem Fills.shift {x : UInt64} {r : Bool × List UInt64} {o : Option (List UInt64)}
    (h : Fills (pre ++ [x]) n r o) : Fills pre (n + 1) r (o.map (x :: ·)) := by
  cases o with
  | some xs =>
    change r = _ at h
    rw [h]
    simp [Fills]
  | none =>
    obtain ⟨hfalse, rest, hmap, hlen⟩ := h
    exact ⟨hfalse, x :: rest, by rw [hmap, List.append_assoc]; rfl, by rw [List.length_cons, hlen]⟩

theorem findSome?_one {α β : Type} (f : α → Option β) (x : α) : [x].findSome? f = f x := by
  rw [List.findSome?_cons]
  cases f x <;> rfl

theorem findSome?_congr {α β : Type} {f g : α → Option β} {xs : List α} (h : ∀ x ∈ xs, f x = g x) :
    xs.findSome? f = xs.findSome? g := by
  induction xs with
  | nil => rfl
  | cons x xs ih =>
    rw [List.forall_mem_cons] at h
    rw [List.findSome?_cons, List.findSome?_cons, h.1, ih h.2]

/-- `allocate_counter` is the depth-first search through the candidate lists. -/
theorem allocateCounter_fills (hlt : ∀ arcs ∈ ctrArc, ∀ c ∈ arcs, c < 32) (pre rest : List UInt64)
    (mask : UInt32) (hrest : rest.length = ctrArc.length) :
    Fills pre ctrArc.length (allocateCounter ctrArc pre.length mask (pre ++ rest))
      (Backtrack.search take (ctrArc.map entries) mask) := by
  induction ctrArc generalizing pre rest mask with
  | nil =>
    rw [List.length_eq_zero_iff.mp hrest]
    rfl
  | cons arcs ctrArc ih =>
    rw [List.forall_mem_cons] at hlt
    rw [allocateCounter, List.map_cons, Backtrack.search, entries, List.length_cons]
    have hdeeper : ∀ (x : UInt64) (mask : UInt32) (rest : List UInt64), rest.length = ctrArc.length + 1 →
        Fills pre (ctrArc.length + 1)
          (allocateCounter ctrArc (pre.length + 1) mask ((pre ++ rest).set pre.length x))
          ((Backtrack.search take (ctrArc.map entries) mask).map (x :: ·)) := by
      intro x mask rest hlen
      cases rest with
      | nil => cases hlen
      | cons y rest =>
        have hih := ih hlt.2 (pre ++ [x]) rest mask (Nat.succ.inj hlen)
        rw [List.length_append, List.length_singleton] at hih
        rw [set_append_cons]
        exact hih.shift
    by_cases hnil : arcs = []
    · rw [if_pos hnil, if_pos hnil, findSome?_one]
      exact hdeeper (-1) mask rest hrest
    · rw [if_neg hnil, if_neg hnil, List.findSome?_map]
      have hfree : ∀ c ∈ arcs, ((fun x => (take mask x).bind fun s =>
          (Backtrack.search take (ctrArc.map entries) s).map (x :: ·)) ∘ UInt64.ofNat) c =
          if mask &&& bit c ≠ 0 then none else
            (Backtrack.search take (ctrArc.map entries) (mask ||| bit c)).map (UInt64.ofNat c :: ·) := by
        intro c hc
        rw [Function.comp_apply, take_counter (hlt.1 c hc)]
        split_ifs <;> rfl
      rw [findSome?_congr hfree]
      exact tryCounters_fills (fun c _ rest hlen => hdeeper _ _ rest hlen) hrest

/-! Assignments. -/

variable {pev : List OpEvent} {unavailable : UInt32} {counterMap : List UInt64}

/-- The map gives the events with a mask counters of their own, allowed and available, and the others
`(size_t)-1`. -/
structure Assigns (pev : List OpEvent) (unavailable : UInt32) (counterMap : List UInt64) : Prop where
  length : counterMap.length = pev.length
  none_iff : ∀ (i : Nat) (event : OpEvent), pev[i]? = some event → (counterMap[i]? = some (-1) ↔ event.counterMask = 0)
  allowed : ∀ (i : Nat) (event : OpEvent), pev[i]? = some event → event.counterMask ≠ 0 →
    ∃ c < 32, counterMap[i]? = some (UInt64.ofNat c) ∧ Has event.counterMask c ∧ ¬ Has unavailable c
  injective : ∀ (i j : Nat) (event event' : OpEvent), pev[i]? = some event → pev[j]? = some event' →
    event.counterMask ≠ 0 → event'.counterMask ≠ 0 → counterMap[i]? = counterMap[j]? → i = j

/-- What the map may hold for one event. -/
def Suits (unavailable : UInt32) (event : OpEvent) (x : UInt64) : Prop :=
  (event.counterMask = 0 ∧ x = -1) ∨
  ∃ c < 32, x = UInt64.ofNat c ∧ Has event.counterMask c ∧ ¬ Has unavailable c

variable {event : OpEvent} {x : UInt64} {xs : List UInt64} {c : Nat}

theorem has_or_bit (hc : c < 32) : Has (mask ||| bit c) k ↔ Has mask k ∨ k = c := by
  rw [has_or, has_bit hc]

theorem ofNat_inj (hc : c < 32) (hk : k < 32) (h : UInt64.ofNat c = UInt64.ofNat k) : c = k := by
  rw [← ofNat_toNat hc, h, ofNat_toNat hk]

/-- A counter that has been taken suits no event any more. -/
theorem suits_or_bit (hc : c < 32) :
    Suits (unavailable ||| bit c) event x ↔ Suits unavailable event x ∧ x ≠ UInt64.ofNat c := by
  constructor
  · rintro (⟨hmask, rfl⟩ | ⟨k, hk, rfl, hhas, hfree⟩)
    · exact ⟨.inl ⟨hmask, rfl⟩, (ofNat_ne hc).symm⟩
    · rw [has_or_bit hc, not_or] at hfree
      exact ⟨.inr ⟨k, hk, rfl, hhas, hfree.1⟩, fun heq => hfree.2 (ofNat_inj hk hc heq)⟩
  · rintro ⟨⟨hmask, rfl⟩ | ⟨k, hk, rfl, hhas, hfree⟩, hne⟩
    · exact .inl ⟨hmask, rfl⟩
    · refine .inr ⟨k, hk, rfl, hhas, ?_⟩
      rw [has_or_bit hc, not_or]
      exact ⟨hfree, fun heq => hne (by rw [heq])⟩

theorem all_suit_or_bit (hc : c < 32) : List.Forall₂ (Suits (unavailable ||| bit c)) pev xs ↔
    List.Forall₂ (Suits unavailable) pev xs ∧ UInt64.ofNat c ∉ xs := by
  induction pev generalizing xs with
  | nil =>
    constructor
    · intro h
      cases h
      exact ⟨.nil, List.not_mem_nil⟩
    · rintro ⟨h, -⟩
      cases h
      exact .nil
  | cons event pev ih =>
    cases xs with
    | nil => exact ⟨fun h => (by cases h), fun h => (by cases h.1)⟩
    | cons x xs =>
      rw [List.forall₂_cons, List.forall₂_cons, suits_or_bit hc, ih, List.mem_cons, not_or, ne_comm]
      exact ⟨fun h => ⟨⟨h.1.1, h.2.1⟩, h.1.2, h.2.2⟩, fun h => ⟨⟨h.1.1, h.2.1⟩, h.1.2, h.2.2⟩⟩

/-- The maps that suit every event and give no counter twice. -/
def Suitable (unavailable : UInt32) (pev : List OpEvent) (xs : List UInt64) : Prop :=
  List.Forall₂ (Suits unavailable) pev xs ∧ (xs.filter (· ≠ -1)).Nodup

theorem suitable_cons_none (hmask : event.counterMask = 0) :
    Suitable unavailable (event :: pev) (x :: xs) ↔ x = -1 ∧ Suitable unavailable pev xs := by
  have hsuits : Suits unavailable event x ↔ x = -1 := by
    constructor
    · rintro (⟨-, hx⟩ | ⟨c, -, -, hhas, -⟩)
      · exact hx
      · rw [hmask] at hhas
        exact absurd hhas (has_zero c)
    · exact fun hx => .inl ⟨hmask, hx⟩
  rw [Suitable, Suitable, List.forall₂_cons, hsuits]
  constructor
  · rintro ⟨⟨rfl, hall⟩, hnodup⟩
    exact ⟨rfl, hall, by simpa using hnodup⟩
  · rintro ⟨rfl, hall, hnodup⟩
    exact ⟨⟨rfl, hall⟩, by simpa using hnodup⟩

theorem suitable_cons_some (hmask : event.counterMask ≠ 0) :
    Suitable unavailable (event :: pev) (x :: xs) ↔
      ∃ c < 32, x = UInt64.ofNat c ∧ Has event.counterMask c ∧ ¬ Has unavailable c ∧
        Suitable (unavailable ||| bit c) pev xs := by
  rw [Suitable, List.forall₂_cons]
  constructor
  · rintro ⟨⟨⟨hzero, -⟩ | ⟨c, hc, rfl, hhas, hfree⟩, hall⟩, hnodup⟩
    · exact absurd hzero hmask
    · rw [List.filter_cons_of_pos (by simpa using ofNat_ne hc), List.nodup_cons] at hnodup
      refine ⟨c, hc, rfl, hhas, hfree, (all_suit_or_bit hc).mpr ⟨hall, fun hmem => ?_⟩, hnodup.2⟩
      exact hnodup.1 (List.mem_filter.mpr ⟨hmem, by simpa using ofNat_ne hc⟩)
  · rintro ⟨c, hc, rfl, hhas, hfree, hall, hnodup⟩
    obtain ⟨hall, hnew⟩ := (all_suit_or_bit hc).mp hall
    refine ⟨⟨.inr ⟨c, hc, rfl, hhas, hfree⟩, hall⟩, ?_⟩
    rw [List.filter_cons_of_pos (by simpa using ofNat_ne hc), List.nodup_cons]
    exact ⟨fun hmem => hnew (List.mem_filter.mp hmem).1, hnodup⟩

theorem take_eq_some (hc : c < 32) {s : UInt32} :
    take mask (UInt64.ofNat c) = some s ↔ ¬ Has mask c ∧ s = mask ||| bit c := by
  rw [take_counter hc]
  by_cases hhas : Has mask c
  · rw [if_pos ((and_bit_ne_zero hc).mpr hhas)]
    exact ⟨fun h => (by cases h), fun h => absurd hhas h.1⟩
  · rw [if_neg (mt (and_bit_ne_zero hc).mp hhas), Option.some.injEq, eq_comm]
    exact ⟨fun h => ⟨hhas, h⟩, fun h => h.2⟩

theorem path_iff : Backtrack.Path take ((buildCounterArc pev).map entries) unavailable xs ↔
    Suitable unavailable pev xs := by
  induction pev generalizing unavailable xs with
  | nil =>
    constructor
    · intro h
      cases h
      exact ⟨.nil, List.nodup_nil⟩
    · rintro ⟨h, -⟩
      cases h
      exact .nil
  | cons event pev ih =>
    cases xs with
    | nil => exact ⟨fun h => (by cases h), fun h => (by cases h.1)⟩
    | cons x xs =>
      rw [buildCounterArc, List.map_cons, List.map_cons]
      by_cases hmask : event.counterMask = 0
      · have hentries : entries (arcsFrom 32 0 event.counterMask) = [-1] :=
          if_pos (arcs_eq_nil.mpr hmask)
        rw [suitable_cons_none hmask, hentries, ← ih]
        constructor
        · intro h
          cases h with
          | cons hx hs hpath =>
            obtain rfl := List.mem_singleton.mp hx
            cases hs
            exact ⟨rfl, hpath⟩
        · rintro ⟨rfl, hpath⟩
          exact .cons List.mem_cons_self rfl hpath
      · have hentries : entries (arcsFrom 32 0 event.counterMask) =
            (arcsFrom 32 0 event.counterMask).map UInt64.ofNat := if_neg (mt arcs_eq_nil.mp hmask)
        rw [suitable_cons_some hmask, hentries]
        constructor
        · intro h
          cases h with
          | cons hx hs hpath =>
            obtain ⟨c, hc, rfl⟩ := List.mem_map.mp hx
            have hhas := mem_arcs.mp hc
            obtain ⟨hfree, rfl⟩ := (take_eq_some hhas.lt).mp hs
            exact ⟨c, hhas.lt, rfl, hhas, hfree, ih.mp hpath⟩
        · rintro ⟨c, hc, rfl, hhas, hfree, hall⟩
          exact .cons (List.mem_map.mpr ⟨c, mem_arcs.mpr hhas, rfl⟩)
            ((take_eq_some hc).mpr ⟨hfree, rfl⟩) (ih.mpr hall)

theorem Suits.eq_none_iff (h : Suits unavailable event x) : x = -1 ↔ event.counterMask = 0 := by
  obtain ⟨hmask, rfl⟩ | ⟨c, hc, rfl, hhas, -⟩ := h
  · exact ⟨fun _ => hmask, fun _ => rfl⟩
  · exact ⟨fun heq => absurd heq (ofNat_ne hc), fun hmask => absurd (hmask ▸ hhas) (has_zero c)⟩

theorem assigns_of_suitable (h : Suitable unavailable pev xs) : Assigns pev unavailable xs := by
  obtain ⟨hall, hnodup⟩ := h
  obtain ⟨hlen, hget⟩ := List.forall₂_iff_get.mp hall
  have hsuits : ∀ (i : Nat) (event : OpEvent), pev[i]? = some event →
      ∃ x, xs[i]? = some x ∧ Suits unavailable event x := by
    intro i event hi
    obtain ⟨hlt, rfl⟩ := List.getElem?_eq_some_iff.mp hi
    exact ⟨xs[i], List.getElem?_eq_getElem (hlen ▸ hlt), hget i hlt (hlen ▸ hlt)⟩
  refine ⟨hlen.symm, fun i event hi => ?_, fun i event hi hmask => ?_, ?_⟩
  · obtain ⟨x, hx, hs⟩ := hsuits i event hi
    rw [hx, Option.some.injEq]
    exact hs.eq_none_iff
  · obtain ⟨x, hx, hs⟩ := hsuits i event hi
    obtain ⟨hzero, -⟩ | ⟨c, hc, rfl, hhas, hfree⟩ := hs
    · exact absurd hzero hmask
    · exact ⟨c, hc, hx, hhas, hfree⟩
  · rw [List.Nodup, List.pairwise_filter, List.pairwise_iff_getElem] at hnodup
    have hne : ∀ (i j : Nat) (event event' : OpEvent), i < j → pev[i]? = some event →
        pev[j]? = some event' → event.counterMask ≠ 0 → event'.counterMask ≠ 0 → xs[i]? ≠ xs[j]? := by
      intro i j event event' hij hi hj hmask hmask' heq
      obtain ⟨x, hx, hs⟩ := hsuits i event hi
      obtain ⟨y, hy, hs'⟩ := hsuits j event' hj
      obtain ⟨hi', rfl⟩ := List.getElem?_eq_some_iff.mp hx
      obtain ⟨hj', rfl⟩ := List.getElem?_eq_some_iff.mp hy
      rw [hx, hy, Option.some.injEq] at heq
      exact hnodup i j hi' hj' hij (by simpa using mt hs.eq_none_iff.mp hmask)
        (by simpa using mt hs'.eq_none_iff.mp hmask') heq
    intro i j event event' hi hj hmask hmask' heq
    rcases Nat.lt_trichotomy i j with hij | hij | hij
    · exact absurd heq (hne i j event event' hij hi hj hmask hmask')
    · exact hij
    · exact absurd heq.symm (hne j i event' event hij hj hi hmask' hmask)

theorem suitable_of_assigns (h : Assigns pev unavailable xs) : Suitable unavailable pev xs := by
  have hsuits : ∀ (i : Nat) (hi : i < pev.length) (hi' : i < xs.length), Suits unavailable pev[i] xs[i] := by
    intro i hi hi'
    have hpev := List.getElem?_eq_getElem hi
    by_cases hmask : pev[i].counterMask = 0
    · refine .inl ⟨hmask, ?_⟩
      have hx := (h.none_iff i _ hpev).mpr hmask
      rw [List.getElem?_eq_getElem hi', Option.some.injEq] at hx
      exact hx
    · obtain ⟨c, hc, hx, hhas, hfree⟩ := h.allowed i _ hpev hmask
      rw [List.getElem?_eq_getElem hi', Option.some.injEq] at hx
      exact .inr ⟨c, hc, hx, hhas, hfree⟩
  refine ⟨List.forall₂_iff_get.mpr ⟨h.length.symm, fun i hi hi' => hsuits i hi hi'⟩, ?_⟩
  rw [List.Nodup, List.pairwise_filter, List.pairwise_iff_getElem]
  intro i j hi hj hij hne hne' heq
  have hi' : i < pev.length := h.length ▸ hi
  have hj' : j < pev.length := h.length ▸ hj
  have hmask : pev[i].counterMask ≠ 0 := mt (hsuits i hi' hi).eq_none_iff.mpr (by simpa using hne)
  have hmask' : pev[j].counterMask ≠ 0 := mt (hsuits j hj' hj).eq_none_iff.mpr (by simpa using hne')
  have hidx := h.injective i j _ _ (List.getElem?_eq_getElem hi') (List.getElem?_eq_getElem hj') hmask
    hmask' (by rw [List.getElem?_eq_getElem hi, List.getElem?_eq_getElem hj, heq])
  omega

theorem assigns_iff : Assigns pev unavailable xs ↔ Suitable unavailable pev xs :=
  ⟨suitable_of_assigns, assigns_of_suitable⟩

theorem enoughCounters_iff {nrCounters nrPmcEvents : Nat} (h : nrPmcEvents ≤ nrCounters) :
    enoughCounters nrCounters pev nrPmcEvents = true ↔
      nrPmcEvents + pev.countP (·.ext = none) ≤ nrCounters := by
  induction pev generalizing nrPmcEvents with
  | nil => simpa [enoughCounters] using h
  | cons event pev ih =>
    rw [enoughCounters]
    by_cases hext : event.ext = none
    · rw [if_pos hext, List.countP_cons_of_pos (by simpa using hext)]
      by_cases hlt : nrCounters < nrPmcEvents + 1
      · rw [if_pos hlt]
        exact ⟨fun hf => (by cases hf), fun hle => absurd hle (by omega)⟩
      · rw [if_neg hlt, ih (by omega), Nat.add_right_comm, Nat.add_assoc]
    · rw [if_neg hext, ih h, List.countP_cons_of_neg (by simpa using hext)]

/-! The candidates of an event come in the order of the map's entries. -/

theorem entries_sorted {arcs : List Nat} (hlt : ∀ c ∈ arcs, c < 32) (h : arcs.Pairwise (· < ·)) :
    (entries arcs).Pairwise (· < ·) := by
  rw [entries]
  split_ifs
  · exact List.pairwise_singleton ..
  · rw [List.pairwise_map]
    refine h.imp_of_mem fun ha hb hab => ?_
    rw [UInt64.lt_iff_toNat_lt, ofNat_toNat (hlt _ ha), ofNat_toNat (hlt _ hb)]
    exact hab

theorem arcs_lt (pev : List OpEvent) : ∀ arcs ∈ buildCounterArc pev, ∀ c ∈ arcs, c < 32 := by
  intro arcs harcs c hc
  obtain ⟨event, -, rfl⟩ := List.mem_map.mp harcs
  exact (mem_arcs.mp hc).lt

theorem levels_sorted (pev : List OpEvent) :
    ∀ level ∈ (buildCounterArc pev).map entries, level.Pairwise (· < ·) := by
  intro level hlevel
  obtain ⟨arcs, harcs, rfl⟩ := List.mem_map.mp hlevel
  refine entries_sorted (arcs_lt pev arcs harcs) ?_
  obtain ⟨event, -, rfl⟩ := List.mem_map.mp harcs
  exact arcs_sorted event.counterMask

/-- With enough counters the map is what the search finds. -/
theorem mapWith_eq {nrCounters : Nat} (junk : UInt64) (h : pev.countP (·.ext = none) ≤ nrCounters) :
    mapWith nrCounters unavailable pev junk =
      Backtrack.search take ((buildCounterArc pev).map entries) unavailable := by
  have henough : enoughCounters nrCounters pev 0 = true :=
    (enoughCounters_iff (Nat.zero_le _)).mpr (by omega)
  have hlen : (List.replicate pev.length junk).length = (buildCounterArc pev).length := by
    rw [List.length_replicate, buildCounterArc, List.length_map]
  have hfills := allocateCounter_fills (arcs_lt pev) [] (List.replicate pev.length junk) unavailable hlen
  rw [mapWith, if_neg (by simpa using henough)]
  rw [List.nil_append, List.length_nil] at hfills
  cases hsearch : Backtrack.search take ((buildCounterArc pev).map entries) unavailable with
  | some xs =>
    rw [hsearch] at hfills
    change _ = _ at hfills
    rw [hfills]
    rfl
  | none =>
    rw [hsearch] at hfills
    obtain ⟨hfalse, rest, hmap, -⟩ := hfills
    have hpair : allocateCounter (buildCounterArc pev) 0 unavailable (List.replicate pev.length junk) =
        (false, [] ++ rest) := Prod.ext hfalse hmap
    rw [hpair]

theorem mapWith_none {nrCounters : Nat} (junk : UInt64) (h : nrCounters < pev.countP (·.ext = none)) :
    mapWith nrCounters unavailable pev junk = none := by
  refine if_pos fun henough => ?_
  have hle := (enoughCounters_iff (Nat.zero_le _)).mp henough
  omega

theorem mapWith_assigns {nrCounters : Nat} {junk : UInt64}
    (h : mapWith nrCounters unavailable pev junk = some counterMap) :
    Assigns pev unavailable counterMap ∧ ∀ counterMap', Assigns pev unavailable counterMap' →
      counterMap = counterMap' ∨ List.Lex (· < ·) counterMap counterMap' := by
  have hle : pev.countP (·.ext = none) ≤ nrCounters := by
    by_contra hgt
    rw [mapWith_none junk (by omega)] at h
    cases h
  rw [mapWith_eq junk hle] at h
  refine ⟨assigns_iff.mpr (path_iff.mp (Backtrack.search_sound h)), fun counterMap' h' => ?_⟩
  exact Backtrack.search_least (levels_sorted pev) h (path_iff.mpr (assigns_iff.mp h'))

theorem mapWith_eq_none_iff {nrCounters : Nat} {junk : UInt64} :
    mapWith nrCounters unavailable pev junk = none ↔
      nrCounters < pev.countP (·.ext = none) ∨ ¬ ∃ counterMap, Assigns pev unavailable counterMap := by
  constructor
  · intro h
    by_contra hnot
    rw [not_or, not_not] at hnot
    obtain ⟨hle, counterMap, hassigns⟩ := hnot
    rw [mapWith_eq junk (by omega)] at h
    have hsome := Backtrack.search_complete (path_iff.mpr (assigns_iff.mp hassigns))
    rw [h] at hsome
    cases hsome
  · rintro (hlt | hnone)
    · exact mapWith_none junk hlt
    · by_contra hsome
      obtain ⟨counterMap, h⟩ := Option.ne_none_iff_exists'.mp hsome
      exact hnone ⟨counterMap, (mapWith_assigns h).1⟩

/-- Allocation finds a map unless there is none, and the least one. -/
theorem counter_allocation (host : Host) (pev : List OpEvent) (cpuType : Nat) (junk : UInt64) :
    (mapEventToCounter host pev cpuType junk = none ↔
      (counters host cpuType).1 < pev.countP (·.ext = none) ∨
      ¬ ∃ counterMap, Assigns pev (counters host cpuType).2 counterMap) ∧
    ∀ counterMap, mapEventToCounter host pev cpuType junk = some counterMap →
      Assigns pev (counters host cpuType).2 counterMap ∧
      ∀ counterMap', Assigns pev (counters host cpuType).2 counterMap' →
        counterMap = counterMap' ∨ List.Lex (· < ·) counterMap counterMap' :=
  ⟨mapWith_eq_none_iff, fun _ h => mapWith_assigns h⟩

example : mapEventToCounter ⟨1, fun _ => 2, none, false⟩ [⟨2, none⟩, ⟨0, none⟩, ⟨1, none⟩] 2 0 =
    none := by decide

example : mapEventToCounter ⟨1, fun _ => 2, none, false⟩ [⟨3, none⟩, ⟨0, some ""⟩, ⟨1, none⟩] 2 0 =
    some [1, -1, 0] := by decide

end Oprofile.Libop
