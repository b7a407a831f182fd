import Oprofile.Daemon.Trans
import Mathlib.Algebra.BigOperators.Group.Finset.Basic

/-! The lists and the counter of the anonymous mappings, over any sequence of lookups (`opd_anon.c`). -/
namespace Oprofile.Daemon

open DaemonState
open SampleNames (Text)

namespace AnonMaps

/-- The LRU list has every mapping once, the chains have every mapping once in its own chain, and all agree with the
counter, which is below the limit. -/
structure Consistent (x : AnonMaps) : Prop where
  counted : x.nrLru = x.lru.length
  chained : x.nrLru = ∑ i ∈ Finset.range 1024, (x.hashes (UInt64.ofNat i)).length
  lru_once : x.lru.Nodup
  lru_mem : ∀ a, a ∈ x.lru ↔ ∃ m, x.anons a = some m
  chain_once : ∀ h, (x.hashes h).Nodup
  chain_mem : ∀ h a, a ∈ x.hashes h ↔ ∃ m, x.anons a = some m ∧ hashAnon m.tgid m.appCookie = h
  bounded : x.nrLru < anonLruSize

/-- What each operation on the lists keeps; the limit may be reached for a moment. -/
structure Linked (x : AnonMaps) : Prop where
  counted : x.nrLru = x.lru.length
  lru_once : x.lru.Nodup
  lru_mem : ∀ a, a ∈ x.lru ↔ ∃ m, x.anons a = some m
  chain_once : ∀ h, (x.hashes h).Nodup
  chain_mem : ∀ h a, a ∈ x.hashes h ↔ ∃ m, x.anons a = some m ∧ hashAnon m.tgid m.appCookie = h
  fresh : ∀ a, x.nextAnon ≤ a → x.anons a = none

variable {x : AnonMaps} {a : Nat}

theorem Linked.remove (hx : x.Linked) (ha : a ∈ x.lru) : (x.remove a).Linked where
  counted := by
    have hlen := List.length_erase_of_mem ha
    show x.nrLru - 1 = (x.lru.erase a).length
    rw [hlen, hx.counted]
  lru_once := hx.lru_once.erase a
  lru_mem := by
    intro b
    show b ∈ x.lru.erase a ↔ ∃ m, (if b = a then none else x.anons b) = some m
    rw [hx.lru_once.mem_erase_iff, hx.lru_mem]
    by_cases hb : b = a
    · simp [hb]
    · simp [hb]
  chain_once := fun h => (hx.chain_once h).erase a
  chain_mem := by
    intro h b
    show b ∈ (x.hashes h).erase a ↔ ∃ m, (if b = a then none else x.anons b) = some m ∧ _
    rw [(hx.chain_once h).mem_erase_iff, hx.chain_mem]
    by_cases hb : b = a
    · simp [hb]
    · simp [hb]
  fresh := by
    intro b hb
    show (if b = a then none else x.anons b) = none
    split_ifs
    · rfl
    · exact hx.fresh b hb

theorem Linked.insert (hx : x.Linked) (m : AnonMapping) : (x.insert m).Linked := by
  have hnew : x.nextAnon ∉ x.lru := by
    intro hmem
    obtain ⟨m', hm'⟩ := (hx.lru_mem _).mp hmem
    rw [hx.fresh _ (Nat.le_refl _)] at hm'
    cases hm'
  have hchains : ∀ h, x.nextAnon ∉ x.hashes h := by
    intro h hmem
    obtain ⟨m', hm', -⟩ := (hx.chain_mem h _).mp hmem
    rw [hx.fresh _ (Nat.le_refl _)] at hm'
    cases hm'
  constructor
  · show x.nrLru + 1 = (x.lru ++ [x.nextAnon]).length
    rw [List.length_append, List.length_singleton, hx.counted]
  · exact List.nodup_append.mpr ⟨hx.lru_once, List.nodup_singleton _, fun b hb c hc =>
      ne_of_mem_of_not_mem hb (List.mem_singleton.mp hc ▸ hnew)⟩
  · intro b
    show b ∈ x.lru ++ [x.nextAnon] ↔ ∃ m', (if b = x.nextAnon then some m else x.anons b) = some m'
    rw [List.mem_append, List.mem_singleton, hx.lru_mem]
    by_cases hb : b = x.nextAnon
    · simp [hb]
    · simp [hb]
  · intro h
    show (if h = hashAnon m.tgid m.appCookie then x.hashes h ++ [x.nextAnon] else x.hashes h).Nodup
    split_ifs
    · exact List.nodup_append.mpr ⟨hx.chain_once h, List.nodup_singleton _, fun b hb c hc =>
        ne_of_mem_of_not_mem hb (List.mem_singleton.mp hc ▸ hchains h)⟩
    · exact hx.chain_once h
  · intro h b
    show b ∈ (if h = hashAnon m.tgid m.appCookie then x.hashes h ++ [x.nextAnon] else x.hashes h) ↔
      ∃ m', (if b = x.nextAnon then some m else x.anons b) = some m' ∧ hashAnon m'.tgid m'.appCookie = h
    by_cases hb : b = x.nextAnon
    · subst b
      rw [if_pos rfl]
      by_cases hh : h = hashAnon m.tgid m.appCookie
      · rw [if_pos hh]
        exact iff_of_true (List.mem_append_right _ List.mem_cons_self) ⟨m, rfl, hh.symm⟩
      · rw [if_neg hh]
        refine iff_of_false (hchains h) ?_
        rintro ⟨m', hm', hhash⟩
        cases hm'
        exact hh hhash.symm
    · rw [if_neg hb, ← hx.chain_mem h b]
      split_ifs
      · rw [List.mem_append, List.mem_singleton]
        exact or_iff_left hb
      · rfl
  · intro b hb
    have hlate : x.nextAnon + 1 ≤ b := hb
    show (if b = x.nextAnon then some m else x.anons b) = none
    rw [if_neg (by omega)]
    exact hx.fresh b (by omega)

theorem Linked.toFront (hx : x.Linked) {hash : UInt64} (ha : a ∈ x.hashes hash) : (x.toFront hash a).Linked := by
  have hperm : ∀ h, ((x.toFront hash a).hashes h).Perm (x.hashes h) := by
    intro h
    show (if h = hash then a :: (x.hashes h).erase a else x.hashes h).Perm (x.hashes h)
    split_ifs with hh
    · subst h
      exact (List.perm_cons_erase ha).symm
    · exact List.Perm.refl _
  exact
    { counted := hx.counted
      lru_once := hx.lru_once
      lru_mem := hx.lru_mem
      chain_once := fun h => (hperm h).nodup_iff.mpr (hx.chain_once h)
      chain_mem := fun h b => (hperm h).mem_iff.trans (hx.chain_mem h b)
      fresh := hx.fresh }

theorem hashAnon_toNat_lt (tgid : Int32) (app : UInt64) : (hashAnon tgid app).toNat < 1024 := by
  rw [hashAnon, UInt64.toNat_and]
  exact Nat.lt_of_le_of_lt Nat.and_le_right (by decide)

/-- The chains together are as long as the LRU list. -/
theorem Linked.sum_chains (hx : x.Linked) :
    ∑ i ∈ Finset.range 1024, (x.hashes (UInt64.ofNat i)).length = x.lru.length := by
  let chainOf (a : Nat) : Nat := ((x.anons a).map fun m => (hashAnon m.tgid m.appCookie).toNat).getD 0
  have hmaps : ∀ a ∈ x.lru.toFinset, chainOf a ∈ Finset.range 1024 := by
    intro a ha
    obtain ⟨m, hm⟩ := (hx.lru_mem a).mp (List.mem_toFinset.mp ha)
    have hchain : chainOf a = (hashAnon m.tgid m.appCookie).toNat := by simp only [chainOf, hm, Option.map_some, Option.getD_some]
    rw [hchain]
    exact Finset.mem_range.mpr (hashAnon_toNat_lt _ _)
  have hfiber : ∀ i ∈ Finset.range 1024,
      (x.lru.toFinset.filter (chainOf · = i)).card = (x.hashes (UInt64.ofNat i)).length := by
    intro i hi
    have hsame : x.lru.toFinset.filter (chainOf · = i) = (x.hashes (UInt64.ofNat i)).toFinset := by
      ext a
      rw [Finset.mem_filter, List.mem_toFinset, List.mem_toFinset, hx.lru_mem, hx.chain_mem]
      have hvalue : (UInt64.ofNat i).toNat = i := by
        have hlt := Finset.mem_range.mp hi
        rw [UInt64.toNat_ofNat', Nat.mod_eq_of_lt (by omega)]
      constructor
      · rintro ⟨⟨m, hm⟩, hchain⟩
        simp only [chainOf, hm, Option.map_some, Option.getD_some] at hchain
        exact ⟨m, hm, UInt64.toNat_inj.mp (by rw [hchain, hvalue])⟩
      · rintro ⟨m, hm, hhash⟩
        refine ⟨⟨m, hm⟩, ?_⟩
        simp only [chainOf, hm, Option.map_some, Option.getD_some]
        rw [hhash, hvalue]
    rw [hsame, List.toFinset_card_of_nodup (hx.chain_once _)]
  rw [← Finset.sum_congr rfl hfiber, ← Finset.card_eq_sum_card_fiberwise hmaps, List.toFinset_card_of_nodup hx.lru_once]

theorem Linked.consistent (hx : x.Linked) (hbound : x.nrLru < anonLruSize) : x.Consistent where
  counted := hx.counted
  chained := by rw [hx.sum_chains, hx.counted]
  lru_once := hx.lru_once
  lru_mem := hx.lru_mem
  chain_once := hx.chain_once
  chain_mem := hx.chain_mem
  bounded := hbound

end AnonMaps

variable {s s' : DaemonState} {sur : Surroundings} {a : Nat}

/-- What a lookup goes by stays the same. -/
structure SameTask (s s' : DaemonState) : Prop where
  tgid : s'.trans.tgid = s.trans.tgid
  appCookie : s'.trans.appCookie = s.trans.appCookie
  pc : s'.trans.pc = s.trans.pc

theorem SameTask.refl (s : DaemonState) : SameTask s s := ⟨rfl, rfl, rfl⟩

theorem SameTask.trans {t : DaemonState} (h₁ : SameTask s s') (h₂ : SameTask s' t) : SameTask s t :=
  ⟨h₂.tgid.trans h₁.tgid, h₂.appCookie.trans h₁.appCookie, h₂.pc.trans h₁.pc⟩

theorem SameTask.foldl {α : Type} {f : DaemonState → α → DaemonState} (hf : ∀ s x, SameTask s (f s x)) (xs : List α)
    (s : DaemonState) : SameTask s (xs.foldl f s) := by
  induction xs generalizing s with
  | nil => exact SameTask.refl s
  | cons x xs ih => exact (hf s x).trans (ih (f s x))

theorem freeAnon_task (s : DaemonState) (a : Nat) : SameTask s (s.freeAnon a) := by
  rw [freeAnon]
  split_ifs
  · exact ⟨rfl, rfl, rfl⟩
  · exact ⟨rfl, rfl, rfl⟩

theorem freeAnon_anons (s : DaemonState) (a : Nat) : (s.freeAnon a).anons = s.anons.remove a := by
  rw [freeAnon]
  split_ifs
  · rfl
  · rfl

/-- Mappings of the LRU list are freed one after the other. -/
theorem free_linked {f : DaemonState → Nat → DaemonState} (hf : ∀ s a, (f s a).anons = s.anons.remove a) (dead : List Nat)
    (s : DaemonState) (hs : s.anons.Linked) (hdead : dead.Nodup) (hmem : ∀ a ∈ dead, a ∈ s.anons.lru) :
    (dead.foldl f s).anons.Linked ∧ (dead.foldl f s).anons.nrLru + dead.length = s.anons.nrLru := by
  induction dead generalizing s with
  | nil => exact ⟨hs, rfl⟩
  | cons a dead ih =>
    obtain ⟨ha, hrest⟩ := List.nodup_cons.mp hdead
    have hlru := hmem a List.mem_cons_self
    have hfree : (f s a).anons.Linked := by
      rw [hf]
      exact hs.remove hlru
    have hlater : ∀ b ∈ dead, b ∈ (f s a).anons.lru := by
      intro b hb
      rw [hf]
      exact (hs.lru_once.mem_erase_iff).mpr ⟨ne_of_mem_of_not_mem hb ha, hmem b (List.mem_cons_of_mem a hb)⟩
    obtain ⟨hlinked, hcount⟩ := ih (f s a) hfree hrest hlater
    refine ⟨hlinked, ?_⟩
    have hless : (f s a).anons.nrLru = s.anons.nrLru - 1 := by
      rw [hf]
      rfl
    have hpos : 0 < s.anons.nrLru := by
      rw [hs.counted]
      exact List.length_pos_of_mem hlru
    rw [List.foldl_cons, List.length_cons]
    omega

/-- `do_lru` frees more than an eighth of a full cache. -/
theorem doLru_linked (hs : s.anons.Linked) (hfull : s.anons.nrLru = anonLruSize) :
    s.doLru.anons.Linked ∧ s.doLru.anons.nrLru < anonLruSize := by
  have hfree : ∀ (s : DaemonState) (a : Nat),
      ((if s.trans.anon = some a then s.clearTransCurrent else s).freeAnon a).anons = s.anons.remove a := by
    intro s a
    rw [freeAnon_anons]
    split_ifs
    · rfl
    · rfl
  obtain ⟨hlinked, hcount⟩ := free_linked hfree (s.anons.lru.take (anonLruAmount + 1)) s hs
    (hs.lru_once.sublist (List.take_sublist ..)) fun a ha => List.mem_of_mem_take ha
  have hlength : (s.anons.lru.take (anonLruAmount + 1)).length = 1025 := by
    rw [List.length_take, ← hs.counted, hfull]
    rfl
  rw [hlength, hfull] at hcount
  rw [doLru]
  exact ⟨hlinked, by omega⟩

theorem doLru_task (s : DaemonState) : SameTask s s.doLru := by
  apply SameTask.foldl
  intro s a
  split_ifs
  · exact (SameTask.mk rfl rfl rfl : SameTask s s.clearTransCurrent).trans (freeAnon_task _ a)
  · exact freeAnon_task s a

/-- The cache between two insertions. -/
def Ready (s : DaemonState) : Prop := s.anons.Linked ∧ s.anons.nrLru < anonLruSize

theorem addAnonMapping_ready (hs : Ready s) (start stop : UInt64) (name : Text) : Ready (s.addAnonMapping start stop name) := by
  obtain ⟨hlinked, hbound⟩ := hs
  have hinsert := hlinked.insert ⟨start, stop, s.trans.tgid, s.trans.appCookie, name⟩
  have hcount : (s.anons.insert ⟨start, stop, s.trans.tgid, s.trans.appCookie, name⟩).nrLru = s.anons.nrLru + 1 := rfl
  rw [addAnonMapping]
  by_cases hfull : (s.allocAnon ⟨start, stop, s.trans.tgid, s.trans.appCookie, name⟩).anons.nrLru = anonLruSize
  · rw [if_pos hfull]
    exact doLru_linked hinsert hfull
  · rw [if_neg hfull]
    have hnot : s.anons.nrLru + 1 ≠ anonLruSize := hfull
    exact ⟨hinsert, by show s.anons.nrLru + 1 < anonLruSize; omega⟩

theorem addAnonMapping_task (s : DaemonState) (start stop : UInt64) (name : Text) :
    SameTask s (s.addAnonMapping start stop name) := by
  rw [addAnonMapping]
  split_ifs
  · exact (SameTask.mk rfl rfl rfl : SameTask s (s.allocAnon _)).trans (doLru_task _)
  · exact ⟨rfl, rfl, rfl⟩

theorem getAnonLine_ready (hs : Ready s) (line : MapsLine) : Ready (s.getAnonLine line) := by
  rw [getAnonLine]
  split_ifs
  · exact hs
  · exact addAnonMapping_ready hs ..

theorem getAnonLine_task (s : DaemonState) (line : MapsLine) : SameTask s (s.getAnonLine line) := by
  rw [getAnonLine]
  split_ifs
  · exact SameTask.refl s
  · exact addAnonMapping_task ..

theorem getAnonMaps_ready (hs : Ready s) (sur : Surroundings) : Ready (s.getAnonMaps sur) := by
  rw [getAnonMaps]
  have hstart : Ready { s with mapsRead := s.mapsRead + 1 } := hs
  generalize { s with mapsRead := s.mapsRead + 1 } = s₁ at hstart
  induction sur.maps s.mapsRead s.trans.tgid generalizing s₁ with
  | nil => exact hstart
  | cons line lines ih => exact ih (s₁.getAnonLine line) (getAnonLine_ready hstart line)

theorem getAnonMaps_task (s : DaemonState) (sur : Surroundings) : SameTask s (s.getAnonMaps sur) :=
  (SameTask.mk rfl rfl rfl : SameTask s { s with mapsRead := s.mapsRead + 1 }).trans (SameTask.foldl getAnonLine_task _ _)

theorem clearAnonMaps_ready (hs : Ready s) : Ready s.clearAnonMaps := by
  obtain ⟨hlinked, hbound⟩ := hs
  have hmem : ∀ a ∈ (s.anons.hashes (hashAnon s.trans.tgid s.trans.appCookie)).filter s.ofTask, a ∈ s.anons.lru := by
    intro a ha
    obtain ⟨m, hm, -⟩ := (hlinked.chain_mem _ a).mp (List.mem_of_mem_filter ha)
    exact (hlinked.lru_mem a).mpr ⟨m, hm⟩
  obtain ⟨hfree, hcount⟩ := free_linked freeAnon_anons _ s.clearTransCurrent hlinked ((hlinked.chain_once _).filter _) hmem
  rw [Ready, clearAnonMaps]
  refine ⟨hfree, ?_⟩
  have hsame : s.clearTransCurrent.anons.nrLru = s.anons.nrLru := rfl
  omega

theorem clearAnonMaps_task (s : DaemonState) : SameTask s s.clearAnonMaps :=
  (SameTask.mk rfl rfl rfl : SameTask s s.clearTransCurrent).trans (SameTask.foldl freeAnon_task _ _)

/-- A mapping that a transient can be given: it is that of its process and application, and has its address. -/
def Matches (t : Transient) (m : AnonMapping) : Prop :=
  m.tgid = t.tgid ∧ m.appCookie = t.appCookie ∧ m.start ≤ t.pc ∧ t.pc < m.stop

theorem anonMatch_matches (h : s.anonMatch a = true) : ∃ m, s.anons.anons a = some m ∧ Matches s.trans m := by
  rw [anonMatch] at h
  cases hm : s.anons.anons a with
  | none =>
    rw [hm] at h
    cases h
  | some m =>
    rw [hm] at h
    dsimp only at h
    split_ifs at h with htgid happ hlow
    refine ⟨m, rfl, ?_, ?_, UInt64.not_lt.mp hlow, of_decide_eq_true h⟩
    · exact (not_not.mp htgid).symm
    · exact (not_not.mp happ).symm

/-- A mapping that is found in its chain is moved to the front of it. -/
theorem foundAnon_spec (hs : Ready s) (hfound : s.lookUpAnon = some a) :
    Ready (s.foundAnon a) ∧ ∃ m, (s.foundAnon a).anons.anons a = some m ∧ Matches s.trans m := by
  obtain ⟨hlinked, hbound⟩ := hs
  have hchain := List.mem_of_find?_eq_some hfound
  obtain ⟨m, hm, hmatches⟩ := anonMatch_matches (List.find?_some hfound)
  exact ⟨⟨hlinked.toFront hchain, hbound⟩, m, hm, hmatches⟩

/-- `find_anon_mapping` keeps the lists and the counter, and what it returns is live and fits the transient. -/
theorem findAnonMapping_spec (hs : Ready s) (sur : Surroundings) :
    Ready (s.findAnonMapping sur).2 ∧ ∀ a, (s.findAnonMapping sur).1 = some a →
      ∃ m, (s.findAnonMapping sur).2.anons.anons a = some m ∧ Matches s.trans m := by
  rw [findAnonMapping]
  by_cases hcached : s.trans.anon.any s.anonMatch = true
  · rw [if_pos hcached]
    refine ⟨hs, ?_⟩
    intro a ha
    rw [show s.trans.anon = some a from ha] at hcached
    exact anonMatch_matches hcached
  · rw [if_neg hcached]
    cases hfound : s.lookUpAnon with
    | some a =>
      obtain ⟨hready, hlive⟩ := foundAnon_spec hs hfound
      refine ⟨hready, ?_⟩
      rintro b ⟨⟩
      exact hlive
    | none =>
      have hready : Ready (s.clearAnonMaps.getAnonMaps sur) := getAnonMaps_ready (clearAnonMaps_ready hs) sur
      obtain ⟨htgid, happ, hpc⟩ := (clearAnonMaps_task s).trans (getAnonMaps_task s.clearAnonMaps sur)
      dsimp only
      cases hlater : (s.clearAnonMaps.getAnonMaps sur).lookUpAnon with
      | some a =>
        obtain ⟨hready', m, hm, hmatches⟩ := foundAnon_spec hready hlater
        refine ⟨hready', ?_⟩
        rintro b ⟨⟩
        rw [Matches, htgid, happ, hpc] at hmatches
        exact ⟨m, hm, hmatches⟩
      | none =>
        refine ⟨hready, ?_⟩
        rintro b ⟨⟩

/-! ### Runs -/

/-- A call of `find_anon_mapping`: the transient, whether its `anon` still has what the last call returned (it is
`NULL` otherwise), and what is in the files that are read. -/
structure AnonLookup where
  trans : Transient
  cached : Bool
  sur : Surroundings

/-- What a call starts from. -/
def AnonLookup.start (c : AnonLookup) (s : DaemonState) : DaemonState :=
  { s with trans := { c.trans with anon := if c.cached then s.trans.anon else none } }

/-- The state after some calls; each leaves what it returns in `trans->anon`. -/
def lookUps (s : DaemonState) (calls : List AnonLookup) : DaemonState :=
  calls.foldl (fun s c => setAnon ((c.start s).findAnonMapping c.sur)) s

/-- The cache between two calls, and what `trans->anon` points to. -/
def Kept (s : DaemonState) : Prop := Ready s ∧ ∀ a, s.trans.anon = some a → ∃ m, s.anons.anons a = some m

theorem kept_init (images : KernelImages) : Kept (.init images) := by
  refine ⟨⟨⟨rfl, List.nodup_nil, ?_, fun _ => List.nodup_nil, ?_, fun _ _ => rfl⟩, Nat.zero_lt_succ _⟩, ?_⟩
  · intro a
    refine iff_of_false List.not_mem_nil ?_
    rintro ⟨m, hm⟩
    cases hm
  · intro h a
    refine iff_of_false List.not_mem_nil ?_
    rintro ⟨m, hm, -⟩
    cases hm
  · intro a ha
    cases ha

theorem lookUp_kept (hs : Kept s) (c : AnonLookup) : Kept (setAnon ((c.start s).findAnonMapping c.sur)) := by
  have hstart : Ready (c.start s) := hs.1
  obtain ⟨hready, hlive⟩ := findAnonMapping_spec hstart c.sur
  refine ⟨hready, ?_⟩
  intro a ha
  obtain ⟨m, hm, -⟩ := hlive a ha
  exact ⟨m, hm⟩

theorem lookUps_kept (hs : Kept s) (calls : List AnonLookup) : Kept (lookUps s calls) := by
  induction calls generalizing s with
  | nil => exact hs
  | cons c calls ih => exact ih (lookUp_kept hs c)

/-- Between any calls of `find_anon_mapping` the lists and the counter agree, and each call returns a live mapping that
fits its transient, if any. -/
theorem anonCache_consistent (images : KernelImages) (calls : List AnonLookup) (c : AnonLookup) :
    (lookUps (.init images) calls).anons.Consistent ∧
      (∀ a, (lookUps (.init images) calls).trans.anon = some a →
        ∃ m, (lookUps (.init images) calls).anons.anons a = some m) ∧
      ∀ a, ((c.start (lookUps (.init images) calls)).findAnonMapping c.sur).1 = some a →
        ∃ m, ((c.start (lookUps (.init images) calls)).findAnonMapping c.sur).2.anons.anons a = some m ∧
          Matches c.trans m := by
  obtain ⟨⟨hlinked, hbound⟩, hlive⟩ := lookUps_kept (kept_init images) calls
  have hstart : Ready (c.start (lookUps (.init images) calls)) := ⟨hlinked, hbound⟩
  exact ⟨hlinked.consistent hbound, hlive, (findAnonMapping_spec hstart c.sur).2⟩

end Oprofile.Daemon
