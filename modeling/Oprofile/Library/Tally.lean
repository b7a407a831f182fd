import Mathlib.Data.List.Nodup
import Mathlib.Data.List.Induction
import Mathlib.Algebra.BigOperators.Group.List.Basic
import Mathlib.Tactic.Linarith

/-! Association lists that are updated in place or extended at the end: tables of counts. -/
namespace Tally

variable {K V : Type*} [DecidableEq K] {k k' : K} {f : V → V} {v v₀ : V} {l : List (K × V)}

/-- Apply `f` to the value of `k`; a key that is not present is appended with value `v₀`. -/
def upsert (k : K) (f : V → V) (v₀ : V) : List (K × V) → List (K × V)
  | [] => [(k, v₀)]
  | (k', v) :: l => if k' = k then (k', f v) :: l else (k', v) :: upsert k f v₀ l

def find (k : K) : List (K × V) → Option V
  | [] => none
  | (k', v) :: l => if k' = k then some v else find k l

theorem find_eq_none_iff : find k l = none ↔ k ∉ l.map Prod.fst := by
  induction l with
  | nil => simp [find]
  | cons e l ih =>
    obtain ⟨k', v⟩ := e
    by_cases h : k' = k
    · simp [find, h]
    · simp [find, h, ih, Ne.symm h]

/-- Once keys are distinct, membership and lookup agree. -/
theorem mem_iff_find (hd : (l.map Prod.fst).Nodup) : (k, v) ∈ l ↔ find k l = some v := by
  induction l with
  | nil => simp [find]
  | cons e l ih =>
    obtain ⟨k', v'⟩ := e
    rw [List.map_cons, List.nodup_cons] at hd
    by_cases h : k' = k
    · subst h
      have hn : (k', v) ∉ l := fun hm => hd.1 (List.mem_map.mpr ⟨_, hm, rfl⟩)
      simp [find, hn, eq_comm]
    · simp [find, h, ih hd.2, Ne.symm h]

theorem keys_upsert_of_mem (h : k ∈ l.map Prod.fst) :
    (upsert k f v₀ l).map Prod.fst = l.map Prod.fst := by
  induction l with
  | nil => cases h
  | cons e l ih =>
    obtain ⟨k', v⟩ := e
    by_cases he : k' = k
    · simp [upsert, he]
    · have hm : k ∈ l.map Prod.fst := by simpa [Ne.symm he] using h
      simp [upsert, he, ih hm]

theorem upsert_of_not_mem (h : k ∉ l.map Prod.fst) : upsert k f v₀ l = l ++ [(k, v₀)] := by
  induction l with
  | nil => rfl
  | cons e l ih =>
    obtain ⟨k', v⟩ := e
    have hne : k' ≠ k := by
      rintro rfl
      simp at h
    have hl : k ∉ l.map Prod.fst := fun hm => h (List.mem_cons_of_mem _ hm)
    simp [upsert, hne, ih hl]

/-- Updating a key that stands at position `i` rewrites that entry. -/
theorem upsert_eq_set {i : Nat} (hd : (l.map Prod.fst).Nodup) (hi : l[i]? = some (k, v)) :
    upsert k f v₀ l = l.set i (k, f v) := by
  induction l generalizing i with
  | nil => simp at hi
  | cons e l ih =>
    obtain ⟨k', v'⟩ := e
    rw [List.map_cons, List.nodup_cons] at hd
    cases i with
    | zero =>
      simp only [List.getElem?_cons_zero, Option.some.injEq, Prod.mk.injEq] at hi
      obtain ⟨rfl, rfl⟩ := hi
      simp [upsert]
    | succ i =>
      simp only [List.getElem?_cons_succ] at hi
      have hm : k ∈ l.map Prod.fst :=
        List.mem_map_of_mem (f := Prod.fst) (List.mem_of_getElem? hi)
      have hne : k' ≠ k := by
        rintro rfl
        exact hd.1 hm
      simp [upsert, hne, ih hd.2 hi]

theorem mem_keys_upsert : k' ∈ (upsert k f v₀ l).map Prod.fst ↔
    k' = k ∨ k' ∈ l.map Prod.fst := by
  by_cases h : k ∈ l.map Prod.fst
  · rw [keys_upsert_of_mem h]
    constructor
    · exact Or.inr
    · rintro (rfl | hm)
      · exact h
      · exact hm
  · rw [upsert_of_not_mem h]
    simp [or_comm]

theorem nodup_upsert (hd : (l.map Prod.fst).Nodup) :
    ((upsert k f v₀ l).map Prod.fst).Nodup := by
  by_cases h : k ∈ l.map Prod.fst
  · rwa [keys_upsert_of_mem h]
  · rw [upsert_of_not_mem h, List.map_append, List.nodup_append]
    refine ⟨hd, by simp, ?_⟩
    intro a ha b hb
    simp only [List.map_cons, List.map_nil, List.mem_singleton] at hb
    rintro rfl
    exact h (hb ▸ ha)

theorem find_upsert : find k' (upsert k f v₀ l) =
    if k' = k then some ((find k l).elim v₀ f) else find k' l := by
  induction l with
  | nil =>
    by_cases h : k = k'
    · simp [upsert, find, h]
    · simp [upsert, find, h, Ne.symm h]
  | cons e l ih =>
    obtain ⟨a, v⟩ := e
    by_cases ha : a = k
    · subst ha
      by_cases h : a = k'
      · subst h
        simp [upsert, find]
      · simp [upsert, find, h, Ne.symm h]
    · by_cases h : a = k'
      · subst h
        simp [upsert, find, ha]
      · simp only [upsert, if_neg ha, find, if_neg h, ih]

/-- A weight that an update raises by `d` goes up by `d` in the sum over the table. -/
theorem sum_upsert {M : Type*} [AddCommMonoid M] (w : K → V → M) {d : M} (hf : ∀ v, w k (f v) = w k v + d)
    (h₀ : w k v₀ = d) :
    ((upsert k f v₀ l).map fun e => w e.1 e.2).sum = (l.map fun e => w e.1 e.2).sum + d := by
  induction l with
  | nil => simp [upsert, h₀]
  | cons e l ih =>
    obtain ⟨k', v⟩ := e
    rw [upsert]
    split_ifs with hk
    · subst hk
      simp only [List.map_cons, List.sum_cons, hf]
      exact add_right_comm _ _ _
    · simp only [List.map_cons, List.sum_cons, ih]
      exact (add_assoc _ _ _).symm

/-- The table of counts of a list of (key, amount) pairs, under an addition that may lose. -/
def tally (add : V → V → V) (init : V → V) (ps : List (K × V)) : List (K × V) :=
  ps.foldl (fun l p => upsert p.1 (fun v => add v p.2) (init p.2) l) []

/-- What is passed for one key, in total. -/
def total (k : K) (ps : List (K × Nat)) : Nat :=
  ((ps.filter fun p => p.1 = k).map Prod.snd).sum

theorem tally_append (add : V → V → V) (init : V → V) (ps : List (K × V)) (p : K × V) :
    tally add init (ps ++ [p]) =
      upsert p.1 (fun v => add v p.2) (init p.2) (tally add init ps) := by
  simp [tally]

theorem total_append (k : K) (ps : List (K × Nat)) (p : K × Nat) :
    total k (ps ++ [p]) = total k ps + if p.1 = k then p.2 else 0 := by
  by_cases h : p.1 = k <;> simp [total, h]

theorem total_le (k : K) (ps : List (K × Nat)) : total k ps ≤ (ps.map Prod.snd).sum := by
  induction ps using List.reverseRecOn with
  | nil => exact Nat.le_refl 0
  | append_singleton ps p ih =>
    rw [total_append, List.map_append, List.sum_append]
    split_ifs <;> simp <;> omega

theorem mem_keys_tally (add : V → V → V) (init : V → V) (ps : List (K × V)) :
    k ∈ (tally add init ps).map Prod.fst ↔ k ∈ ps.map Prod.fst := by
  induction ps using List.reverseRecOn with
  | nil => simp [tally]
  | append_singleton ps p ih =>
    rw [tally_append, mem_keys_upsert, ih]
    simp [or_comm]

/-- While an addition is exact below a limit, a key whose total stays below holds its total. -/
theorem find_tally {add : Nat → Nat → Nat} {init : Nat → Nat} {limit : Nat}
    (hadd : ∀ v n, v + n < limit → add v n = v + n) (hinit : ∀ n, n < limit → init n = n)
    (ps : List (K × Nat)) (hk : k ∈ ps.map Prod.fst) (ht : total k ps < limit) :
    find k (tally add init ps) = some (total k ps) := by
  induction ps using List.reverseRecOn with
  | nil => cases hk
  | append_singleton ps p ih =>
    rw [tally_append, find_upsert]
    rw [total_append] at ht ⊢
    by_cases hp : p.1 = k
    · subst hp
      rw [if_pos rfl] at ht
      rw [if_pos rfl, if_pos rfl]
      by_cases hm : p.1 ∈ ps.map Prod.fst
      · rw [ih hm (by omega)]
        simp [hadd _ _ ht]
      · have hnone : find p.1 (tally add init ps) = none :=
          find_eq_none_iff.mpr (fun h => hm ((mem_keys_tally ..).mp h))
        have hzero : total p.1 ps = 0 := by
          have hf : (ps.filter fun q => q.1 = p.1) = [] := by
            rw [List.filter_eq_nil_iff]
            intro q hq
            simp only [decide_eq_true_eq]
            intro he
            exact hm (he ▸ List.mem_map_of_mem (f := Prod.fst) hq)
          simp [total, hf]
        rw [hnone, hzero]
        simp only [Option.elim_none, Nat.zero_add]
        rw [hinit _ (by omega)]
    · rw [if_neg hp] at ht ⊢
      rw [if_neg (Ne.symm hp), Nat.add_zero]
      have hm : k ∈ ps.map Prod.fst := by
        simpa [Ne.symm hp] using hk
      exact ih hm (by omega)

theorem upsert_congr {g : V → V} {w₀ : V} (hf : ∀ v, find k l = some v → f v = g v) (h₀ : v₀ = w₀) :
    upsert k f v₀ l = upsert k g w₀ l := by
  induction l with
  | nil => rw [upsert, upsert, h₀]
  | cons e l ih =>
    obtain ⟨k', v⟩ := e
    rw [upsert, upsert]
    split_ifs with hk
    · rw [hf v (by rw [find, if_pos hk])]
    · rw [ih]
      intro w hw
      exact hf w (by rw [find, if_neg hk, hw])

/-- Where no total reaches the limit, nothing is lost. -/
theorem tally_exact {add : Nat → Nat → Nat} {init : Nat → Nat} {limit : Nat}
    (hadd : ∀ v n, v + n < limit → add v n = v + n) (hinit : ∀ n, n < limit → init n = n)
    (ps : List (K × Nat)) (ht : ∀ k, total k ps < limit) : tally add init ps = tally (· + ·) id ps := by
  induction ps using List.reverseRecOn with
  | nil => rfl
  | append_singleton ps p ih =>
    have hless : ∀ k, total k ps < limit := by
      intro k
      have hk := ht k
      rw [total_append] at hk
      omega
    have hp := ht p.1
    rw [total_append, if_pos rfl] at hp
    rw [tally_append, tally_append, ih hless]
    refine upsert_congr ?_ (hinit p.2 (by omega))
    intro v hv
    have hmem : p.1 ∈ ps.map Prod.fst := by
      by_contra hn
      rw [← mem_keys_tally (· + ·) id, ← find_eq_none_iff, hv] at hn
      cases hn
    have htotal : find p.1 (tally (· + ·) id ps) = some (total p.1 ps) :=
      find_tally (fun _ _ _ => rfl) (fun _ _ => rfl) ps hmem (hless p.1)
    rw [hv] at htotal
    rw [Option.some.inj htotal]
    exact hadd _ _ hp

/-- A weight that respects addition sums to the same over the table and over what was passed. -/
theorem sum_tally {M : Type*} [AddCommMonoid M] (w : K → Nat → M) (hw : ∀ k v n, w k (v + n) = w k v + w k n)
    (ps : List (K × Nat)) :
    ((tally (· + ·) id ps).map fun e => w e.1 e.2).sum = (ps.map fun e => w e.1 e.2).sum := by
  induction ps using List.reverseRecOn with
  | nil => rfl
  | append_singleton ps p ih =>
    have h₀ : w p.1 (id p.2) = w p.1 p.2 := rfl
    rw [tally_append, sum_upsert w (fun v => hw p.1 v p.2) h₀, ih]
    simp

end Tally
