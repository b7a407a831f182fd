import Oprofile.Library.KeyMap
import Mathlib.Data.List.Nodup
import Mathlib.Tactic.Linarith

/-! Tables that give each name an index when it is first met, and that are emptied name by name. -/
namespace Interning

variable {K A : Type} [DecidableEq K]

/-- The names met so far, the newest last, with the indices from 0 on. -/
structure Table (K : Type) where
  entries : List (K × Nat)
  next : Nat
  nodup : (entries.map Prod.fst).Nodup
  counted : entries.map Prod.snd = List.range next

def Table.empty : Table K := ⟨[], 0, List.nodup_nil, rfl⟩

theorem nodup_append {entries : List (K × Nat)} {k : K} {i : Nat} (h : (entries.map Prod.fst).Nodup)
    (hk : KeyMap.find k entries = none) : ((entries ++ [(k, i)]).map Prod.fst).Nodup := by
  have hnew := KeyMap.not_mem_of_find_eq_none hk
  rw [List.map_append]
  exact List.nodup_append.mpr ⟨h, List.nodup_singleton _, fun a ha b hb heq => by
    obtain rfl := List.mem_singleton.mp hb
    exact hnew (heq ▸ ha)⟩

omit [DecidableEq K] in
theorem counted_append {entries : List (K × Nat)} {next : Nat} (k : K) (h : entries.map Prod.snd = List.range next) :
    (entries ++ [(k, next)]).map Prod.snd = List.range (next + 1) := by
  rw [List.map_append, h, List.range_succ]
  rfl

/-- The index of a name, which is new if it was not met before. -/
def Table.intern (t : Table K) (k : K) : Nat × Table K :=
  match hk : KeyMap.find k t.entries with
  | some i => (i, t)
  | none => (t.next, ⟨t.entries ++ [(k, t.next)], t.next + 1, nodup_append t.nodup hk, counted_append k t.counted⟩)

/-- The names of a list that are in the table, each taken out the first time. -/
def drain (name : A → K) : List A → List (K × Nat) → List (A × Nat)
  | [], _ => []
  | a :: as, entries =>
    match KeyMap.find (name a) entries with
    | some i => (a, i) :: drain name as (KeyMap.erase (name a) entries)
    | none => drain name as entries

section

variable {t : Table K} {entries : List (K × Nat)} {k k' : K} {i j : Nat} {name : A → K} {as : List A} {a : A}

/-- An index is the place of its name among the names. -/
theorem place_of_find [BEq K] [LawfulBEq K] (t : Table K) (hk : KeyMap.find k t.entries = some i) :
    i = (t.entries.map Prod.fst).idxOf k := by
  obtain ⟨j, hj⟩ := List.getElem?_of_mem (KeyMap.mem_of_find hk)
  have hfst : (t.entries.map Prod.fst)[j]? = some k := by rw [List.getElem?_map, hj]; rfl
  have hsnd : (t.entries.map Prod.snd)[j]? = some i := by rw [List.getElem?_map, hj]; rfl
  rw [t.counted] at hsnd
  obtain ⟨hlt, hi⟩ := List.getElem?_eq_some_iff.mp hsnd
  obtain ⟨hlt', hk'⟩ := List.getElem?_eq_some_iff.mp hfst
  rw [List.getElem_range] at hi
  rw [← hi, ← hk', t.nodup.idxOf_getElem]

/-- Different names have different indices. -/
theorem find_inj (h : (entries.map Prod.snd).Nodup) (hk : KeyMap.find k entries = some i)
    (hk' : KeyMap.find k' entries = some i) : k = k' := by
  have heq := List.inj_on_of_nodup_map h (KeyMap.mem_of_find hk) (KeyMap.mem_of_find hk') rfl
  exact congrArg Prod.fst heq

/-- What is drained was in the table. -/
theorem find_of_mem_drain (h : (a, i) ∈ drain name as entries) : a ∈ as ∧ KeyMap.find (name a) entries = some i := by
  induction as generalizing entries with
  | nil => cases h
  | cons b as ih =>
    rw [drain] at h
    cases hb : KeyMap.find (name b) entries with
    | none =>
      rw [hb] at h
      obtain ⟨hmem, hfind⟩ := ih h
      exact ⟨List.mem_cons_of_mem _ hmem, hfind⟩
    | some n =>
      rw [hb] at h
      rcases List.mem_cons.mp h with heq | h
      · obtain ⟨rfl, rfl⟩ := Prod.mk.inj heq
        exact ⟨List.mem_cons_self, hb⟩
      · obtain ⟨hmem, hfind⟩ := ih h
        have hne : name a ≠ name b := fun heq => by
          rw [heq, KeyMap.find_erase_self] at hfind
          cases hfind
        exact ⟨List.mem_cons_of_mem _ hmem, (KeyMap.find_erase_ne hne).symm.trans hfind⟩

/-- An index whose name is in the list is drained exactly once, for an element of that name. -/
theorem drain_once (name : A → K) (hnodup : (entries.map Prod.snd).Nodup) (hk : KeyMap.find k entries = some i)
    (hmem : ∃ a ∈ as, name a = k) :
    ∃ a ∈ as, name a = k ∧ (drain name as entries).filter (fun x => x.2 = i) = [(a, i)] := by
  induction as generalizing entries with
  | nil => exact absurd hmem fun ⟨a, ha, _⟩ => nomatch ha
  | cons b as ih =>
    rw [drain]
    by_cases hb : name b = k
    · refine ⟨b, List.mem_cons_self, hb, ?_⟩
      rw [hb, hk]
      have hrest : (drain name as (KeyMap.erase k entries)).filter (fun x => x.2 = i) = [] := by
        rw [List.filter_eq_nil_iff]
        intro x hx hxi
        obtain ⟨-, hfind⟩ := find_of_mem_drain hx
        have hne : name x.1 ≠ k := fun heq => by
          rw [heq, KeyMap.find_erase_self] at hfind
          cases hfind
        rw [KeyMap.find_erase_ne hne, of_decide_eq_true hxi] at hfind
        exact hne (find_inj hnodup hfind hk)
      simp only [List.filter_cons, decide_true, if_true, hrest]
    · have hrest : ∃ a ∈ as, name a = k := by
        obtain ⟨a, ha, hak⟩ := hmem
        rcases List.mem_cons.mp ha with rfl | ha
        · exact absurd hak hb
        · exact ⟨a, ha, hak⟩
      cases hfind : KeyMap.find (name b) entries with
      | none =>
        obtain ⟨a, ha, hak, heq⟩ := ih hnodup hk hrest
        exact ⟨a, List.mem_cons_of_mem _ ha, hak, heq⟩
      | some n =>
        have hni : n ≠ i := fun heq => hb (find_inj hnodup (heq ▸ hfind) hk)
        have hsub : ((KeyMap.erase (name b) entries).map Prod.snd).Nodup :=
          hnodup.sublist (List.filter_sublist.map _)
        obtain ⟨a, ha, hak, heq⟩ := ih hsub ((KeyMap.find_erase_ne (Ne.symm hb)).trans hk) hrest
        refine ⟨a, List.mem_cons_of_mem _ ha, hak, ?_⟩
        simp only [List.filter_cons, hni, decide_false, Bool.false_eq_true, if_false, heq]

end

end Interning
