import Mathlib.Data.List.Nodup
import Mathlib.Tactic.Linarith

/-! Maps kept as lists in the order of their keys. -/
namespace KeyMap

variable {K V : Type} [DecidableEq K]

def find (k : K) : List (K × V) → Option V
  | [] => none
  | (k', v) :: xs => if k' = k then some v else find k xs

/-- Inserting before the first greater key; a value that is there is replaced. -/
def insert (lt : K → K → Bool) (k : K) (v : V) : List (K × V) → List (K × V)
  | [] => [(k, v)]
  | (k', v') :: xs =>
    if k' = k then (k, v) :: xs
    else if lt k k' then (k, v) :: (k', v') :: xs
    else (k', v') :: insert lt k v xs

def erase (k : K) (xs : List (K × V)) : List (K × V) := xs.filter fun x => x.1 ≠ k

variable {lt : K → K → Bool} {k j : K} {v w : V} {xs : List (K × V)}

@[simp] theorem find_insert_self : find k (insert lt k v xs) = some v := by
  induction xs with
  | nil => simp [insert, find]
  | cons x xs ih =>
    obtain ⟨k', v'⟩ := x
    simp only [insert]
    split_ifs with h1 h2
    · simp [find]
    · simp [find]
    · simp [find, h1, ih]

theorem find_insert_ne (h : j ≠ k) : find j (insert lt k v xs) = find j xs := by
  induction xs with
  | nil => simp [insert, find, h.symm]
  | cons x xs ih =>
    obtain ⟨k', v'⟩ := x
    simp only [insert]
    split_ifs with h1 h2
    · subst h1
      simp [find, h.symm]
    · simp [find, h.symm]
    · simp only [find, ih]

@[simp] theorem find_erase_self : find k (erase k xs) = none := by
  induction xs with
  | nil => rfl
  | cons x xs ih =>
    by_cases hk : x.1 = k
    · simpa [erase, hk] using ih
    · simp only [erase, List.filter_cons, hk, ne_eq, not_false_eq_true, decide_true, if_true, find, if_false]
      exact ih

theorem find_erase_ne (h : j ≠ k) : find j (erase k xs) = find j xs := by
  induction xs with
  | nil => rfl
  | cons x xs ih =>
    by_cases hk : x.1 = k
    · have hj : ¬ x.1 = j := fun heq => h (heq.symm.trans hk)
      simpa [erase, hk, find, hj, h.symm] using ih
    · simp only [erase, List.filter_cons, hk, ne_eq, not_false_eq_true, decide_true, if_true, find]
      split_ifs
      · rfl
      · exact ih

theorem mem_of_find {v : V} (h : find k xs = some v) : (k, v) ∈ xs := by
  induction xs with
  | nil => cases h
  | cons x xs ih =>
    obtain ⟨k', v'⟩ := x
    rw [find] at h
    split_ifs at h with hk
    · rw [hk, Option.some_inj.mp h]
      exact List.mem_cons_self
    · exact List.mem_cons_of_mem _ (ih h)

theorem find_eq_none (h : k ∉ xs.map Prod.fst) : find k xs = none := by
  cases hfind : find k xs with
  | none => rfl
  | some v =>
    have hmem : k ∈ xs.map Prod.fst := List.mem_map.mpr ⟨(k, v), mem_of_find hfind, rfl⟩
    exact (h hmem).elim

theorem not_mem_of_find_eq_none (h : find k xs = none) : k ∉ xs.map Prod.fst := by
  induction xs with
  | nil => exact List.not_mem_nil
  | cons x xs ih =>
    obtain ⟨k', v'⟩ := x
    rw [find] at h
    split_ifs at h with hk
    intro hmem
    rcases List.mem_cons.mp hmem with heq | hmem
    · exact hk heq.symm
    · exact ih h hmem

/-- A search from the end. -/
theorem find?_reverse_eq_some_iff {A : Type} {p : A → Bool} {as : List A} {a : A} :
    as.reverse.find? p = some a ↔
      p a = true ∧ ∃ before after, as = before ++ a :: after ∧ ∀ b ∈ after, p b = false := by
  rw [List.find?_eq_some_iff_append]
  refine and_congr_right fun _ => ?_
  constructor
  · rintro ⟨xs, ys, heq, hno⟩
    refine ⟨ys.reverse, xs.reverse, ?_, fun b hb => by simpa using hno b (List.mem_reverse.mp hb)⟩
    rw [← List.reverse_reverse as, heq]
    simp
  · rintro ⟨before, after, rfl, hno⟩
    refine ⟨after.reverse, before.reverse, by simp, fun b hb => ?_⟩
    simpa using hno b (List.mem_reverse.mp hb)

/-- The value kept for a key after a run of insertions is the last one. -/
theorem find_foldl_insert {A : Type} (key : A → K) (val : A → V) (as : List A) (xs : List (K × V)) :
    find k (as.foldl (fun t a => insert lt (key a) (val a) t) xs) =
      ((as.reverse.find? fun a => key a = k).map val).or (find k xs) := by
  induction as generalizing xs with
  | nil => rfl
  | cons a as ih =>
    rw [List.foldl_cons, ih, List.reverse_cons, List.find?_append]
    by_cases hk : key a = k
    · subst hk
      cases as.reverse.find? fun a' => key a' = key a <;> simp
    · cases as.reverse.find? fun a' => key a' = k with
      | none => simp [hk, find_insert_ne (Ne.symm hk)]
      | some a' => simp

/-- Values may be mapped before or after they are filed. -/
theorem map_insert {W : Type} (f : V → W) :
    (insert lt k v xs).map (fun x => (x.1, f x.2)) = insert lt k (f v) (xs.map fun x => (x.1, f x.2)) := by
  induction xs with
  | nil => rfl
  | cons x xs ih =>
    obtain ⟨k', v'⟩ := x
    simp only [insert, List.map_cons]
    split_ifs
    · rfl
    · rfl
    · rw [List.map_cons, ih]

/-- What the order of the keys has to be. -/
structure StrictOrder (lt : K → K → Bool) : Prop where
  irrefl : ∀ a, lt a a = false
  trans : ∀ a b c, lt a b = true → lt b c = true → lt a c = true
  total : ∀ a b, a ≠ b → lt a b = false → lt b a = true

/-- The keys are in their order, each of them once. -/
def Sorted (lt : K → K → Bool) (xs : List (K × V)) : Prop :=
  xs.Pairwise fun a b => lt a.1 b.1 = true

omit [DecidableEq K] in
theorem sorted_nil : Sorted lt ([] : List (K × V)) := List.Pairwise.nil

omit [DecidableEq K] in
theorem Sorted.nodup_keys (ho : StrictOrder lt) (h : Sorted lt xs) : (xs.map Prod.fst).Nodup := by
  rw [List.Nodup, List.pairwise_map]
  refine List.Pairwise.imp (fun {a b} hab heq => ?_) h
  rw [heq, ho.irrefl] at hab
  cases hab

theorem mem_insert {x : K × V} (h : x ∈ insert lt k v xs) : x = (k, v) ∨ x ∈ xs := by
  induction xs with
  | nil =>
    rw [insert, List.mem_singleton] at h
    exact Or.inl h
  | cons y ys ih =>
    obtain ⟨k', v'⟩ := y
    simp only [insert] at h
    split_ifs at h
    · rcases List.mem_cons.mp h with h | h
      · exact Or.inl h
      · exact Or.inr (List.mem_cons_of_mem _ h)
    · exact List.mem_cons.mp h
    · rcases List.mem_cons.mp h with h | h
      · exact Or.inr (h ▸ List.mem_cons_self)
      · rcases ih h with h | h
        · exact Or.inl h
        · exact Or.inr (List.mem_cons_of_mem _ h)

theorem insert_perm (lt : K → K → Bool) (v : V) (h : k ∉ xs.map Prod.fst) : (insert lt k v xs).Perm ((k, v) :: xs) := by
  induction xs with
  | nil => exact List.Perm.refl _
  | cons y ys ih =>
    obtain ⟨k', v'⟩ := y
    obtain ⟨hne, hys⟩ := not_or.mp (List.mem_cons.not.mp h)
    simp only [insert]
    split_ifs with h1 h2
    · exact absurd h1.symm hne
    · exact List.Perm.refl _
    · exact ((ih hys).cons _).trans (List.Perm.swap _ _ _)

theorem sorted_insert (ho : StrictOrder lt) (h : Sorted lt xs) : Sorted lt (insert lt k v xs) := by
  induction xs with
  | nil => exact List.pairwise_singleton _ _
  | cons y ys ih =>
    obtain ⟨k', v'⟩ := y
    obtain ⟨hy, hys⟩ := List.pairwise_cons.mp h
    simp only [insert]
    split_ifs with h1 h2
    · subst h1
      exact List.pairwise_cons.mpr ⟨hy, hys⟩
    · refine List.pairwise_cons.mpr ⟨fun z hz => ?_, h⟩
      rcases List.mem_cons.mp hz with rfl | hz
      · exact h2
      · exact ho.trans _ _ _ h2 (hy z hz)
    · refine List.pairwise_cons.mpr ⟨fun z hz => ?_, ih hys⟩
      rcases mem_insert hz with rfl | hz
      · exact ho.total _ _ (Ne.symm h1) (by simpa using h2)
      · exact hy z hz

theorem find_eq_some_iff (ho : StrictOrder lt) (h : Sorted lt xs) :
    find k xs = some v ↔ (k, v) ∈ xs := by
  induction xs with
  | nil => simp [find]
  | cons y ys ih =>
    obtain ⟨k', v'⟩ := y
    obtain ⟨hy, hys⟩ := List.pairwise_cons.mp h
    rw [find, List.mem_cons, Prod.mk.injEq]
    split_ifs with hk
    · subst hk
      constructor
      · rintro hv
        exact Or.inl ⟨rfl, (Option.some_inj.mp hv).symm⟩
      · rintro (⟨-, rfl⟩ | hmem)
        · rfl
        · have hlt := hy _ hmem
          rw [ho.irrefl] at hlt
          cases hlt
    · rw [ih hys]
      constructor
      · exact Or.inr
      · rintro (⟨rfl, -⟩ | hmem)
        · exact (hk rfl).elim
        · exact hmem

/-- A value that is there is replaced where it stands. -/
theorem insert_of_find (v : V) (ho : StrictOrder lt) (h : Sorted lt xs) (hk : find k xs = some w) :
    ∃ front back, xs = front ++ (k, w) :: back ∧ insert lt k v xs = front ++ (k, v) :: back := by
  induction xs with
  | nil => simp [find] at hk
  | cons y ys ih =>
    obtain ⟨k', v'⟩ := y
    obtain ⟨hy, hys⟩ := List.pairwise_cons.mp h
    rw [find] at hk
    simp only [insert]
    by_cases h1 : k' = k
    · subst h1
      rw [if_pos rfl, Option.some_inj] at hk
      exact ⟨[], ys, by rw [hk]; rfl, if_pos rfl⟩
    · rw [if_neg h1] at hk ⊢
      have hlt : lt k k' = false := by
        have hkk := hy _ ((find_eq_some_iff ho hys).mp hk)
        rw [← Bool.not_eq_true]
        intro hback
        have hself := ho.trans _ _ _ hkk hback
        rw [ho.irrefl] at hself
        cases hself
      obtain ⟨front, back, hys, hins⟩ := ih hys hk
      refine ⟨(k', v') :: front, back, by rw [hys]; rfl, ?_⟩
      rw [hlt, hins]
      rfl

/-- Replacing a value by one that gives more adds just that. -/
theorem flatMap_insert_perm {A : Type} {f : K × V → List A} {more : List A} (ho : StrictOrder lt)
    (h : Sorted lt xs) (hk : find k xs = some w) (hf : (f (k, v)).Perm (f (k, w) ++ more)) :
    ((insert lt k v xs).flatMap f).Perm (xs.flatMap f ++ more) := by
  obtain ⟨front, back, hold, hnew⟩ := insert_of_find v ho h hk
  rw [hnew, hold, List.flatMap_append, List.flatMap_append, List.flatMap_cons, List.flatMap_cons, List.append_assoc]
  refine List.Perm.append_left _ ((hf.append_right _).trans ?_)
  rw [List.append_assoc, List.append_assoc]
  exact List.perm_append_comm.append_left _

/-- The order of the keys leaves no choice: maps that say the same of every key are the same. -/
theorem sorted_ext {ys : List (K × V)} (ho : StrictOrder lt) (hx : Sorted lt xs) (hy : Sorted lt ys)
    (h : ∀ k, find k xs = find k ys) : xs = ys := by
  have hmem : ∀ e, e ∈ xs ↔ e ∈ ys := by
    rintro ⟨k, v⟩
    rw [← find_eq_some_iff ho hx, ← find_eq_some_iff ho hy, h]
  have hnodup : ∀ {zs : List (K × V)}, Sorted lt zs → zs.Nodup := fun hz => List.Nodup.of_map Prod.fst (hz.nodup_keys ho)
  have hperm : xs.Perm ys := (List.perm_ext_iff_of_nodup (hnodup hx) (hnodup hy)).mpr hmem
  refine hperm.eq_of_pairwise ?_ hx hy
  intro a b _ _ hab hba
  have hself := ho.trans _ _ _ hab hba
  rw [ho.irrefl] at hself
  cases hself

/-- Looking up a key among those that a test lets through. -/
theorem find_filter (p : K → Bool) : find k (xs.filter fun x => p x.1) = if p k then find k xs else none := by
  induction xs with
  | nil => simp [find]
  | cons x xs ih =>
    obtain ⟨j, v⟩ := x
    by_cases hj : j = k
    · subst hj
      by_cases hp : p j = true
      · rw [List.filter_cons, if_pos hp, if_pos hp, find, if_pos rfl, find, if_pos rfl]
      · rw [List.filter_cons, if_neg hp, ih, if_neg hp, if_neg hp]
    · rw [List.filter_cons, find, if_neg hj, ← ih]
      split
      · rw [find, if_neg hj]
      · rfl

omit [DecidableEq K] in
/-- A search in the order of the keys returns what has the least key. -/
theorem find?_eq_some_iff_least (ho : StrictOrder lt) (h : Sorted lt xs) {p : K × V → Bool}
    {x : K × V} :
    xs.find? p = some x ↔ x ∈ xs ∧ p x = true ∧ ∀ y ∈ xs, p y = true → lt y.1 x.1 = false := by
  induction xs with
  | nil => simp
  | cons y ys ih =>
    obtain ⟨hy, hys⟩ := List.pairwise_cons.mp h
    rw [List.find?_cons]
    cases hp : p y with
    | true =>
      constructor
      · intro hx
        cases hx
        refine ⟨List.mem_cons_self, hp, fun z hz _ => ?_⟩
        rcases List.mem_cons.mp hz with rfl | hz
        · exact ho.irrefl _
        · cases hlt : lt z.1 x.1 with
          | false => rfl
          | true =>
            have hself := ho.trans _ _ _ (hy z hz) hlt
            rw [ho.irrefl] at hself
            cases hself
      · rintro ⟨hx, -, hleast⟩
        rcases List.mem_cons.mp hx with rfl | hx
        · rfl
        · have hlt := hleast y List.mem_cons_self hp
          rw [hy x hx] at hlt
          cases hlt
    | false =>
      refine (ih hys).trans ?_
      constructor
      · rintro ⟨hx, hpx, hleast⟩
        refine ⟨List.mem_cons_of_mem _ hx, hpx, fun z hz hpz => ?_⟩
        rcases List.mem_cons.mp hz with rfl | hz
        · rw [hp] at hpz
          cases hpz
        · exact hleast z hz hpz
      · rintro ⟨hx, hpx, hleast⟩
        rcases List.mem_cons.mp hx with rfl | hx
        · rw [hp] at hpx
          cases hpx
        · exact ⟨hx, hpx, fun z hz => hleast z (List.mem_cons_of_mem _ hz)⟩

end KeyMap
