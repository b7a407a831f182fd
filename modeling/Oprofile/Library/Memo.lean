import Oprofile.Library.KeyMap

/-! Answers kept in a hash table from which none is taken out, and programs that ask for them. -/
namespace Memo

/-- The chains of the table, and the keys whose answers were computed, in order. -/
structure Table (K V H : Type) where
  chains : H → List (K × V)
  computed : List K

/-- A program that asks for keys one after the other. -/
inductive Client (K V B : Type)
  | done (b : B)
  | ask (k : K) (next : V → Client K V B)

namespace Client

variable {K V B C : Type} {f : K → V}

def bind : Client K V B → (B → Client K V C) → Client K V C
  | done b, next => next b
  | ask k rest, next => ask k fun v => (rest v).bind next

instance : Monad (Client K V) where
  pure := done
  bind := bind

/-- What the program gives when every answer is that of one function. -/
def eval (f : K → V) : Client K V B → B
  | done b => b
  | ask k next => (next (f k)).eval f

/-- The keys it asks for then. -/
def keys (f : K → V) : Client K V B → List K
  | done _ => []
  | ask k next => k :: (next (f k)).keys f

@[simp] theorem eval_pure (b : B) : eval f (pure b : Client K V B) = b := rfl

@[simp] theorem eval_ask (k : K) (next : V → Client K V B) : eval f (ask k next) = eval f (next (f k)) := rfl

@[simp] theorem eval_done (b : B) : eval f (done b : Client K V B) = b := rfl

@[simp] theorem eval_bind (c : Client K V B) (next : B → Client K V C) :
    eval f (c >>= next) = eval f (next (eval f c)) := by
  change eval f (c.bind next) = _
  induction c with
  | done b => rfl
  | ask k rest ih => exact ih (f k)

@[simp] theorem eval_map (g : B → C) (c : Client K V B) : eval f (g <$> c) = g (eval f c) :=
  eval_bind c fun b => done (g b)

@[simp] theorem eval_ite {p : Prop} [Decidable p] (c d : Client K V B) :
    eval f (if p then c else d) = if p then eval f c else eval f d := by
  split <;> rfl

@[simp] theorem keys_pure (b : B) : keys f (pure b : Client K V B) = [] := rfl

@[simp] theorem keys_done (b : B) : keys f (done b : Client K V B) = [] := rfl

@[simp] theorem keys_ask (k : K) (next : V → Client K V B) : keys f (ask k next) = k :: keys f (next (f k)) := rfl

@[simp] theorem keys_bind (c : Client K V B) (next : B → Client K V C) :
    keys f (c >>= next) = keys f c ++ keys f (next (eval f c)) := by
  change keys f (c.bind next) = _
  induction c with
  | done b => rfl
  | ask k rest ih => exact congrArg (k :: ·) (ih (f k))

@[simp] theorem keys_map (g : B → C) (c : Client K V B) : keys f (g <$> c) = keys f c :=
  (keys_bind c fun b => done (g b)).trans (List.append_nil _)

@[simp] theorem keys_ite {p : Prop} [Decidable p] (c d : Client K V B) :
    keys f (if p then c else d) = if p then keys f c else keys f d := by
  split <;> rfl

end Client

variable {K V H B : Type} [DecidableEq K] [DecidableEq H]

namespace Table

def empty : Table K V H := ⟨fun _ => [], []⟩

section

variable (hash : K → H)

/-- The answer that is kept for a key. -/
def kept (t : Table K V H) (k : K) : Option V := KeyMap.find k (t.chains (hash k))

variable (compute : Nat → K → V)

/-- The kept answer, or a new one, which goes to the front of its chain. The answer that is computed may depend on how
many were before it. -/
def lookUp (t : Table K V H) (k : K) : V × Table K V H :=
  match t.kept hash k with
  | some v => (v, t)
  | none =>
    let v := compute t.computed.length k
    (v, { chains := fun h => if h = hash k then (k, v) :: t.chains h else t.chains h, computed := t.computed ++ [k] })

/-- The program with the table between it and the computation. -/
def run : Client K V B → Table K V H → B × Table K V H
  | .done b, t => (b, t)
  | .ask k next, t => run (next (t.lookUp hash compute k).1) (t.lookUp hash compute k).2

/-- Each key is in its own chain, once, with the one answer that was computed for it. -/
structure Sound (t : Table K V H) : Prop where
  once : t.computed.Nodup
  chained : ∀ h, ∀ e ∈ t.chains h, hash e.1 = h
  distinct : ∀ h, ((t.chains h).map Prod.fst).Nodup
  kept_iff : ∀ k, (t.kept hash k).isSome ↔ k ∈ t.computed
  answer : ∀ i k, t.computed[i]? = some k → t.kept hash k = some (compute i k)

/-- What is kept in the one is kept in the other. -/
def Extends (t t' : Table K V H) : Prop := ∀ k v, t.kept hash k = some v → t'.kept hash k = some v

end

section

variable {hash : K → H} {compute : Nat → K → V} {t t' t'' : Table K V H} {k j : K} {v : V} {f : K → V}
  {c : Client K V B}

omit [DecidableEq H] in
theorem sound_empty : Sound hash compute (empty : Table K V H) where
  once := List.nodup_nil
  chained _ _ he := absurd he List.not_mem_nil
  distinct _ := List.nodup_nil
  kept_iff _ := by simp [kept, empty, KeyMap.find]
  answer i k hi := by simp [empty] at hi

omit [DecidableEq H] in
theorem Extends.refl (t : Table K V H) : Extends hash t t := fun _ _ h => h

omit [DecidableEq H] in
theorem Extends.trans (h : Extends hash t t') (h' : Extends hash t' t'') : Extends hash t t'' :=
  fun k v hk => h' k v (h k v hk)

/-- What is kept after a look-up. -/
theorem kept_lookUp : (t.lookUp hash compute k).2.kept hash j =
    if j = k then some (t.lookUp hash compute k).1 else t.kept hash j := by
  rw [lookUp]
  split
  next v hv =>
    split_ifs with hj
    · rw [hj, hv]
    · rfl
  next hnone =>
    dsimp only [kept]
    by_cases hj : j = k
    · subst hj
      rw [if_pos rfl, if_pos rfl, KeyMap.find, if_pos rfl]
    · rw [if_neg hj]
      split
      · rw [KeyMap.find, if_neg (Ne.symm hj)]
      · rfl

theorem extends_lookUp : Extends hash t (t.lookUp hash compute k).2 := by
  intro j v hj
  rw [kept_lookUp]
  split_ifs with hk
  · subst hk
    rw [lookUp, hj]
  · exact hj

theorem computed_lookUp : (t.lookUp hash compute k).2.computed =
    if (t.kept hash k).isSome then t.computed else t.computed ++ [k] := by
  rw [lookUp]
  split
  next v hv => rw [hv, Option.isSome_some, if_pos rfl]
  next hnone => rw [hnone, Option.isSome_none, if_neg Bool.false_ne_true]

theorem mem_computed_lookUp (hs : Sound hash compute t) :
    j ∈ (t.lookUp hash compute k).2.computed ↔ j = k ∨ j ∈ t.computed := by
  rw [computed_lookUp]
  split_ifs with hk
  · have hmem := (hs.kept_iff k).mp hk
    exact ⟨Or.inr, fun h => h.elim (fun he => he ▸ hmem) id⟩
  · rw [List.mem_append, List.mem_singleton, or_comm]

theorem Sound.lookUp (hs : Sound hash compute t) : Sound hash compute (t.lookUp hash compute k).2 := by
  cases hk : t.kept hash k with
  | some v =>
    have hsame : (t.lookUp hash compute k).2 = t := by rw [Table.lookUp, hk]
    rwa [hsame]
  | none =>
    have hnew : k ∉ t.computed := by
      rw [← hs.kept_iff, hk]
      exact Bool.false_ne_true
    have hcomputed : (t.lookUp hash compute k).2.computed = t.computed ++ [k] := by
      rw [computed_lookUp, hk, Option.isSome_none, if_neg Bool.false_ne_true]
    have hfirst : (t.lookUp hash compute k).1 = compute t.computed.length k := by rw [Table.lookUp, hk]
    have hchains : ∀ h, (t.lookUp hash compute k).2.chains h =
        if h = hash k then (k, compute t.computed.length k) :: t.chains h else t.chains h := by
      intro h
      rw [Table.lookUp, hk]
    refine ⟨?_, ?_, ?_, ?_, ?_⟩
    · rw [hcomputed]
      exact hs.once.append (List.nodup_singleton k) (List.disjoint_singleton.mpr hnew)
    · intro h e he
      rw [hchains] at he
      split_ifs at he with hh
      · rcases List.mem_cons.mp he with rfl | he
        · exact hh.symm
        · exact hs.chained h e he
      · exact hs.chained h e he
    · intro h
      rw [hchains]
      split_ifs with hh
      · rw [List.map_cons, List.nodup_cons]
        refine ⟨?_, hs.distinct h⟩
        subst hh
        exact KeyMap.not_mem_of_find_eq_none hk
      · exact hs.distinct h
    · intro j
      rw [mem_computed_lookUp hs, kept_lookUp]
      split_ifs with hj
      · simp [hj]
      · rw [hs.kept_iff, or_iff_right hj]
    · intro i j hi
      rw [hcomputed] at hi
      rw [kept_lookUp, hfirst]
      rcases Nat.lt_or_ge i t.computed.length with hlt | hge
      · rw [List.getElem?_append_left hlt] at hi
        have hmem := List.mem_of_getElem? hi
        rw [if_neg (ne_of_mem_of_not_mem hmem hnew)]
        exact hs.answer i j hi
      · rw [List.getElem?_append_right hge] at hi
        obtain ⟨hzero, hj⟩ := List.getElem?_eq_some_iff.mp hi
        have hi' : i = t.computed.length := by
          simp only [List.length_singleton] at hzero
          omega
        have hjk : j = k := by
          rw [← hj]
          simp
        rw [if_pos hjk, hi', hjk]

theorem Sound.run (hs : Sound hash compute t) (c : Client K V B) : Sound hash compute (run hash compute c t).2 := by
  induction c generalizing t with
  | done b => exact hs
  | ask k next ih => exact ih _ hs.lookUp

theorem extends_run (c : Client K V B) : Extends hash t (run hash compute c t).2 := by
  induction c generalizing t with
  | done b => exact .refl t
  | ask k next ih => exact extends_lookUp.trans (ih _)

/-- What a look-up tells is what is kept ever after. -/
theorem lookUp_told (hext : Extends hash (t.lookUp hash compute k).2 t')
    (hf : ∀ k v, t'.kept hash k = some v → f k = v) : f k = (t.lookUp hash compute k).1 := by
  refine hf k _ (hext k _ ?_)
  rw [kept_lookUp, if_pos rfl]

/-- A program gets from the table what one function would have told it: any function that agrees with what is kept
in the end. -/
theorem run_eval (c : Client K V B) (hf : ∀ k v, (run hash compute c t).2.kept hash k = some v → f k = v) :
    (run hash compute c t).1 = c.eval f := by
  induction c generalizing t with
  | done b => rfl
  | ask k next ih =>
    have hk : f k = (t.lookUp hash compute k).1 := lookUp_told (extends_run _) hf
    rw [run, Client.eval, hk]
    exact ih _ hf

/-- The keys that were computed are those asked for. -/
theorem mem_computed_run (hs : Sound hash compute t) (c : Client K V B)
    (hf : ∀ k v, (run hash compute c t).2.kept hash k = some v → f k = v) :
    k ∈ (run hash compute c t).2.computed ↔ k ∈ c.keys f ∨ k ∈ t.computed := by
  induction c generalizing t with
  | done b => exact ⟨Or.inr, fun h => h.elim (fun hn => absurd hn List.not_mem_nil) id⟩
  | ask j next ih =>
    have hj : f j = (t.lookUp hash compute j).1 := lookUp_told (extends_run _) hf
    rw [run, ih _ hs.lookUp hf, mem_computed_lookUp hs, Client.keys, hj, List.mem_cons, or_left_comm, or_assoc]

end

end Table

end Memo
