import Mathlib.Logic.Relation
import Mathlib.Data.List.Perm.Subperm

/-! Nodes that list their children and point back to their parents. -/
namespace Links

open Relation

variable {A : Type} {children : A → List A} {parent : A → Option A} {a b c d : A} {k : ℕ}

/-- A node is linked to each of its children. -/
def Child (children : A → List A) (a b : A) : Prop := b ∈ children a

/-- A node is linked to its parent. -/
def Parent (parent : A → Option A) (b a : A) : Prop := parent b = some a

/-- The lists of children and the links to the parents say the same, each child once. -/
structure Consistent (children : A → List A) (parent : A → Option A) : Prop where
  mem_iff : ∀ a b, b ∈ children a ↔ parent b = some a
  nodup : ∀ a, (children a).Nodup

def Acyclic (r : A → A → Prop) : Prop := ∀ a, ¬ TransGen r a a

/-- Every chain of children from a node is shorter than a bound. -/
inductive Bounded (children : A → List A) : ℕ → A → Prop
  | node {k : ℕ} {a : A} (h : ∀ c ∈ children a, Bounded children k c) : Bounded children (k + 1) a

theorem Bounded.not_cycle (h : Bounded children k a) : ¬ TransGen (Child children) a a := by
  induction h with
  | node h ih =>
    intro hcycle
    obtain ⟨c, hc, hback⟩ := TransGen.head'_iff.mp hcycle
    exact ih c hc (TransGen.tail' hback hc)

theorem bounded_child (hb : Bounded children (k + 1) a) (hc : c ∈ children a) : Bounded children k c := by
  cases hb with
  | node h => exact h c hc

/-- What is below a child is not above it. -/
theorem not_below_child (hb : Bounded children k a) (hc : c ∈ children a) :
    ¬ ReflTransGen (Child children) c a :=
  fun hback => hb.not_cycle (TransGen.head' hc hback)

namespace Consistent

theorem parent_unique (h : Consistent children parent) (ha : b ∈ children a) (hc : b ∈ children c) :
    a = c := by
  rw [h.mem_iff] at ha hc
  rw [ha] at hc
  exact Option.some_inj.mp hc

/-- The ancestors of a node are on one line. -/
theorem below_or_below (h : Consistent children parent) (hc : ReflTransGen (Child children) c b)
    (hd : ReflTransGen (Child children) d b) :
    ReflTransGen (Child children) c d ∨ ReflTransGen (Child children) d c := by
  induction hc with
  | refl => exact Or.inr hd
  | tail hce hlast ih =>
    rcases ReflTransGen.cases_tail_iff _ _ _ |>.mp hd with heq | ⟨f, hdf, hlast'⟩
    · subst heq
      exact Or.inl (hce.tail hlast)
    · obtain rfl := h.parent_unique hlast hlast'
      exact ih hdf

/-- Nothing is below two children of one node. -/
theorem siblings_disjoint (h : Consistent children parent) (hb : Bounded children k a)
    (hc : c ∈ children a) (hd : d ∈ children a) (hne : c ≠ d)
    (hcb : ReflTransGen (Child children) c b) : ¬ ReflTransGen (Child children) d b := by
  have hup : ∀ {x y : A}, x ∈ children a → y ∈ children a → x ≠ y →
      ¬ ReflTransGen (Child children) x y := by
    intro x y hx hy hxy hbelow
    rcases ReflTransGen.cases_tail_iff _ _ _ |>.mp hbelow with heq | ⟨z, hxz, hz⟩
    · exact hxy heq.symm
    · obtain rfl := h.parent_unique hz hy
      exact not_below_child hb hx hxz
  intro hdb
  rcases h.below_or_below hcb hdb with hbelow | hbelow
  · exact hup hc hd hne hbelow
  · exact hup hd hc hne.symm hbelow

end Consistent

/-- A new link closes a circle only if its target already leads to its source. -/
theorem acyclic_insert {r r' : A → A → Prop} {x y : A} (hr : Acyclic r)
    (h' : ∀ a b, r' a b → r a b ∨ (a = x ∧ b = y)) (hxy : ¬ ReflTransGen r y x) : Acyclic r' := by
  -- a path either avoids the new link or ends below its target, with the start above its source
  have hpath : ∀ {a b : A}, TransGen r' a b →
      TransGen r a b ∨ (ReflTransGen r a x ∧ ReflTransGen r y b) := by
    intro a b hab
    induction hab with
    | single hab =>
      rcases h' _ _ hab with hab | ⟨rfl, rfl⟩
      · exact Or.inl (.single hab)
      · exact Or.inr ⟨.refl, .refl⟩
    | tail _ hbc ih =>
      rcases h' _ _ hbc with hbc | ⟨rfl, rfl⟩
      · rcases ih with hab | ⟨hax, hyb⟩
        · exact Or.inl (hab.tail hbc)
        · exact Or.inr ⟨hax, hyb.tail hbc⟩
      · rcases ih with hab | ⟨hax, hyb⟩
        · exact Or.inr ⟨hab.to_reflTransGen, .refl⟩
        · exact (hxy hyb).elim
  intro a hcycle
  rcases hpath hcycle with hcycle | ⟨hax, hya⟩
  · exact hr a hcycle
  · exact hxy (hya.trans hax)

theorem acyclic_mono {r r' : A → A → Prop} (hr : Acyclic r) (h : ∀ a b, r' a b → r a b) : Acyclic r' :=
  fun a hcycle => hr a (TransGen.mono h a a hcycle)

/-- Without circles no chain is longer than the list of all nodes. -/
theorem bounded_of_acyclic (nodes : List A) (hr : Acyclic (Child children))
    (hnodes : ∀ a c, c ∈ children a → c ∈ nodes) (ha : a ∈ nodes) :
    Bounded children (nodes.length + 1) a := by
  have hpath : ∀ (k : ℕ) (path : List A) (a : A), k + path.length = nodes.length →
      (∀ p ∈ path, TransGen (Child children) p a) → (a :: path).Nodup → a :: path ⊆ nodes →
      Bounded children (k + 1) a := by
    intro k
    induction k with
    | zero =>
      intro path a hlen _ hnodup hsub
      have hle := (List.subperm_of_subset hnodup hsub).length_le
      rw [List.length_cons] at hle
      omega
    | succ k ih =>
      intro path a hlen habove hnodup hsub
      refine .node fun c hc => ih (a :: path) c (by rw [List.length_cons]; omega) ?_ ?_ ?_
      · rintro p hp
        rcases List.mem_cons.mp hp with rfl | hp
        · exact .single hc
        · exact (habove p hp).tail hc
      · refine List.nodup_cons.mpr ⟨fun hmem => ?_, hnodup⟩
        rcases List.mem_cons.mp hmem with rfl | hmem
        · exact hr c (.single hc)
        · exact hr c ((habove c hmem).tail hc)
      · exact List.cons_subset.mpr ⟨hnodes a c hc, hsub⟩
  refine hpath nodes.length [] a rfl (fun p hp => by cases hp) (List.nodup_cons.mpr ⟨List.not_mem_nil, List.nodup_nil⟩) ?_
  exact List.cons_subset.mpr ⟨ha, List.nil_subset _⟩

end Links
