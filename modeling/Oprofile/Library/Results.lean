import Mathlib.Tactic.Common

/-! Computations in sequence that may end with an error. -/
namespace Results

variable {α β ε : Type} {x y : Except ε α} {f : α → Except ε β} {a : α} {b : β}

/-- A sequence that succeeds. -/
theorem bind_ok (h : (x >>= f) = .ok b) : ∃ a, x = .ok a ∧ f a = .ok b := by
  cases x with
  | error e => cases h
  | ok a => exact ⟨a, rfl, h⟩

theorem ok_bind (h : x = .ok a) : (x >>= f) = f a := by
  rw [h]
  rfl

/-- What comes after a success. -/
@[simp] theorem ok_then (a : α) (f : α → Except ε β) : (Except.ok a >>= f) = f a := rfl

theorem ite_bind_ok {c : Prop} [Decidable c] (h : (if c then x >>= f else y >>= f) = .ok b) :
    ∃ a, (if c then x else y) = .ok a ∧ f a = .ok b := by
  split_ifs at h ⊢ with hc
  · exact bind_ok h
  · exact bind_ok h

theorem map_ok {g : α → β} (h : x.map g = .ok b) : ∃ a, x = .ok a ∧ g a = b := by
  cases x with
  | error e => cases h
  | ok a => exact ⟨a, rfl, Except.ok.inj h⟩

theorem map_isOk {g : α → β} : (∃ b, x.map g = .ok b) ↔ ∃ a, x = .ok a := by
  constructor
  · rintro ⟨b, h⟩
    obtain ⟨a, ha, -⟩ := map_ok h
    exact ⟨a, ha⟩
  · rintro ⟨a, rfl⟩
    exact ⟨g a, rfl⟩

/-- Every error of a computation is one of these. -/
def ErrorsIn (P : ε → Prop) (x : Except ε α) : Prop := ∀ e, x = .error e → P e

variable {P Q : ε → Prop}

theorem errorsIn_ok (a : α) : ErrorsIn P (.ok a : Except ε α) := fun e h => by cases h

theorem ErrorsIn.mono (h : ErrorsIn P x) (hpq : ∀ e, P e → Q e) : ErrorsIn Q x := fun e he => hpq e (h e he)

theorem ErrorsIn.bind (hx : ErrorsIn P x) (hf : ∀ a, x = .ok a → ErrorsIn P (f a)) : ErrorsIn P (x >>= f) := by
  intro e he
  cases x with
  | error e' =>
    cases he
    exact hx _ rfl
  | ok a => exact hf a rfl e he

theorem ErrorsIn.map {g : α → β} (hx : ErrorsIn P x) : ErrorsIn P (x.map g) := by
  intro e he
  cases x with
  | error e' =>
    cases he
    exact hx _ rfl
  | ok a => cases he

theorem errorsIn_foldlM {g : β → α → Except ε β} {l : List α} (h : ∀ b, ∀ a ∈ l, ErrorsIn P (g b a)) (b : β) :
    ErrorsIn P (l.foldlM g b) := by
  induction l generalizing b with
  | nil => exact errorsIn_ok b
  | cons a l ih =>
    rw [List.foldlM_cons]
    exact (h b a List.mem_cons_self).bind fun b' _ => ih (fun b a ha => h b a (List.mem_cons_of_mem _ ha)) b'

theorem errorsIn_mapM {l : List α} (h : ∀ a ∈ l, ErrorsIn P (f a)) : ErrorsIn P (l.mapM f) := by
  induction l with
  | nil => exact errorsIn_ok []
  | cons a l ih =>
    rw [List.mapM_cons]
    refine (h a List.mem_cons_self).bind fun b _ => ?_
    exact (ih fun a ha => h a (List.mem_cons_of_mem _ ha)).bind fun bs _ => errorsIn_ok _

/-- No error at all is a success. -/
theorem ErrorsIn.succeeds (h : ErrorsIn (fun _ => False) x) : ∃ a, x = .ok a := by
  cases x with
  | error e => exact (h e rfl).elim
  | ok a => exact ⟨a, rfl⟩

/-- What each element keeps, the list keeps. -/
theorem mapM_keeps {γ : Type} {g : α → Except ε α} (observe : α → γ)
    (h : ∀ a b, g a = .ok b → observe b = observe a) {l l' : List α} (hl : l.mapM g = .ok l') :
    l'.map observe = l.map observe := by
  induction l generalizing l' with
  | nil =>
    cases hl
    rfl
  | cons a l ih =>
    rw [List.mapM_cons] at hl
    obtain ⟨b, hb, hl⟩ := bind_ok hl
    obtain ⟨bs, hbs, hl⟩ := bind_ok hl
    cases hl
    rw [List.map_cons, List.map_cons, h a b hb, ih hbs]

end Results
