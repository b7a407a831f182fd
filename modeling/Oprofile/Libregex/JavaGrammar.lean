import Mathlib.Data.List.TakeWhile
import Oprofile.Libregex.DemangleJava

/-! The demangler accepts its grammar and prints what it reads. -/
namespace Oprofile.Libregex

open SampleNames

structure ClassName where
  name : Text
  noSemicolon : ';' ∉ name

structure MethodName where
  name : Text
  noParen : '(' ∉ name

inductive BaseType
  | byte | char | double | float | int | long | short | boolean

def BaseType.letter : BaseType → Char
  | byte => 'B'
  | char => 'C'
  | double => 'D'
  | float => 'F'
  | int => 'I'
  | long => 'J'
  | short => 'S'
  | boolean => 'Z'

def BaseType.shown : BaseType → Text
  | byte => "byte".toList
  | char => "char".toList
  | double => "double".toList
  | float => "float".toList
  | int => "int".toList
  | long => "long".toList
  | short => "short".toList
  | boolean => "boolean".toList

inductive FieldType
  | base (b : BaseType)
  | object (c : ClassName)
  | array (t : FieldType)

def ClassName.text (c : ClassName) : Text := 'L' :: c.name ++ [';']

/-- A class as it is printed. -/
def ClassName.shown (c : ClassName) : Text := c.name.map fun ch => if ch = '/' then '.' else ch

namespace FieldType

def text : FieldType → Text
  | base b => [b.letter]
  | object c => c.text
  | array t => '[' :: t.text

def shown : FieldType → Text
  | base b => b.shown
  | object c => c.shown
  | array t => t.shown ++ "[]".toList

/-- No parenthesis in the class. -/
def Plain : FieldType → Prop
  | base _ => True
  | object c => ')' ∉ c.name
  | array t => t.Plain

end FieldType

/-- What follows the return type of a disambiguated symbol. -/
structure Suffix where
  text : Text
  tilde : text ≠ [] → text.head? = some '~'

/-- A symbol of the grammar; no return type is `V`. -/
structure Signature where
  cls : ClassName
  method : MethodName
  args : List FieldType
  ret : Option FieldType
  suffix : Suffix

def argsText (args : List FieldType) : Text := args.flatMap FieldType.text

def returnText : Option FieldType → Text
  | none => ['V']
  | some t => t.text

def returnShown : Option FieldType → Text
  | none => "void".toList
  | some t => t.shown

def Signature.text (m : Signature) : Text :=
  m.cls.text ++ m.method.name ++ '(' :: argsText m.args ++ ')' :: returnText m.ret ++ m.suffix.text

def Signature.shown (m : Signature) : Text :=
  returnShown m.ret ++ ' ' :: m.cls.shown ++ '.' :: m.method.name ++
    '(' :: List.intercalate ", ".toList (m.args.map FieldType.shown) ++ ')' :: m.suffix.text

variable {result s rest : Text} {r : Text × Text} {t : FieldType} {ts : List FieldType} {w : Text} {c : Char}

theorem takeWhile_cut (h : c ∉ w) (s : Text) : (w ++ c :: s).takeWhile (· ≠ c) = w := by
  have hall : ∀ x ∈ w, decide (x ≠ c) = true := by
    intro x hx
    apply decide_eq_true
    rintro rfl
    exact h hx
  rw [List.takeWhile_append_of_pos hall]
  simp

theorem dropWhile_cut (h : c ∉ w) (s : Text) : (w ++ c :: s).dropWhile (· ≠ c) = c :: s := by
  have hall : ∀ x ∈ w, decide (x ≠ c) = true := by
    intro x hx
    apply decide_eq_true
    rintro rfl
    exact h hx
  rw [List.dropWhile_append_of_pos hall]
  simp

/-- What stands before the first of a character that is found, and behind it. -/
theorem cut_of_dropWhile {d : Char} (h : s.dropWhile (· ≠ c) = d :: rest) :
    s = s.takeWhile (· ≠ c) ++ c :: rest ∧ c ∉ s.takeWhile (· ≠ c) := by
  have hd : d = c := by
    have hnot := List.head?_dropWhile_not (· ≠ c) s
    rw [h] at hnot
    simpa using hnot
  refine ⟨?_, fun hmem => ?_⟩
  · conv_lhs => rw [← List.takeWhile_append_dropWhile (p := (· ≠ c)) (l := s), h, hd]
  · have hprop := List.mem_takeWhile_imp hmem
    simp at hprop

theorem objectType_text (cls : ClassName) (result rest : Text) :
    objectType result (cls.text ++ rest) = some (result ++ cls.shown, rest) := by
  have htext : cls.text ++ rest = 'L' :: (cls.name ++ ';' :: rest) := by
    rw [ClassName.text]
    simp
  rw [htext, objectType, if_neg (by simp)]
  rw [dropWhile_cut cls.noSemicolon, takeWhile_cut cls.noSemicolon]
  rfl

theorem objectType_sound (h : objectType result s = some r) :
    ∃ cls : ClassName, s = cls.text ++ r.2 ∧ r.1 = result ++ cls.shown := by
  cases s with
  | nil => cases h
  | cons c s =>
    rw [objectType] at h
    split_ifs at h with hc
    split at h
    · cases h
    · rename_i d rest hdrop
      obtain ⟨hs, hmem⟩ := cut_of_dropWhile hdrop
      obtain rfl := Option.some_inj.mp h
      refine ⟨⟨_, hmem⟩, ?_, rfl⟩
      rw [ClassName.text, not_not.mp hc]
      simp only [List.cons_append, List.append_assoc, List.nil_append]
      exact congrArg _ hs

theorem baseType_text (b : BaseType) (result rest : Text) :
    baseType result (b.letter :: rest) = some (result ++ b.shown, rest) := by
  cases b <;> rfl

theorem baseType_sound (h : baseType result s = some r) :
    ∃ b : BaseType, s = b.letter :: r.2 ∧ r.1 = result ++ b.shown := by
  cases s with
  | nil => cases h
  | cons c s =>
    rw [baseType] at h
    split_ifs at h with hb hc hd hf hi hj hs hz <;> obtain rfl := Option.some_inj.mp h
    · exact ⟨.byte, by rw [hb]; rfl, rfl⟩
    · exact ⟨.char, by rw [hc]; rfl, rfl⟩
    · exact ⟨.double, by rw [hd]; rfl, rfl⟩
    · exact ⟨.float, by rw [hf]; rfl, rfl⟩
    · exact ⟨.int, by rw [hi]; rfl, rfl⟩
    · exact ⟨.long, by rw [hj]; rfl, rfl⟩
    · exact ⟨.short, by rw [hs]; rfl, rfl⟩
    · exact ⟨.boolean, by rw [hz]; rfl, rfl⟩

/-- The parser reads the text of a type, and prints the type. -/
theorem fieldType_text (t : FieldType) (result rest : Text) :
    fieldType result (t.text ++ rest) = some (result ++ t.shown, rest) := by
  induction t generalizing result with
  | base b =>
    rw [FieldType.text, List.singleton_append, fieldType, baseType_text]
    rfl
  | object cls =>
    have hobject := objectType_text cls result rest
    have htext : cls.text ++ rest = 'L' :: (cls.name ++ [';'] ++ rest) := rfl
    rw [htext] at hobject
    rw [FieldType.text, htext, fieldType, hobject]
    rfl
  | array t ih =>
    have htext : (FieldType.array t).text ++ rest = '[' :: (t.text ++ rest) := rfl
    have hbase : baseType result ('[' :: (t.text ++ rest)) = none := rfl
    have hobject : objectType result ('[' :: (t.text ++ rest)) = none := rfl
    rw [htext, fieldType, hbase, hobject, if_pos rfl, ih, FieldType.shown, Option.map_some, List.append_assoc]

theorem fieldType_sound (h : fieldType result s = some r) :
    ∃ t : FieldType, s = t.text ++ r.2 ∧ r.1 = result ++ t.shown := by
  induction s generalizing result r with
  | nil => cases h
  | cons c s ih =>
    rw [fieldType] at h
    split at h
    · rename_i r' hbase
      obtain rfl := Option.some_inj.mp h
      obtain ⟨b, hs, hr⟩ := baseType_sound hbase
      exact ⟨.base b, hs, hr⟩
    · split at h
      · rename_i r' hobject
        obtain rfl := Option.some_inj.mp h
        obtain ⟨cls, hs, hr⟩ := objectType_sound hobject
        exact ⟨.object cls, hs, hr⟩
      · split_ifs at h with hc
        obtain ⟨r', hr', rfl⟩ := Option.map_eq_some_iff.mp h
        obtain ⟨t, hs, hr⟩ := ih hr'
        refine ⟨.array t, ?_, ?_⟩
        · rw [hc, hs]
          rfl
        · rw [hr, FieldType.shown, List.append_assoc]

/-- The arguments behind the first. -/
def furtherShown (ts : List FieldType) : Text := ts.flatMap fun t => ", ".toList ++ t.shown

theorem intercalate_shown (t : FieldType) (ts : List FieldType) :
    List.intercalate ", ".toList ((t :: ts).map FieldType.shown) = t.shown ++ furtherShown ts := by
  induction ts generalizing t with
  | nil => simp [furtherShown]
  | cons u ts ih =>
    rw [List.map_cons, List.map_cons, List.intercalate_cons_cons, ← List.map_cons, ih, furtherShown, furtherShown,
      List.flatMap_cons, List.append_assoc, List.append_assoc]

theorem FieldType.text_ne_nil (t : FieldType) : t.text ≠ [] := by
  cases t <;> exact List.cons_ne_nil _ _

theorem listOfFieldType_step {first : Bool} (hne : s ≠ [])
    (h : fieldType (if first then result ++ ", ".toList else result) s = some r) :
    listOfFieldType first result s = listOfFieldType true r.1 r.2 := by
  rw [listOfFieldType, if_neg hne]
  split <;> simp_all

theorem listOfFieldType_further (ts : List FieldType) (result : Text) :
    listOfFieldType true result (argsText ts) = some (result ++ furtherShown ts) := by
  induction ts generalizing result with
  | nil =>
    have htext : argsText [] = [] := rfl
    rw [htext, listOfFieldType, if_pos rfl, furtherShown, List.flatMap_nil, List.append_nil]
  | cons t ts ih =>
    have htext : argsText (t :: ts) = t.text ++ argsText ts := rfl
    have hne : t.text ++ argsText ts ≠ [] := fun h => t.text_ne_nil (List.append_eq_nil_iff.mp h).1
    rw [htext, listOfFieldType_step hne (fieldType_text t _ _), ih]
    simp [furtherShown]

theorem listOfFieldType_args (ts : List FieldType) (result : Text) :
    listOfFieldType false result (argsText ts) = some (result ++ List.intercalate ", ".toList (ts.map FieldType.shown)) := by
  cases ts with
  | nil =>
    have htext : argsText [] = [] := rfl
    rw [htext, listOfFieldType, if_pos rfl, List.map_nil, List.intercalate_nil, List.append_nil]
  | cons t ts =>
    have htext : argsText (t :: ts) = t.text ++ argsText ts := rfl
    have hne : t.text ++ argsText ts ≠ [] := fun h => t.text_ne_nil (List.append_eq_nil_iff.mp h).1
    rw [htext, listOfFieldType_step hne (fieldType_text t _ _), listOfFieldType_further, intercalate_shown]
    simp

theorem listOfFieldType_sound {first : Bool} {out : Text} (h : listOfFieldType first result s = some out) :
    ∃ ts, s = argsText ts := by
  fun_induction listOfFieldType first result s with
  | case1 => exact ⟨[], rfl⟩
  | case2 => cases h
  | case3 first result s hne result' rest hfield ih =>
    obtain ⟨t, hs, -⟩ := fieldType_sound hfield
    obtain ⟨ts, hrest⟩ := ih h
    exact ⟨t :: ts, by rw [hs, hrest]; rfl⟩

theorem returnDescriptor_text (ret : Option FieldType) (result rest : Text) :
    returnDescriptor result (returnText ret ++ rest) = some (returnShown ret ++ ' ' :: result, rest) := by
  cases ret with
  | none => rfl
  | some t =>
    have hfield := fieldType_text t [] rest
    obtain ⟨c, w, htext⟩ := List.exists_cons_of_ne_nil t.text_ne_nil
    have hvoid : c ≠ 'V' := by
      cases t with
      | base b => cases b <;> (obtain ⟨rfl, -⟩ := List.cons.inj htext; decide)
      | object cls => obtain ⟨rfl, -⟩ := List.cons.inj htext; decide
      | array t => obtain ⟨rfl, -⟩ := List.cons.inj htext; decide
    rw [returnText]
    rw [htext, List.cons_append] at hfield ⊢
    rw [returnDescriptor, if_neg hvoid, hfield, returnShown]
    simp

theorem returnDescriptor_sound (h : returnDescriptor result s = some r) :
    ∃ ret, s = returnText ret ++ r.2 ∧ r.1 = returnShown ret ++ ' ' :: result := by
  cases s with
  | nil => cases h
  | cons c s =>
    rw [returnDescriptor] at h
    split_ifs at h with hc
    · obtain rfl := Option.some_inj.mp h
      exact ⟨none, by rw [hc]; rfl, rfl⟩
    · obtain ⟨r', hr', rfl⟩ := Option.map_eq_some_iff.mp h
      obtain ⟨t, hs, hr⟩ := fieldType_sound hr'
      refine ⟨some t, hs, ?_⟩
      rw [hr]
      simp [returnShown]

theorem methodDescriptor_text (args : List FieldType) (ret : Option FieldType) (result rest : Text)
    (hplain : ')' ∉ argsText args) :
    methodDescriptor result ('(' :: argsText args ++ ')' :: returnText ret ++ rest) =
      some (returnShown ret ++ ' ' :: result ++ '(' :: List.intercalate ", ".toList (args.map FieldType.shown) ++ [')'],
        rest) := by
  have htext : '(' :: argsText args ++ ')' :: returnText ret ++ rest =
      '(' :: (argsText args ++ ')' :: (returnText ret ++ rest)) := by simp
  rw [htext, methodDescriptor, if_neg (by simp), dropWhile_cut hplain, takeWhile_cut hplain]
  dsimp only
  rw [listOfFieldType_args, Option.bind_some, returnDescriptor_text, Option.map_some]
  simp

theorem methodDescriptor_sound (h : methodDescriptor result s = some r) :
    ∃ args ret, s = '(' :: argsText args ++ ')' :: returnText ret ++ r.2 ∧ ')' ∉ argsText args := by
  cases s with
  | nil => cases h
  | cons c s =>
    rw [methodDescriptor] at h
    split_ifs at h with hc
    split at h
    · cases h
    · rename_i d rest hdrop
      obtain ⟨hs, hmem⟩ := cut_of_dropWhile hdrop
      obtain ⟨out, hargs, h⟩ := Option.bind_eq_some_iff.mp h
      obtain ⟨r', hret, rfl⟩ := Option.map_eq_some_iff.mp h
      obtain ⟨args, htext⟩ := listOfFieldType_sound hargs
      obtain ⟨ret, hrest, -⟩ := returnDescriptor_sound hret
      rw [htext] at hmem hs
      refine ⟨args, ret, ?_, hmem⟩
      rw [hs, hrest, not_not.mp hc]
      simp

/-- No argument class holds a closing parenthesis. -/
def Signature.Plain (m : Signature) : Prop := ∀ t ∈ m.args, t.Plain

theorem FieldType.plain_iff (t : FieldType) : ')' ∉ t.text ↔ t.Plain := by
  induction t with
  | base b => cases b <;> simp [FieldType.text, FieldType.Plain, BaseType.letter]
  | object cls => simp [FieldType.text, FieldType.Plain, ClassName.text]
  | array t ih => simp [FieldType.text, FieldType.Plain, ih]

theorem argsText_plain_iff (args : List FieldType) : ')' ∉ argsText args ↔ ∀ t ∈ args, t.Plain := by
  simp only [argsText, List.mem_flatMap, not_exists, not_and, FieldType.plain_iff]

theorem methodeName_text (m : MethodName) (result rest : Text) :
    methodeName result (m.name ++ '(' :: rest) = some (result ++ '.' :: m.name, '(' :: rest) := by
  rw [methodeName, dropWhile_cut m.noParen, takeWhile_cut m.noParen]

theorem methodeName_sound (h : methodeName result s = some r) :
    ∃ m : MethodName, s = m.name ++ r.2 := by
  rw [methodeName] at h
  split at h
  · cases h
  · rename_i d rest hdrop
    obtain ⟨hs, hmem⟩ := cut_of_dropWhile hdrop
    obtain rfl := Option.some_inj.mp h
    refine ⟨⟨_, hmem⟩, ?_⟩
    exact (List.takeWhile_append_dropWhile (p := (· ≠ '(')) (l := s)).symm.trans (by rw [hdrop])

/-- The demangler reads a plain symbol and prints it. -/
theorem demangle_text (m : Signature) (hplain : m.Plain) : demangleJavaSymbol m.text = m.shown := by
  have htext : m.text = m.cls.text ++ (m.method.name ++ '(' :: (argsText m.args ++ ')' :: (returnText m.ret ++ m.suffix.text))) := by
    simp [Signature.text]
  have hdescriptor := methodDescriptor_text m.args m.ret (m.cls.shown ++ '.' :: m.method.name) m.suffix.text
    ((argsText_plain_iff m.args).mpr hplain)
  have hform : '(' :: argsText m.args ++ ')' :: returnText m.ret ++ m.suffix.text =
      '(' :: (argsText m.args ++ ')' :: (returnText m.ret ++ m.suffix.text)) := by simp
  rw [hform] at hdescriptor
  rw [demangleJavaSymbol, htext, objectType_text, Option.bind_some, methodeName_text, Option.bind_some, List.nil_append,
    hdescriptor, Signature.shown]
  cases hsuffix : m.suffix.text with
  | nil => simp
  | cons c s =>
    have htilde : c = '~' := by
      have hhead := m.suffix.tilde (by simp [hsuffix])
      rw [hsuffix] at hhead
      exact Option.some_inj.mp hhead
    rw [htilde]
    simp

theorem Signature.shown_ne_nil (m : Signature) : m.shown ≠ [] := by
  simp [Signature.shown]

/-- What the demangler accepts is a plain symbol of the grammar. -/
theorem demangle_sound (h : demangleJavaSymbol s ≠ []) : ∃ m : Signature, m.text = s ∧ m.Plain := by
  rw [demangleJavaSymbol] at h
  split at h
  · exact absurd rfl h
  all_goals
    rename_i hparse
    obtain ⟨r, hclass, hparse⟩ := Option.bind_eq_some_iff.mp hparse
    obtain ⟨r', hname, hdescriptor⟩ := Option.bind_eq_some_iff.mp hparse
    obtain ⟨cls, hs, -⟩ := objectType_sound hclass
    obtain ⟨method, hs'⟩ := methodeName_sound hname
    obtain ⟨args, ret, hs'', hplain⟩ := methodDescriptor_sound hdescriptor
  · refine ⟨⟨cls, method, args, ret, ⟨[], fun hne => absurd rfl hne⟩⟩, ?_, (argsText_plain_iff args).mp hplain⟩
    rw [hs, hs', hs'']
    simp [Signature.text]
  · rename_i c rest _
    split_ifs at h with hc
    · refine ⟨⟨cls, method, args, ret, ⟨c :: rest, fun _ => by rw [hc]; rfl⟩⟩, ?_, (argsText_plain_iff args).mp hplain⟩
      rw [hs, hs', hs'']
      simp [Signature.text]
    · exact absurd rfl h

/-! The grammar is not ambiguous: a text has one way to be read. -/

theorem FieldType.text_cancel {t u : FieldType} {x y : Text} (h : t.text ++ x = u.text ++ y) : t.text = u.text ∧ x = y := by
  have ht := fieldType_text t [] x
  rw [h, fieldType_text] at ht
  have hrest : x = y := (congrArg Prod.snd (Option.some_inj.mp ht)).symm
  rw [hrest] at h
  exact ⟨List.append_cancel_right h, hrest⟩

/-- A type does not begin with the parenthesis that ends the arguments. -/
theorem FieldType.text_ne_paren (t : FieldType) (x y : Text) : t.text ++ x ≠ ')' :: y := by
  cases t with
  | base b => cases b <;> simp [FieldType.text, BaseType.letter]
  | object cls => simp [FieldType.text, ClassName.text]
  | array t => simp [FieldType.text]

theorem argsText_cancel {as bs : List FieldType} {x y : Text} (h : argsText as ++ ')' :: x = argsText bs ++ ')' :: y) :
    argsText as = argsText bs := by
  induction as generalizing bs with
  | nil =>
    cases bs with
    | nil => rfl
    | cons b bs =>
      have htext : argsText (b :: bs) ++ ')' :: y = b.text ++ (argsText bs ++ ')' :: y) := List.append_assoc _ _ _
      rw [htext] at h
      exact absurd h.symm (b.text_ne_paren _ _)
  | cons a as ih =>
    have hleft : argsText (a :: as) ++ ')' :: x = a.text ++ (argsText as ++ ')' :: x) := List.append_assoc _ _ _
    cases bs with
    | nil =>
      rw [hleft] at h
      exact absurd h (a.text_ne_paren _ _)
    | cons b bs =>
      have hright : argsText (b :: bs) ++ ')' :: y = b.text ++ (argsText bs ++ ')' :: y) := List.append_assoc _ _ _
      rw [hleft, hright] at h
      obtain ⟨hfirst, hrest⟩ := FieldType.text_cancel h
      have hargs := ih hrest
      show a.text ++ argsText as = b.text ++ argsText bs
      rw [hfirst, hargs]

theorem Signature.args_of_text {m m' : Signature} (h : m.text = m'.text) : argsText m.args = argsText m'.args := by
  have hform : ∀ k : Signature, k.text =
      k.cls.text ++ (k.method.name ++ '(' :: (argsText k.args ++ ')' :: (returnText k.ret ++ k.suffix.text))) := by
    intro k
    simp [Signature.text]
  rw [hform, hform] at h
  have hclass := objectType_text m.cls [] (m.method.name ++ '(' :: (argsText m.args ++ ')' :: (returnText m.ret ++ m.suffix.text)))
  rw [h, objectType_text] at hclass
  have hmethod := methodeName_text m.method [] (argsText m.args ++ ')' :: (returnText m.ret ++ m.suffix.text))
  have hrest := congrArg Prod.snd (Option.some_inj.mp hclass)
  dsimp only at hrest
  rw [← hrest, methodeName_text] at hmethod
  have hargs := congrArg Prod.snd (Option.some_inj.mp hmethod)
  exact (argsText_cancel (List.cons.inj hargs).2).symm

theorem Signature.plain_of_text {m m' : Signature} (h : m.text = m'.text) (hplain : m'.Plain) : m.Plain := by
  apply (argsText_plain_iff m.args).mp
  rw [Signature.args_of_text h]
  exact (argsText_plain_iff m'.args).mpr hplain

/-- Just the symbols of the grammar are accepted, and each is printed. -/
def DemanglesGrammar (s : Text) : Prop :=
  (demangleJavaSymbol s ≠ [] ↔ ∃ m : Signature, m.text = s) ∧ ∀ m : Signature, m.text = s → demangleJavaSymbol s = m.shown

/-- The demangler meets its grammar on a text unless it is a symbol with a parenthesis in an argument's class. -/
theorem demanglesGrammar_iff (s : Text) : DemanglesGrammar s ↔ ∀ m : Signature, m.text = s → m.Plain := by
  constructor
  · rintro ⟨hiff, -⟩ m hm
    obtain ⟨m', hm', hplain⟩ := demangle_sound (hiff.mpr ⟨m, hm⟩)
    exact Signature.plain_of_text (hm.trans hm'.symm) hplain
  · intro hplain
    refine ⟨⟨fun h => ?_, ?_⟩, ?_⟩
    · obtain ⟨m, hm, -⟩ := demangle_sound h
      exact ⟨m, hm⟩
    · rintro ⟨m, rfl⟩
      rw [demangle_text m (hplain m rfl)]
      exact m.shown_ne_nil
    · rintro m rfl
      exact demangle_text m (hplain m rfl)

/-- An argument of the class `x)y` is cut at its parenthesis. -/
theorem demangle_paren_class : ¬DemanglesGrammar "La;m(Lx)y;)V".toList := by
  intro h
  have haccepted := h.1.mpr
    ⟨⟨⟨['a'], by decide⟩, ⟨['m'], by decide⟩, [.object ⟨['x', ')', 'y'], by decide⟩], none,
      ⟨[], fun hne => absurd rfl hne⟩⟩, by decide⟩
  exact haccepted (by decide +kernel)

end Oprofile.Libregex
