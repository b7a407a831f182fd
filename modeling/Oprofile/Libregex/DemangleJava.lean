import Oprofile.SampleNames.Mangle

/-! Demangling the symbols of a Java virtual machine (`demangle_java_symbol.cpp`). -/
namespace Oprofile.Libregex

open SampleNames

/-! A function of the parser takes the result so far and the text from `begin` on, and returns both, or none where
it returns false. -/

def baseType (result : Text) : Text → Option (Text × Text)
  | [] => none
  | c :: s =>
    if c = 'B' then some (result ++ "byte".toList, s)
    else if c = 'C' then some (result ++ "char".toList, s)
    else if c = 'D' then some (result ++ "double".toList, s)
    else if c = 'F' then some (result ++ "float".toList, s)
    else if c = 'I' then some (result ++ "int".toList, s)
    else if c = 'J' then some (result ++ "long".toList, s)
    else if c = 'S' then some (result ++ "short".toList, s)
    else if c = 'Z' then some (result ++ "boolean".toList, s)
    else none

/-- The text behind an `L` up to the first semicolon, with dots for slashes. -/
def objectType (result : Text) : Text → Option (Text × Text)
  | [] => none
  | c :: s =>
    if c ≠ 'L' then none
    else
      match s.dropWhile (· ≠ ';') with
      | [] => none
      | _ :: rest =>
        some (result ++ (s.takeWhile (· ≠ ';')).map fun c => if c = '/' then '.' else c, rest)

/-- `field_type`, with `array_type` as its last branch. -/
def fieldType (result : Text) : Text → Option (Text × Text)
  | [] => none
  | c :: s =>
    match baseType result (c :: s) with
    | some r => some r
    | none =>
      match objectType result (c :: s) with
      | some r => some r
      | none => if c = '[' then (fieldType result s).map fun r => (r.1 ++ "[]".toList, r.2) else none

theorem baseType_shorter {result s : Text} {r : Text × Text} (h : baseType result s = some r) : r.2.length < s.length := by
  cases s with
  | nil => cases h
  | cons c s =>
    rw [baseType] at h
    split_ifs at h <;> (obtain rfl := Option.some_inj.mp h; exact Nat.lt_succ_self _)

theorem objectType_shorter {result s : Text} {r : Text × Text} (h : objectType result s = some r) :
    r.2.length < s.length := by
  cases s with
  | nil => cases h
  | cons c s =>
    rw [objectType] at h
    split_ifs at h
    split at h
    · cases h
    · rename_i d rest hdrop
      obtain rfl := Option.some_inj.mp h
      have hle := (List.dropWhile_suffix (· ≠ ';') (l := s)).length_le
      rw [hdrop, List.length_cons] at hle
      exact Nat.lt_succ_of_lt hle

theorem fieldType_shorter {result s : Text} {r : Text × Text} (h : fieldType result s = some r) : r.2.length < s.length := by
  induction s generalizing r with
  | nil => cases h
  | cons c s ih =>
    rw [fieldType] at h
    split at h
    · obtain rfl := Option.some_inj.mp h
      exact baseType_shorter ‹_›
    · split at h
      · obtain rfl := Option.some_inj.mp h
        exact objectType_shorter ‹_›
      · split_ifs at h
        obtain ⟨r', hr', rfl⟩ := Option.map_eq_some_iff.mp h
        have hlt : r'.2.length < s.length := ih hr'
        exact Nat.lt_succ_of_lt hlt

/-- `list_of_field_type`, up to the end of its text. -/
def listOfFieldType (first : Bool) (result s : Text) : Option Text :=
  if s = [] then some result
  else
    match _h : fieldType (if first then result ++ ", ".toList else result) s with
    | none => none
    | some (result, rest) => listOfFieldType true result rest
termination_by s.length
decreasing_by exact fieldType_shorter _h

def returnDescriptor (result : Text) : Text → Option (Text × Text)
  | [] => none
  | c :: s =>
    if c = 'V' then some ("void ".toList ++ result, s)
    else (fieldType [] (c :: s)).map fun r => (r.1 ++ " ".toList ++ result, r.2)

/-- The arguments end at the first closing parenthesis. -/
def methodDescriptor (result : Text) : Text → Option (Text × Text)
  | [] => none
  | c :: s =>
    if c ≠ '(' then none
    else
      match s.dropWhile (· ≠ ')') with
      | [] => none
      | _ :: rest =>
        (listOfFieldType false (result ++ "(".toList) (s.takeWhile (· ≠ ')'))).bind fun result =>
          (returnDescriptor result rest).map fun r => (r.1 ++ ")".toList, r.2)

def methodeName (result s : Text) : Option (Text × Text) :=
  match s.dropWhile (· ≠ '(') with
  | [] => none
  | c :: rest => some (result ++ '.' :: s.takeWhile (· ≠ '('), c :: rest)

/-- `demangle_java_symbol`; an empty result stands for a symbol that is none. -/
def demangleJavaSymbol (name : Text) : Text :=
  match (objectType [] name).bind fun r => (methodeName r.1 r.2).bind fun r => methodDescriptor r.1 r.2 with
  | none => []
  | some (result, []) => result
  | some (result, c :: s) => if c = '~' then result ++ c :: s else []

example : demangleJavaSymbol "Lsun/SHA;implCompress([BI)V~1".toList = "void sun.SHA.implCompress(byte[], int)~1".toList := by
  decide +kernel

end Oprofile.Libregex
