import Oprofile.Library.Results
import Oprofile.SampleNames.ParseFilename
import Mathlib.Data.List.Basic
import Mathlib.Data.List.TakeWhile

/-! Which names of sample files the parser reads past the last component of (`parse_filename.cpp`). -/
namespace Oprofile.SampleNames

section

variable {host : Host} {filename filenameSpec m : Text} {path : List Text}

/-- A list is cut in one way before the first occurrence of a component. -/
theorem dropWhile_ne_eq_cons {α : Type} [DecidableEq α] {x : α} {l tail : List α} :
    l.dropWhile (· ≠ x) = x :: tail ↔ ∃ front, l = front ++ x :: tail ∧ x ∉ front := by
  constructor
  · intro h
    refine ⟨l.takeWhile (· ≠ x), ?_, ?_⟩
    · rw [← h, List.takeWhile_append_dropWhile]
    · intro hmem
      simpa using List.mem_takeWhile_imp hmem
  · rintro ⟨front, rfl, hx⟩
    have hfront : front.dropWhile (· ≠ x) = [] := by
      rw [List.dropWhile_eq_nil_iff]
      intro y hy
      simpa using fun h : y = x => hx (h ▸ hy)
    rw [List.dropWhile_append, hfront]
    simp

/-- `dropWhile` stops at the component it looks for, or at the end. -/
theorem dropWhile_ne_cases {α : Type} [DecidableEq α] (x : α) (l : List α) :
    l.dropWhile (· ≠ x) = [] ∨ ∃ tail, l.dropWhile (· ≠ x) = x :: tail := by
  induction l with
  | nil => exact Or.inl rfl
  | cons y l ih =>
    by_cases hy : y = x
    · right
      exact ⟨l, by simp [hy]⟩
    · rw [List.dropWhile_cons, if_pos (decide_eq_true hy)]
      exact ih

theorem parseAnon_ne_pastEnd {str str2 : Text} : parseAnon str str2 ≠ .error .pastEnd := by
  intro h
  unfold parseAnon at h
  dsimp only at h
  split at h
  · cases h
  · split at h
    · cases h
    · cases h

/-- An anonymous mapping gets its name from its component and its marker. -/
theorem parseAnon_ok {str str2 : Text} :
    (∃ name, parseAnon str str2 = .ok name) ↔ str2.drop 6 ≠ [] ∧ (separateToken str '.').length = 3 := by
  unfold parseAnon
  dsimp only
  split
  · rename_i hname
    refine iff_of_false ?_ fun h => h.1 hname
    rintro ⟨name, h⟩
    cases h
  · rename_i hname
    split
    · rename_i tgid start stop htokens
      exact iff_of_true ⟨_, rfl⟩ ⟨hname, by rw [htokens]; rfl⟩
    · rename_i hother
      refine iff_of_false ?_ ?_
      · rintro ⟨name, h⟩
        cases h
      · rintro ⟨-, hlength⟩
        obtain ⟨a, b, c, h⟩ := List.length_eq_three.mp hlength
        exact hother a b c h

/-- The component of an anonymous mapping is taken: a JIT dump is there, or it has its three numbers. -/
def AnonTaken (host : Host) (filenameSpec m c : Text) : Prop :=
  ∃ pos, secondLastDot filenameSpec = some pos ∧
    (host.fileExists (filenameSpec.take pos ++ ['.', 'j', 'o']) = true ∨
      m.drop 6 ≠ [] ∧ (separateToken c '.').length = 3)

/-- What is left for the caller when the image behind `m` is read. -/
theorem parseLib_rest {rest : List Text} : (∃ lib jit, parseLib host filenameSpec m path = .ok (lib, jit, rest)) ↔
    if anonColon.isPrefixOf m then
      path = [] ∧ rest = [] ∨ (∃ tail, path = cgMarker :: tail ∧ rest = path) ∨
      ∃ c, path = c :: rest ∧ c ≠ cgMarker ∧ AnonTaken host filenameSpec m c
    else rest = path.dropWhile (· ≠ cgMarker) := by
  unfold parseLib
  by_cases hm : anonColon.isPrefixOf m = true
  · rw [if_pos hm, if_pos hm]
    cases path with
    | nil =>
      constructor
      · rintro ⟨lib, jit, h⟩
        cases h
        exact Or.inl ⟨rfl, rfl⟩
      · rintro (⟨-, rfl⟩ | ⟨tail, h, -⟩ | ⟨c, h, -⟩)
        · exact ⟨_, _, rfl⟩
        · cases h
        · cases h
    | cons c tail =>
      dsimp only
      by_cases hc : c = cgMarker
      · rw [if_pos hc]
        constructor
        · rintro ⟨lib, jit, h⟩
          cases h
          exact Or.inr (Or.inl ⟨tail, by rw [hc], rfl⟩)
        · rintro (⟨h, -⟩ | ⟨-, -, rfl⟩ | ⟨c', h, hne, -⟩)
          · cases h
          · exact ⟨_, _, rfl⟩
          · cases h
            exact absurd hc hne
      · rw [if_neg hc]
        have hright : (False ∨ (∃ t, c :: tail = cgMarker :: t ∧ rest = c :: tail) ∨
            ∃ c', c :: tail = c' :: rest ∧ c' ≠ cgMarker ∧ AnonTaken host filenameSpec m c') ↔
            rest = tail ∧ AnonTaken host filenameSpec m c := by
          constructor
          · rintro (h | ⟨t, h, -⟩ | ⟨c', h, -, htaken⟩)
            · exact h.elim
            · exact absurd (List.cons.inj h).1 hc
            · cases h
              exact ⟨rfl, htaken⟩
          · rintro ⟨rfl, htaken⟩
            exact Or.inr (Or.inr ⟨c, rfl, hc, htaken⟩)
        rw [show (c :: tail = [] ∧ rest = []) = False by simp, hright]
        cases hdot : secondLastDot filenameSpec with
        | none =>
          refine iff_of_false ?_ ?_
          · rintro ⟨lib, jit, h⟩
            cases h
          · rintro ⟨-, pos, hpos, -⟩
            rw [hdot] at hpos
            cases hpos
        | some pos =>
          have htaken : AnonTaken host filenameSpec m c ↔
              (host.fileExists (filenameSpec.take pos ++ ['.', 'j', 'o']) = true ∨ ∃ name, parseAnon c m = .ok name) := by
            rw [parseAnon_ok, AnonTaken, hdot]
            simp
          rw [htaken]
          dsimp only
          split
          · rename_i hexists
            constructor
            · rintro ⟨lib, jit, h⟩
              cases h
              exact ⟨rfl, Or.inl hexists⟩
            · rintro ⟨rfl, -⟩
              exact ⟨_, _, rfl⟩
          · rename_i hmissing
            constructor
            · rintro ⟨lib, jit, h⟩
              obtain ⟨name, hname, heq⟩ := Results.map_ok h
              cases heq
              exact ⟨rfl, Or.inr ⟨_, hname⟩⟩
            · rintro ⟨rfl, hexists | ⟨name, hname⟩⟩
              · exact absurd hexists hmissing
              · exact ⟨name, false, by rw [hname]; rfl⟩
  · rw [if_neg hm, if_neg hm]
    constructor
    · rintro ⟨lib, jit, h⟩
      cases h
      rfl
    · rintro rfl
      exact ⟨_, _, rfl⟩

theorem parseLib_ne_pastEnd : parseLib host filenameSpec m path ≠ .error .pastEnd := by
  intro h
  unfold parseLib at h
  split at h
  · split at h
    · cases h
    · split at h
      · cases h
      · split at h
        · cases h
        · dsimp only at h
          split at h
          · cases h
          · rename_i c rest _ _ _ _ _
            cases hanon : parseAnon c m with
            | ok name =>
              rw [hanon] at h
              cases h
            | error e =>
              rw [hanon] at h
              cases h
              exact parseAnon_ne_pastEnd hanon
  · cases h

/-- The caller's image is a marker of an anonymous mapping with nothing behind it. -/
theorem parseCg_pastEnd : parseCg filename path = .error .pastEnd ↔ ∃ x a, path = [x, a] ∧ anonOpen.isPrefixOf a = true := by
  constructor
  · intro h
    unfold parseCg at h
    split at h
    · cases h
    · cases h
    · rename_i x a rest
      split at h
      · cases h
      · split at h
        · rename_i hanon
          split at h
          · exact ⟨x, a, rfl, hanon⟩
          · exact absurd h parseAnon_ne_pastEnd
        · cases h
  · rintro ⟨x, a, rfl, hanon⟩
    have hside : isSideMarker a = true := by rw [isSideMarker, hanon, Bool.or_true]
    rw [parseCg, if_neg (not_not.mpr hside), if_pos hanon]

/-! The paths that end too early. -/

/-- Behind the image's marker `m`: the path ends with the marker of the caller's anonymous mapping. -/
def EndsAtCaller (host : Host) (filenameSpec m : Text) (path : List Text) : Prop :=
  if anonColon.isPrefixOf m then
    (∃ a, path = [cgMarker, a] ∧ anonOpen.isPrefixOf a = true) ∨
    ∃ c x a, path = [c, x, a] ∧ c ≠ cgMarker ∧ AnonTaken host filenameSpec m c ∧ anonOpen.isPrefixOf a = true
  else ∃ lib a, path = lib ++ [cgMarker, a] ∧ cgMarker ∉ lib ∧ anonOpen.isPrefixOf a = true

/-- A path whose first `{dep}` is its last component, or that ends with the marker of the caller. -/
def EndsAtMarker (host : Host) (filenameSpec : Text) (path : List Text) : Prop :=
  ∃ base image tail, path = base :: (image ++ depMarker :: tail) ∧ depMarker ∉ image ∧
    (tail = [] ∨ ∃ m rest, tail = m :: rest ∧ isSideMarker m = true ∧ EndsAtCaller host filenameSpec m rest)

theorem endsAtCaller_iff (filename : Text) : EndsAtCaller host filenameSpec m path ↔
    ∃ lib jit rest, parseLib host filenameSpec m path = .ok (lib, jit, rest) ∧ parseCg filename rest = .error .pastEnd := by
  have hswap : (∃ lib jit rest, parseLib host filenameSpec m path = .ok (lib, jit, rest) ∧
      parseCg filename rest = .error .pastEnd) ↔
      ∃ rest, (∃ lib jit, parseLib host filenameSpec m path = .ok (lib, jit, rest)) ∧
        ∃ x a, rest = [x, a] ∧ anonOpen.isPrefixOf a = true := by
    simp only [parseCg_pastEnd]
    constructor
    · rintro ⟨lib, jit, rest, hlib, hrest⟩
      exact ⟨rest, ⟨lib, jit, hlib⟩, hrest⟩
    · rintro ⟨rest, ⟨lib, jit, hlib⟩, hrest⟩
      exact ⟨lib, jit, rest, hlib, hrest⟩
  rw [hswap, EndsAtCaller]
  simp only [parseLib_rest]
  split
  · constructor
    · rintro (⟨a, rfl, ha⟩ | ⟨c, x, a, rfl, hc, htaken, ha⟩)
      · exact ⟨_, Or.inr (Or.inl ⟨[a], rfl, rfl⟩), cgMarker, a, rfl, ha⟩
      · exact ⟨[x, a], Or.inr (Or.inr ⟨c, rfl, hc, htaken⟩), x, a, rfl, ha⟩
    · rintro ⟨rest, ⟨-, rfl⟩ | ⟨tail, rfl, rfl⟩ | ⟨c, rfl, hc, htaken⟩, x, a, hrest, ha⟩
      · cases hrest
      · cases hrest
        exact Or.inl ⟨a, rfl, ha⟩
      · subst hrest
        exact Or.inr ⟨c, x, a, rfl, hc, htaken, ha⟩
  · constructor
    · rintro ⟨lib, a, hpath, hlib, ha⟩
      exact ⟨_, rfl, cgMarker, a, dropWhile_ne_eq_cons.mpr ⟨lib, hpath, hlib⟩, ha⟩
    · rintro ⟨rest, rfl, x, a, hrest, ha⟩
      rcases dropWhile_ne_cases cgMarker path with hnil | ⟨tail, hcons⟩
      · rw [hnil] at hrest
        cases hrest
      · rw [hcons] at hrest
        cases hrest
        obtain ⟨lib, hpath, hlib⟩ := dropWhile_ne_eq_cons.mp hcons
        exact ⟨lib, a, hpath, hlib, ha⟩

theorem parsePath_pastEnd (filename : Text) : parsePath host filename filenameSpec path = .error .pastEnd ↔
    EndsAtMarker host filenameSpec path := by
  constructor
  · intro h
    unfold parsePath at h
    split at h
    · cases h
    · cases path with
      | nil => cases h
      | cons base rest =>
        simp only [List.drop_succ_cons, List.drop_zero] at h
        rcases dropWhile_ne_cases depMarker rest with hnil | ⟨tail, hcons⟩
        · rw [hnil] at h
          cases h
        · obtain ⟨image, rfl, himage⟩ := dropWhile_ne_eq_cons.mp hcons
          refine ⟨base, image, tail, rfl, himage, ?_⟩
          rw [hcons] at h
          cases tail with
          | nil => exact Or.inl rfl
          | cons m rest =>
            right
            dsimp only at h
            by_cases hside : isSideMarker m = true
            · refine ⟨m, rest, rfl, hside, ?_⟩
              rw [if_neg (not_not.mpr hside)] at h
              cases hlib : parseLib host filenameSpec m rest with
              | error e =>
                rw [hlib] at h
                cases h
                exact absurd hlib parseLib_ne_pastEnd
              | ok r =>
                obtain ⟨lib, jit, left⟩ := r
                rw [hlib] at h
                cases hcg : parseCg filename left with
                | error e =>
                  simp only [Results.ok_then, hcg] at h
                  cases h
                  exact (endsAtCaller_iff filename).mpr ⟨lib, jit, left, hlib, hcg⟩
                | ok cg =>
                  simp only [Results.ok_then, hcg] at h
                  cases h
            · rw [if_pos hside] at h
              cases h
  · rintro ⟨base, image, tail, rfl, himage, htail⟩
    have hcons : (image ++ depMarker :: tail).dropWhile (· ≠ depMarker) = depMarker :: tail :=
      dropWhile_ne_eq_cons.mpr ⟨image, rfl, himage⟩
    have hlong : ¬(base :: (image ++ depMarker :: tail)).length < 2 := by
      simp only [List.length_cons, List.length_append]
      omega
    rw [parsePath, if_neg hlong]
    simp only [List.drop_succ_cons, List.drop_zero, hcons]
    rcases htail with rfl | ⟨m, rest, rfl, hside, hcaller⟩
    · rfl
    · obtain ⟨lib, jit, left, hlib, hcg⟩ := (endsAtCaller_iff filename).mp hcaller
      dsimp only
      rw [if_neg (not_not.mpr hside), hlib]
      simp only [Results.ok_then, hcg]
      rfl

theorem parseEventSpec_ne_pastEnd {eventSpec : Text} : parseEventSpec eventSpec ≠ .error .pastEnd := by
  intro h
  unfold parseEventSpec at h
  split at h
  · split at h
    · cases h
    · cases h
  · cases h

end

/-- The parser returns or throws, and reads no component that is not there. -/
def Robust (host : Host) (filename : Text) : Prop := parseFilename host filename ≠ .error .pastEnd

/-- A well-formed event specification in a directory whose path ends too early. -/
def EndsTooEarly (host : Host) (filename : Text) : Prop :=
  ∃ filenameSpec eventSpec, splitLastSlash filename = some (filenameSpec, eventSpec) ∧
    (∃ result, parseEventSpec eventSpec = .ok result) ∧
    EndsAtMarker host filenameSpec (removeBaseDir (separateToken filenameSpec '/'))

/-- The parser is robust for every other name. -/
theorem parseFilename_robust_iff (host : Host) (filename : Text) :
    Robust host filename ↔ ¬EndsTooEarly host filename := by
  rw [Robust, not_iff_not, parseFilename, EndsTooEarly]
  cases hsplit : splitLastSlash filename with
  | none => simp
  | some parts =>
    obtain ⟨filenameSpec, eventSpec⟩ := parts
    cases hspec : parseEventSpec eventSpec with
    | error e =>
      refine iff_of_false ?_ ?_
      · intro h
        simp only [hspec] at h
        cases h
        exact parseEventSpec_ne_pastEnd hspec
      · rintro ⟨_, _, heq, ⟨result, hok⟩, -⟩
        cases heq
        rw [hspec] at hok
        cases hok
    | ok result =>
      have hpath : EndsAtMarker host filenameSpec (removeBaseDir (separateToken filenameSpec '/')) ↔
          ∃ f s, some (filenameSpec, eventSpec) = some (f, s) ∧ (∃ r, parseEventSpec s = .ok r) ∧
            EndsAtMarker host f (removeBaseDir (separateToken f '/')) := by
        constructor
        · exact fun h => ⟨_, _, rfl, ⟨result, hspec⟩, h⟩
        · rintro ⟨_, _, heq, -, h⟩
          cases heq
          exact h
      rw [← hpath, ← parsePath_pastEnd filename]
      simp only [hspec, Results.ok_then]
      cases hparse : parsePath host filename filenameSpec (removeBaseDir (separateToken filenameSpec '/')) with
      | error e =>
        constructor
        · intro h
          cases h
          rfl
        · intro h
          cases h
          rfl
      | ok r =>
        refine iff_of_false ?_ ?_
        · intro h
          cases h
        · intro h
          cases h

/-- No file exists. -/
def bareHost : Host where
  fileExists _ := false
  stripPathPrefix path := path

/-- `{root}/a/{dep}/C.1.0.all.all.all` -/
def depLast : Text :=
  rootMarker ++ ['/', 'a', '/'] ++ depMarker ++
    ['/', 'C', '.', '1', '.', '0', '.', 'a', 'l', 'l', '.', 'a', 'l', 'l', '.', 'a', 'l', 'l']

/-- A directory that ends with `{dep}` makes the parser read past its path. -/
theorem dep_last_reads_past : ¬Robust bareHost depLast := by
  intro h
  exact h (by decide)

end Oprofile.SampleNames
