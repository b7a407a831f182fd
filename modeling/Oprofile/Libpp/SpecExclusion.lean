import Oprofile.Libpp.ProfileSpec

/-! Which sample files a specification accepts, and where an excluded image slips through. -/
namespace Oprofile.Libpp

open SampleNames

variable (fs : SpecFiles)

/-- Some pattern of the list matches the name. -/
def SpecFiles.Matches (patterns : List Text) (name : Text) : Prop := ∃ p ∈ patterns, fs.fnmatch p name = true

instance (patterns : List Text) (name : Text) : Decidable (fs.Matches patterns name) :=
  inferInstanceAs (Decidable (∃ p ∈ patterns, fs.fnmatch p name = true))

/-- A list that was given holds the value. -/
def CommaList.Accepts {T : Type} (cl : CommaList T) (value : T) : Prop := cl.isAll = false → value ∈ cl.items

/-- A list that was given holds the value of a field, which then has one. -/
def CommaList.AcceptsField {T : Type} (cl : CommaList T) (value : Option T) : Prop :=
  cl.isAll = false → ∃ v ∈ cl.items, value = some v

namespace ProfileSpec

variable (self : ProfileSpec) (spec : FilenameSpec)

/-- The name of the file's image, and below of its library, after they are looked up. -/
def simage : Text := fs.findImagePath self.extraFoundImages spec.image

def slibImage : Text := fs.findImagePath self.extraFoundImages spec.libImage

structure NotExcluded : Prop where
  image : ¬fs.Matches self.imageExclude (simage fs self spec)
  libImage : spec.libImage ≠ [] → ¬fs.Matches self.imageExclude (slibImage fs self spec)

/-- A plain pattern matches one of the names. -/
def PlainAccepts : Prop :=
  fs.Matches self.imageOrLibImage (simage fs self spec) ∨ fs.Matches self.imageOrLibImage (slibImage fs self spec)

/-- The `image:` and `lib-image:` patterns that were given match; plain patterns alone have to match themselves. -/
structure TagsAccept : Prop where
  given : self.image ≠ [] ∨ self.libImage ≠ [] ∨ self.imageOrLibImage = []
  image : self.image ≠ [] → fs.Matches self.image (simage fs self spec)
  libImage : self.libImage ≠ [] → fs.Matches self.libImage (slibImage fs self spec)

structure FieldsAccept : Prop where
  event : self.event.Accepts spec.event
  count : self.count.Accepts spec.count
  unitmask : self.unitmask.Accepts spec.unitmask
  cpu : self.cpu.AcceptsField spec.cpu
  tid : self.tid.AcceptsField spec.tid
  tgid : self.tgid.AcceptsField spec.tgid

/-- A plain pattern matches a name that is not excluded. -/
def Shortcut : Prop :=
  (¬fs.Matches self.imageExclude (simage fs self spec) ∧ fs.Matches self.imageOrLibImage (simage fs self spec)) ∨
    (¬fs.Matches self.imageExclude (slibImage fs self spec) ∧ fs.Matches self.imageOrLibImage (slibImage fs self spec))

/-- One of the names is excluded, and a plain pattern matches the other, which is not. -/
def Exempted : Prop :=
  (fs.Matches self.imageExclude (simage fs self spec) ∧ ¬fs.Matches self.imageExclude (slibImage fs self spec) ∧
      fs.Matches self.imageOrLibImage (slibImage fs self spec)) ∨
    (spec.libImage ≠ [] ∧ fs.Matches self.imageExclude (slibImage fs self spec) ∧
      ¬fs.Matches self.imageExclude (simage fs self spec) ∧ fs.Matches self.imageOrLibImage (simage fs self spec))

end ProfileSpec

section

variable {fs : SpecFiles} {T : Type} [DecidableEq T] {incl excl : List Text} {name : Text}

theorem any_fnmatch_iff (patterns : List Text) (name : Text) :
    patterns.any (fs.fnmatch · name) = true ↔ fs.Matches patterns name := List.any_eq_true

theorem globMatch_iff :
    globMatch fs incl excl name = true ↔ ¬fs.Matches excl name ∧ (incl = [] ∨ fs.Matches incl name) := by
  rw [globMatch, ← any_fnmatch_iff, ← any_fnmatch_iff]
  cases excl.any (fs.fnmatch · name) <;> simp

theorem match_iff_accepts {cl : CommaList T} {value : T} : cl.match value = true ↔ cl.Accepts value := by
  rw [CommaList.match, CommaList.Accepts]
  cases cl.isAll <;> simp

theorem commaMatch_iff {cl : CommaList T} {value : Option T} : commaMatch cl value = true ↔ cl.AcceptsField value := by
  rw [CommaList.AcceptsField]
  cases hall : cl.isAll with
  | true => simp [commaMatch, hall]
  | false =>
    cases value with
    | none => simp [commaMatch, hall]
    | some v => simp [commaMatch, match_iff_accepts, CommaList.Accepts, hall]

end

namespace ProfileSpec

variable {fs : SpecFiles} {self : ProfileSpec} {spec : FilenameSpec}

theorem refuse (c x : Bool) : (if (!c) = true then false else x) = (c && x) := by cases c <;> rfl

theorem refuse_unless (m a x : Bool) : (if (!m && a) = true then false else x) = ((m || !a) && x) := by
  cases m <;> cases a <;> rfl

/-- What stands behind the image checks in `match`. -/
def fieldsMatch (self : ProfileSpec) (spec : FilenameSpec) : Bool :=
  self.event.match spec.event && (self.count.match spec.count && (self.unitmask.match spec.unitmask &&
    (commaMatch self.cpu spec.cpu && (commaMatch self.tid spec.tid && commaMatch self.tgid spec.tgid))))

theorem fieldsMatch_iff : fieldsMatch self spec = true ↔ FieldsAccept self spec := by
  simp only [fieldsMatch, Bool.and_eq_true, match_iff_accepts, commaMatch_iff]
  constructor
  · rintro ⟨hevent, hcount, hunitmask, hcpu, htid, htgid⟩
    exact ⟨hevent, hcount, hunitmask, hcpu, htid, htgid⟩
  · rintro ⟨hevent, hcount, hunitmask, hcpu, htid, htgid⟩
    exact ⟨hevent, hcount, hunitmask, hcpu, htid, htgid⟩

/-- Whether a plain pattern decides for the file. -/
def matchedByPlain (fs : SpecFiles) (self : ProfileSpec) (spec : FilenameSpec) : Bool :=
  if self.imageOrLibImage ≠ [] then
    globMatch fs self.imageOrLibImage self.imageExclude (simage fs self spec) ||
      globMatch fs self.imageOrLibImage self.imageExclude (slibImage fs self spec)
  else false

theorem matchedByPlain_iff : matchedByPlain fs self spec = true ↔ Shortcut fs self spec := by
  rw [matchedByPlain, Shortcut]
  by_cases hplain : self.imageOrLibImage = []
  · simp [hplain, SpecFiles.Matches]
  · simp [hplain, globMatch_iff]

/-- The checks of `match` as one conjunction. -/
theorem match_eq : self.match fs spec =
    ((matchedByPlain fs self spec || !(if self.image ≠ [] then !globMatch fs self.image self.imageExclude (simage fs self spec)
      else self.imageOrLibImage ≠ [])) &&
    ((matchedByPlain fs self spec || !(if self.libImage ≠ [] then
        !globMatch fs self.libImage self.imageExclude (slibImage fs self spec)
      else self.image = [] ∧ self.imageOrLibImage ≠ [])) &&
    ((matchedByPlain fs self spec || !!globMatch fs [] self.imageExclude (simage fs self spec)) &&
    ((matchedByPlain fs self spec || !(spec.libImage ≠ [] &&
        !globMatch fs [] self.imageExclude (slibImage fs self spec))) && fieldsMatch self spec)))) := by
  simp only [ProfileSpec.match, refuse, refuse_unless]
  rfl

theorem match_of_shortcut (h : Shortcut fs self spec) : self.match fs spec = fieldsMatch self spec := by
  rw [match_eq, matchedByPlain_iff.mpr h]
  simp only [Bool.true_or, Bool.true_and]

/-- Without a plain pattern that decides, the tags do, and both names are held against the exclusions. -/
theorem match_without_shortcut (h : ¬Shortcut fs self spec) (hmatch : self.match fs spec = true) :
    NotExcluded fs self spec ∧ TagsAccept fs self spec ∧ fieldsMatch self spec = true := by
  have hplain : matchedByPlain fs self spec = false := Bool.eq_false_iff.mpr (matchedByPlain_iff.not.mpr h)
  simp only [match_eq, hplain, Bool.false_or, Bool.and_eq_true, Bool.not_not, globMatch_iff, true_or, and_true] at hmatch
  obtain ⟨himage, hlib, hexcluded, hlibExcluded, hfields⟩ := hmatch
  refine ⟨⟨hexcluded, ?_⟩, ⟨?_, ?_, ?_⟩, hfields⟩
  · intro hne
    simpa [hne, globMatch_iff] using hlibExcluded
  · by_cases hi : self.image = []
    · by_cases hl : self.libImage = []
      · simp only [hi, ne_eq, not_true, if_false] at himage
        exact Or.inr (Or.inr (by simpa using himage))
      · exact Or.inr (Or.inl hl)
    · exact Or.inl hi
  · intro hne
    simp only [hne, ne_eq, not_false_eq_true, if_true, Bool.not_not, globMatch_iff, false_or] at himage
    exact himage.2
  · intro hne
    simp only [hne, ne_eq, not_false_eq_true, if_true, Bool.not_not, globMatch_iff, false_or] at hlib
    exact hlib.2

theorem Shortcut.plain (h : Shortcut fs self spec) : PlainAccepts fs self spec := by
  rcases h with ⟨-, himage⟩ | ⟨-, hlib⟩
  · exact Or.inl himage
  · exact Or.inr hlib

/-- What an accepted file is to satisfy: neither of its names is excluded, and every constraint accepts it. -/
def Meets (fs : SpecFiles) (self : ProfileSpec) (spec : FilenameSpec) : Prop :=
  NotExcluded fs self spec ∧ (PlainAccepts fs self spec ∨ TagsAccept fs self spec) ∧ FieldsAccept self spec

/-- A plain pattern that decides leaves only the exclusions open. -/
theorem notExcluded_iff_of_shortcut (h : Shortcut fs self spec) :
    NotExcluded fs self spec ↔ ¬Exempted fs self spec := by
  constructor
  · rintro ⟨himage, hlib⟩ (⟨hex, -⟩ | ⟨hne, hex, -⟩)
    · exact himage hex
    · exact hlib hne hex
  · intro hexempt
    refine ⟨fun hex => ?_, fun hne hex => ?_⟩
    · rcases h with ⟨hnot, -⟩ | ⟨hnot, hplain⟩
      · exact hnot hex
      · exact hexempt (Or.inl ⟨hex, hnot, hplain⟩)
    · rcases h with ⟨hnot, hplain⟩ | ⟨hnot, -⟩
      · exact hexempt (Or.inr ⟨hne, hex, hnot, hplain⟩)
      · exact hnot hex

theorem Exempted.shortcut (h : Exempted fs self spec) : Shortcut fs self spec := by
  rcases h with ⟨-, hnot, hplain⟩ | ⟨-, -, hnot, hplain⟩
  · exact Or.inr ⟨hnot, hplain⟩
  · exact Or.inl ⟨hnot, hplain⟩

/-- An accepted file meets the specification unless one of its names is excluded and a plain pattern matches
the other, which is not, while the other constraints accept it. -/
theorem match_meets_iff (fs : SpecFiles) (self : ProfileSpec) (spec : FilenameSpec) :
    (self.match fs spec = true → Meets fs self spec) ↔ ¬(Exempted fs self spec ∧ FieldsAccept self spec) := by
  constructor
  · rintro h ⟨hexempt, hfields⟩
    have hmatch : self.match fs spec = true := by
      rw [match_of_shortcut hexempt.shortcut]
      exact fieldsMatch_iff.mpr hfields
    exact (notExcluded_iff_of_shortcut hexempt.shortcut).mp (h hmatch).1 hexempt
  · intro h hmatch
    by_cases hshortcut : Shortcut fs self spec
    · rw [match_of_shortcut hshortcut] at hmatch
      have hfields := fieldsMatch_iff.mp hmatch
      have hnot : ¬Exempted fs self spec := fun hexempt => h ⟨hexempt, hfields⟩
      exact ⟨(notExcluded_iff_of_shortcut hshortcut).mpr hnot, Or.inl hshortcut.plain, hfields⟩
    · obtain ⟨hnot, htags, hfields⟩ := match_without_shortcut hshortcut hmatch
      exact ⟨hnot, Or.inr htags, fieldsMatch_iff.mp hfields⟩

/-- Patterns without wildcards, and names that need no fixing. -/
def plainFiles : SpecFiles where
  fnmatch p s := p = s
  realpath := some
  isDirectory _ := true
  findImagePath _ name := name

/-- A sample file of `/lib/libc.so` in `/bin/bash`. -/
def bashLibc : FilenameSpec :=
  ⟨"/bin/bash".toList, "/lib/libc.so".toList, "CYCLES".toList, 1, 0, none, none, none⟩

/-- The library of the binary that was asked for is accepted although it is excluded. -/
theorem match_excluded_library : ∃ self,
    create plainFiles ["/bin/bash".toList, "image-exclude:/lib/libc.so".toList] [] [] = .ok self ∧
      self.match plainFiles bashLibc = true ∧ ¬Meets plainFiles self bashLibc := by
  have hspec : ∃ self, create plainFiles ["/bin/bash".toList, "image-exclude:/lib/libc.so".toList] [] [] = .ok self ∧
      self.match plainFiles bashLibc = true ∧ self.imageExclude = ["/lib/libc.so".toList] :=
    ⟨_, rfl, by decide, rfl⟩
  obtain ⟨self, hcreate, hmatch, hexclude⟩ := hspec
  refine ⟨self, hcreate, hmatch, ?_⟩
  rintro ⟨⟨-, hlib⟩, -⟩
  apply hlib (by decide)
  rw [hexclude]
  refine ⟨_, List.mem_cons_self, ?_⟩
  show decide ("/lib/libc.so".toList = "/lib/libc.so".toList) = true
  decide

end ProfileSpec

end Oprofile.Libpp
