import Mathlib.Data.Char
import Mathlib.Data.List.Lex
import Oprofile.Library.KeyMap
import Oprofile.Libpp.ClassAxes

/-! The classes turned inside out: for each binary, the files of every class (`invert_profiles`). -/
namespace Oprofile.Libpp

open SampleNames

/-- What opening an image gave (`image_errors.h`). -/
inductive ImageError
  | ok | notFound | unreadable | formatFailure | multipleMatch
  deriving DecidableEq

structure ImageSet where
  appImage : Text
  files : List ProfileSampleFiles

abbrev ImageGroupSet := List ImageSet

structure InvertedProfile where
  image : Text
  error : ImageError
  groups : List ImageGroupSet

abbrev AppMap := List (Text × InvertedProfile)

/-- The order of a `map<string, …>`. -/
def imageLess (a b : Text) : Bool := decide (a < b)

theorem imageLess_strict : KeyMap.StrictOrder imageLess where
  irrefl a := decide_eq_false (List.lt_irrefl a)
  trans a b c hab hbc := decide_eq_true (List.lt_trans (of_decide_eq_true hab) (of_decide_eq_true hbc))
  total a b hne hab := by
    apply decide_eq_true
    rcases lt_trichotomy (a : List Char) b with h | h | h
    · exact absurd h (of_decide_eq_false hab)
    · exact absurd h hne
    · exact h

def addToGroup (group : ImageGroupSet) (appImage : Text) (files : List ProfileSampleFiles) : ImageGroupSet :=
  group ++ [⟨appImage, files⟩]

def getIprofile (appMap : AppMap) (image : Text) (nrClasses : Nat) : InvertedProfile × AppMap :=
  match KeyMap.find image appMap with
  | some ip => (ip, appMap)
  | none =>
    let ip : InvertedProfile := ⟨image, .ok, List.replicate nrClasses []⟩
    (ip, KeyMap.insert imageLess image ip appMap)

/-- `add_to_group(ip.groups[i], …)` through the reference that `get_iprofile` returns. -/
def addFiles (nrClasses i : Nat) (image appImage : Text) (files : List ProfileSampleFiles) (appMap : AppMap) : AppMap :=
  let (ip, appMap) := getIprofile appMap image nrClasses
  KeyMap.insert imageLess image { ip with groups := ip.groups.modify i (addToGroup · appImage files) } appMap

def addProfile (nrClasses i : Nat) (appMap : AppMap) (pit : ProfileSet) : AppMap :=
  let appMap := if pit.files ≠ [] then addFiles nrClasses i pit.image pit.image pit.files appMap else appMap
  pit.deps.foldl (fun appMap dit => addFiles nrClasses i dit.libImage pit.image dit.files appMap) appMap

/-- `verify_and_fill`, with the error that `extra.find_image_path` leaves for an image. -/
def verifyAndFill (findImagePath : Text → ImageError) (appMap : AppMap) : List InvertedProfile :=
  appMap.map fun it => { it.2 with error := findImagePath it.2.image }

def invertProfiles (findImagePath : Text → ImageError) (classes : ProfileClasses) : List InvertedProfile :=
  verifyAndFill findImagePath (classes.v.zipIdx.foldl
    (fun appMap c => c.1.profiles.foldl (addProfile classes.v.length c.2) appMap) [])

/-- A sample file of a class, with the binary to open for it and the application it was run by. -/
structure Entry where
  profileClass : Nat
  image : Text
  appImage : Text
  file : ProfileSampleFiles

def filesAt (i : Nat) (image appImage : Text) (files : List ProfileSampleFiles) : List Entry :=
  files.map fun f => ⟨i, image, appImage, f⟩

def profileEntries (i : Nat) (pit : ProfileSet) : List Entry :=
  filesAt i pit.image pit.image pit.files ++ pit.deps.flatMap fun dit => filesAt i dit.libImage pit.image dit.files

def classEntries (c : ProfileClass × Nat) : List Entry := c.1.profiles.flatMap (profileEntries c.2)

/-- What the classes hold. -/
def ProfileClasses.entries (classes : ProfileClasses) : List Entry := classes.v.zipIdx.flatMap classEntries

def groupEntries (image : Text) (g : ImageGroupSet × Nat) : List Entry :=
  g.1.flatMap fun set => filesAt g.2 image set.appImage set.files

/-- What an inverted profile holds, each file for the class of its group. -/
def InvertedProfile.entries (ip : InvertedProfile) : List Entry := ip.groups.zipIdx.flatMap (groupEntries ip.image)

section

variable {image appImage : Text} {files : List ProfileSampleFiles} {gs : List ImageGroupSet} {g : ImageGroupSet}
  {ip : InvertedProfile} {m : AppMap} {done : List Entry} {i k n nrClasses : Nat}

theorem groupEntries_addToGroup (image appImage : Text) (files : List ProfileSampleFiles) (g : ImageGroupSet) (i : Nat) :
    groupEntries image (addToGroup g appImage files, i) = groupEntries image (g, i) ++ filesAt i image appImage files := by
  rw [groupEntries, addToGroup, List.flatMap_append, List.flatMap_singleton, groupEntries]

/-- A set added to one group adds its files to that class. -/
theorem entries_modify (image appImage : Text) (files : List ProfileSampleFiles) (h : i < gs.length) (k : Nat) :
    (((gs.modify i (addToGroup · appImage files)).zipIdx k).flatMap (groupEntries image)).Perm
      ((gs.zipIdx k).flatMap (groupEntries image) ++ filesAt (k + i) image appImage files) := by
  induction gs generalizing i k with
  | nil => exact absurd h (Nat.not_lt_zero i)
  | cons g gs ih =>
    cases i with
    | zero =>
      rw [List.modify_zero_cons, List.zipIdx_cons, List.flatMap_cons, groupEntries_addToGroup, List.zipIdx_cons,
        List.flatMap_cons, List.append_assoc, List.append_assoc, Nat.add_zero]
      exact List.perm_append_comm.append_left _
    | succ i =>
      have hrest := ih (Nat.lt_of_succ_lt_succ h) (k + 1)
      rw [List.modify_succ_cons, List.zipIdx_cons, List.flatMap_cons, List.zipIdx_cons, List.flatMap_cons,
        List.append_assoc]
      rw [show k + 1 + i = k + (i + 1) by omega] at hrest
      exact hrest.append_left _

theorem entries_replicate (image : Text) (n k : Nat) :
    ((List.replicate n ([] : ImageGroupSet)).zipIdx k).flatMap (groupEntries image) = [] := by
  induction n generalizing k with
  | zero => rfl
  | succ n ih => rw [List.replicate_succ, List.zipIdx_cons, List.flatMap_cons, ih]; rfl

/-- The map so far: an inverted profile for each image, with a group for each class, holding what was added. -/
structure Inverting (nrClasses : Nat) (done : List Entry) (m : AppMap) : Prop where
  sorted : KeyMap.Sorted imageLess m
  named : ∀ e ∈ m, e.2.image = e.1
  sized : ∀ e ∈ m, e.2.groups.length = nrClasses
  held : (m.flatMap fun e => e.2.entries).Perm done

theorem inverting_nil (nrClasses : Nat) : Inverting nrClasses [] [] :=
  ⟨KeyMap.sorted_nil, by simp, by simp, List.Perm.refl _⟩

theorem Inverting.congr {done' : List Entry} (h : Inverting nrClasses done m) (hp : done.Perm done') :
    Inverting nrClasses done' m :=
  ⟨h.sorted, h.named, h.sized, h.held.trans hp⟩

/-- `get_iprofile` leaves the map with the profile it returns, and with no file more. -/
theorem Inverting.getIprofile (h : Inverting nrClasses done m) (image : Text) :
    Inverting nrClasses done (getIprofile m image nrClasses).2 ∧
      KeyMap.find image (getIprofile m image nrClasses).2 = some (getIprofile m image nrClasses).1 := by
  rw [Libpp.getIprofile]
  cases hfind : KeyMap.find image m with
  | some ip => exact ⟨h, hfind⟩
  | none =>
    refine ⟨⟨KeyMap.sorted_insert imageLess_strict h.sorted, ?_, ?_, ?_⟩, KeyMap.find_insert_self⟩
    · intro e he
      rcases KeyMap.mem_insert he with rfl | he
      · rfl
      · exact h.named e he
    · intro e he
      rcases KeyMap.mem_insert he with rfl | he
      · exact List.length_replicate
      · exact h.sized e he
    · have hperm := KeyMap.insert_perm imageLess (⟨image, .ok, List.replicate nrClasses []⟩ : InvertedProfile)
        (KeyMap.not_mem_of_find_eq_none hfind)
      refine (hperm.flatMap_right _).trans ?_
      rw [List.flatMap_cons, InvertedProfile.entries, entries_replicate]
      exact h.held

theorem Inverting.addFiles (h : Inverting nrClasses done m) (hi : i < nrClasses) (image appImage : Text)
    (files : List ProfileSampleFiles) :
    Inverting nrClasses (done ++ filesAt i image appImage files) (addFiles nrClasses i image appImage files m) := by
  obtain ⟨hget, hfind⟩ := h.getIprofile image
  rw [Libpp.addFiles]
  generalize Libpp.getIprofile m image nrClasses = got at hget hfind
  obtain ⟨ip, m'⟩ := got
  have hmem : (image, ip) ∈ m' := (KeyMap.find_eq_some_iff imageLess_strict hget.sorted).mp hfind
  have hname : ip.image = image := hget.named _ hmem
  have hsize : ip.groups.length = nrClasses := hget.sized _ hmem
  dsimp only at hget hfind ⊢
  refine ⟨KeyMap.sorted_insert imageLess_strict hget.sorted, ?_, ?_, ?_⟩
  · intro e he
    rcases KeyMap.mem_insert he with rfl | he
    · exact hname
    · exact hget.named e he
  · intro e he
    rcases KeyMap.mem_insert he with rfl | he
    · exact (List.length_modify _ _ _).trans hsize
    · exact hget.sized e he
  · have hmore := entries_modify ip.image appImage files (hsize ▸ hi : i < ip.groups.length) 0
    rw [Nat.zero_add, hname] at hmore
    refine (KeyMap.flatMap_insert_perm imageLess_strict hget.sorted hfind ?_).trans (hget.held.append_right _)
    rw [InvertedProfile.entries, InvertedProfile.entries, hname]
    exact hmore

theorem Inverting.addDeps (h : Inverting nrClasses done m) (hi : i < nrClasses) (appImage : Text) (deps : List ProfileDepSet) :
    Inverting nrClasses (done ++ deps.flatMap fun dit => filesAt i dit.libImage appImage dit.files)
      (deps.foldl (fun m dit => Libpp.addFiles nrClasses i dit.libImage appImage dit.files m) m) := by
  induction deps generalizing done m with
  | nil =>
    rw [List.flatMap_nil, List.append_nil]
    exact h
  | cons d deps ih =>
    rw [List.flatMap_cons, ← List.append_assoc, List.foldl_cons]
    exact ih (h.addFiles hi d.libImage appImage d.files)

/-- A profile of a class adds its own files, if it has any, and those of its dependent images. -/
theorem Inverting.addProfile (h : Inverting nrClasses done m) (hi : i < nrClasses) (pit : ProfileSet) :
    Inverting nrClasses (done ++ profileEntries i pit) (addProfile nrClasses i m pit) := by
  have hmain : Inverting nrClasses (done ++ filesAt i pit.image pit.image pit.files)
      (if pit.files ≠ [] then Libpp.addFiles nrClasses i pit.image pit.image pit.files m else m) := by
    split_ifs with hfiles
    · exact h.addFiles hi pit.image pit.image pit.files
    · rw [not_not.mp hfiles, filesAt, List.map_nil, List.append_nil]
      exact h
  rw [profileEntries, ← List.append_assoc]
  exact hmain.addDeps hi pit.image pit.deps

theorem Inverting.addClass (h : Inverting nrClasses done m) (hi : i < nrClasses) (profiles : List ProfileSet) :
    Inverting nrClasses (done ++ profiles.flatMap (profileEntries i)) (profiles.foldl (Libpp.addProfile nrClasses i) m) := by
  induction profiles generalizing done m with
  | nil =>
    rw [List.flatMap_nil, List.append_nil]
    exact h
  | cons pit profiles ih =>
    rw [List.flatMap_cons, ← List.append_assoc, List.foldl_cons]
    exact ih (h.addProfile hi pit)

theorem Inverting.addClasses (h : Inverting nrClasses done m) (cs : List (ProfileClass × Nat))
    (hcs : ∀ c ∈ cs, c.2 < nrClasses) :
    Inverting nrClasses (done ++ cs.flatMap classEntries)
      (cs.foldl (fun m c => c.1.profiles.foldl (Libpp.addProfile nrClasses c.2) m) m) := by
  induction cs generalizing done m with
  | nil =>
    rw [List.flatMap_nil, List.append_nil]
    exact h
  | cons c cs ih =>
    obtain ⟨hc, hcs⟩ := List.forall_mem_cons.mp hcs
    rw [List.flatMap_cons, ← List.append_assoc, List.foldl_cons]
    exact ih (h.addClass hc c.1.profiles) hcs

end

/-- Every file of a class is in the group of that class, under the one binary to open for it, once; and nothing else is. -/
theorem invertProfiles_conserves (findImagePath : Text → ImageError) (classes : ProfileClasses) :
    ((invertProfiles findImagePath classes).flatMap InvertedProfile.entries).Perm classes.entries ∧
    ((invertProfiles findImagePath classes).map InvertedProfile.image).Nodup ∧
    ∀ ip ∈ invertProfiles findImagePath classes, ip.groups.length = classes.v.length := by
  have hindex : ∀ c ∈ classes.v.zipIdx, c.2 < classes.v.length := by
    intro c hc
    exact (List.mem_zipIdx' hc).1
  have h := (inverting_nil classes.v.length).addClasses classes.v.zipIdx hindex
  rw [List.nil_append] at h
  rw [invertProfiles, verifyAndFill]
  refine ⟨?_, ?_, ?_⟩
  · rw [List.flatMap_map]
    exact h.held
  · rw [List.map_map]
    have hkeys := h.sorted.nodup_keys imageLess_strict
    rwa [List.map_congr_left (fun e he => (h.named e he).symm)] at hkeys
  · intro ip hip
    obtain ⟨e, he, rfl⟩ := List.mem_map.mp hip
    exact h.sized e he

end Oprofile.Libpp
