import Oprofile.Library.Results
import Oprofile.Libpp.ProfileClasses

/-! What tells the classes of a report apart (`arrange_profiles.cpp`). -/
namespace Oprofile.Libpp

open SampleNames

/-- What the classes are split by; for `AXIS_MAX` there is none. -/
inductive AxisTypes
  | event | tgid | tid | cpu
  deriving DecidableEq

structure ProfileSampleFiles where
  sampleFilename : Text
  cgFiles : List Text

structure ProfileDepSet where
  libImage : Text
  files : List ProfileSampleFiles

structure ProfileSet where
  image : Text
  files : List ProfileSampleFiles
  deps : List ProfileDepSet

structure ProfileClass where
  profiles : List ProfileSet
  name : Text
  longname : Text
  ptemplate : ProfileTemplate

structure ProfileClasses where
  event : Text
  cpuinfo : Text
  v : List ProfileClass
  axis : Option AxisTypes

/-- The fields of an `opd_header` that its descriptions read; the speed is as its bits. -/
structure EventHeader where
  cpuType : UInt32
  ctrEvent : UInt32
  ctrUm : UInt32
  ctrCount : UInt32
  cpuSpeed : UInt64
  deriving DecidableEq

/-- What opening a file and reading a header from it gives. -/
inductive HeaderFile
  | unopened
  | short
  | badMagic
  | header (h : EventHeader)

/-- How a call ends that does not return: `op_fatal_error`, `abort`, or a list read that has nothing. -/
inductive Stop
  | fatalError (what : Text)
  | abort
  | undefined

/-- The files, and the descriptions that come from the tables of events and of processors. -/
structure ClassSources where
  file : Text → HeaderFile
  describeHeader : EventHeader → Text
  describeCpu : EventHeader → Text

/-- Names and suggestions. -/
def axes : AxisTypes → Text × Text
  | .event => ("event".toList, "specify event:, count: or unitmask: (see also --merge=unitmask)".toList)
  | .tgid => ("tgid".toList, "specify tgid: or --merge tgid".toList)
  | .tid => ("tid".toList, "specify tid: or --merge tid".toList)
  | .cpu => ("cpu".toList, "specify cpu: or --merge cpu".toList)

/-- `read_header`. -/
def readEventHeader (sources : ClassSources) (sampleFilename : Text) : Except Stop EventHeader :=
  match sources.file sampleFilename with
  | .unopened => .error (.fatalError ("Can't open sample file:".toList ++ sampleFilename))
  | .short => .error (.fatalError ("Can't read sample file header:".toList ++ sampleFilename))
  | .badMagic => .error (.fatalError ("Invalid sample file, bad magic number: ".toList ++ sampleFilename))
  | .header h => .ok h

/-- The file that stands for a list of sample files, if there is one. -/
def firstFile : List ProfileSampleFiles → Option Text
  | [] => none
  | sampleFiles :: _ =>
    if sampleFiles.sampleFilename ≠ [] then some sampleFiles.sampleFilename else sampleFiles.cgFiles.head?

/-- The file that `get_first_header` reads. -/
def firstSampleFile (pclass : ProfileClass) : Option Text :=
  match pclass.profiles with
  | [] => none
  | profile :: _ =>
    if profile.files = [] then
      match profile.deps with
      | [] => none
      | dep :: _ => firstFile dep.files
    else firstFile profile.files

def getFirstHeader (sources : ClassSources) (pclass : ProfileClass) : Except Stop EventHeader :=
  match firstSampleFile pclass with
  | none => .error .undefined
  | some file => readEventHeader sources file

/-- `header.ctr_um |= temp.ctr_um`, with the header of a file. -/
def mergeFile (sources : ClassSources) (header : EventHeader) (file : Text) : Except Stop EventHeader :=
  (readEventHeader sources file).map fun temp => { header with ctrUm := header.ctrUm ||| temp.ctrUm }

def mergeHeader (sources : ClassSources) (header : EventHeader) (files : ProfileSampleFiles) :
    Except Stop EventHeader := do
  let header ← if files.sampleFilename ≠ [] then mergeFile sources header files.sampleFilename else .ok header
  files.cgFiles.foldlM (mergeFile sources) header

def getHeader (sources : ClassSources) (pclass : ProfileClass) (mergeBy : MergeOption) :
    Except Stop EventHeader := do
  let header ← getFirstHeader sources pclass
  if ¬mergeBy.unitmask then .ok header
  else
    match pclass.profiles with
    | [] => .error .undefined
    | profile :: _ =>
      let header ← profile.files.foldlM (mergeHeader sources) header
      profile.deps.foldlM (fun header dep => dep.files.foldlM (mergeHeader sources) header) header

/-- The names of one class. -/
def nameClass (sources : ClassSources) (mergeBy : MergeOption) (axis : AxisTypes) (c : ProfileClass) :
    Except Stop ProfileClass :=
  let name := (axes axis).1 ++ [':']
  let ptemplate := c.ptemplate
  match axis with
  | .event =>
    (getHeader sources c mergeBy).map fun header =>
      { c with name := ptemplate.event ++ [':'] ++ ptemplate.count, longname := sources.describeHeader header }
  | .tgid =>
    .ok { c with
      name := name ++ ptemplate.tgid
      longname := "Processes with a thread group ID of ".toList ++ ptemplate.tgid }
  | .tid =>
    .ok { c with
      name := name ++ ptemplate.tid
      longname := "Processes with a thread ID of ".toList ++ ptemplate.tid }
  | .cpu =>
    .ok { c with name := name ++ ptemplate.cpu, longname := "Samples on CPU ".toList ++ ptemplate.cpu }

def nameClasses (sources : ClassSources) (mergeBy : MergeOption) (classes : ProfileClasses) :
    Except Stop ProfileClasses :=
  match classes.v with
  | [] => .error .undefined
  | first :: _ => do
    let header ← getHeader sources first mergeBy
    match classes.axis with
    | none => .error .abort
    | some axis =>
      let v ← classes.v.mapM (nameClass sources mergeBy axis)
      .ok { classes with
        event := if axis = .event then [] else sources.describeHeader header
        cpuinfo := sources.describeCpu header
        v := v }

/-- `allow_axes`. -/
def allowAxes (classes : ProfileClasses) (newaxis : AxisTypes) : Bool :=
  match classes.axis with
  | none => true
  | some axis =>
    if axis ≠ .tid ∧ axis ≠ .tgid then false
    else if newaxis ≠ .tid ∧ newaxis ≠ .tgid then false
    else classes.v.all fun c => c.ptemplate.tgid = c.ptemplate.tid

/-- The first few different names, and how many more it would take. -/
def displayedNames : Nat → List Text → List ProfileClass → Text × Nat
  | 0, _, _ => ([], 0)
  | i, _, [] => ([], i)
  | i + 1, nameSeen, c :: cs =>
    if c.name ∈ nameSeen then displayedNames (i + 1) nameSeen cs
    else
      let (str, i) := displayedNames i (c.name :: nameSeen) cs
      (c.name ++ [','] ++ str, i)

/-- The text of `report_error`. -/
def reportError (classes : ProfileClasses) (axis newaxis : AxisTypes) : Text :=
  let (names, i) := displayedNames 5 [] classes.v
  "Already displaying results for parameter ".toList ++ (axes axis).1 ++ " with values:\n".toList ++ names ++
    (if i = 0 then " and ".toList ++ Nat.toDigits 10 (classes.v.length - 5) ++ " more,".toList else []) ++
    "\nwhich conflicts with parameter ".toList ++ (axes newaxis).1 ++ ".\n".toList ++
    "Suggestion: ".toList ++ (axes axis).2

/-- The flags `changed`. -/
structure Changed where
  event : Bool
  tgid : Bool
  tid : Bool
  cpu : Bool
  deriving DecidableEq

def Changed.get (changed : Changed) : AxisTypes → Bool
  | .event => changed.event
  | .tgid => changed.tgid
  | .tid => changed.tid
  | .cpu => changed.cpu

/-- The flags after a class, compared with the first. -/
def Changed.note (mergeBy : MergeOption) (ptemplate : ProfileTemplate) (changed : Changed) (t : ProfileTemplate) :
    Changed where
  event := changed.event || decide (t.event ≠ ptemplate.event ∨ t.count ≠ ptemplate.count ∨
    ¬mergeBy.unitmask ∧ t.unitmask ≠ ptemplate.unitmask)
  tgid := changed.tgid || decide (¬mergeBy.tgid ∧ t.tgid ≠ ptemplate.tgid)
  tid := changed.tid || decide (¬mergeBy.tid ∧ t.tid ≠ ptemplate.tid)
  cpu := changed.cpu || decide (¬mergeBy.cpu ∧ t.cpu ≠ ptemplate.cpu)

/-- A round of the loop over the axes. -/
def takeAxis (sources : ClassSources) (mergeBy : MergeOption) (changed : Changed) (classes : ProfileClasses)
    (newaxis : AxisTypes) : Except Stop ProfileClasses :=
  if ¬changed.get newaxis then .ok classes
  else if ¬allowAxes classes newaxis then
    match classes.axis with
    | none => .error .undefined
    | some axis => .error (.fatalError (reportError classes axis newaxis))
  else nameClasses sources mergeBy { classes with axis := some newaxis }

def identifyClasses (sources : ClassSources) (mergeBy : MergeOption) (classes : ProfileClasses) :
    Except Stop ProfileClasses :=
  match classes.v with
  | [] => .error .undefined
  | first :: rest => do
    let changed := (rest.map ProfileClass.ptemplate).foldl (Changed.note mergeBy first.ptemplate)
      ⟨decide (rest = []), false, false, false⟩
    let classes ← [AxisTypes.event, .tgid, .tid, .cpu].foldlM (takeAxis sources mergeBy changed)
      { classes with axis := none }
    if classes.axis = none then .error .abort else .ok classes

/-! The specification. -/

/-- Along what classes can differ. -/
inductive ClassAxis
  | one (axis : AxisTypes)
  | thread
  deriving DecidableEq

/-- The fields of an axis. -/
def fieldsOf : AxisTypes → ProfileTemplate → List Text
  | .event, t => [t.event, t.count, t.unitmask]
  | .tgid, t => [t.tgid]
  | .tid, t => [t.tid]
  | .cpu, t => [t.cpu]

def ClassAxis.covers : ClassAxis → AxisTypes → Bool
  | .one axis, x => x = axis
  | .thread, x => x = .tgid ∨ x = .tid

/-- The axis that is reported. -/
def ClassAxis.reported : ClassAxis → AxisTypes
  | .one axis => axis
  | .thread => .tid

/-- The classes agree outside an axis. -/
structure Splits (a : ClassAxis) (ts : List ProfileTemplate) : Prop where
  agree : ∀ s ∈ ts, ∀ t ∈ ts, ∀ x, a.covers x = false → fieldsOf x s = fieldsOf x t
  same : a = .thread → ∀ t ∈ ts, t.tid = t.tgid

/-- Made by `template_from_profile`. -/
def Templated (mergeBy : MergeOption) (t : ProfileTemplate) : Prop :=
  ∃ parsed, t = templateFromProfile parsed mergeBy

/-- The names of the sample files of a class. -/
def ProfileClass.sampleFiles (c : ProfileClass) : List Text :=
  c.profiles.flatMap fun p => (p.files ++ p.deps.flatMap ProfileDepSet.files).flatMap fun f =>
    (if f.sampleFilename ≠ [] then [f.sampleFilename] else []) ++ f.cgFiles

/-- What names leave alone. -/
def ProfileClass.core (c : ProfileClass) : List ProfileSet × ProfileTemplate := (c.profiles, c.ptemplate)

def Fatal (e : Stop) : Prop := ∃ what, e = .fatalError what

section

open Results

variable {sources : ClassSources} {mergeBy : MergeOption} {c d : ProfileClass} {classes out : ProfileClasses}
  {changed : Changed} {same : Bool} {a : AxisTypes} {P : Stop → Prop} {ts : List ProfileTemplate}
  {t first : ProfileTemplate}

/-! Headers. -/

theorem firstFile_mem {files : List ProfileSampleFiles} {file : Text} (h : firstFile files = some file) :
    file ∈ files.flatMap fun f => (if f.sampleFilename ≠ [] then [f.sampleFilename] else []) ++ f.cgFiles := by
  cases files with
  | nil => cases h
  | cons f files =>
    rw [firstFile] at h
    rw [List.flatMap_cons]
    refine List.mem_append_left _ ?_
    split_ifs at h ⊢ with hname
    · cases h
      exact List.mem_append_left _ (List.mem_singleton_self _)
    · exact List.mem_append_right _ (List.mem_of_head? h)

/-- A header that cannot be had is one of a file of the class. -/
theorem getHeader_errors (hfirst : ∃ file, firstSampleFile c = some file)
    (h : ∀ file ∈ c.sampleFiles, ErrorsIn P (readEventHeader sources file)) :
    ErrorsIn P (getHeader sources c mergeBy) := by
  obtain ⟨profiles, name, longname, ptemplate⟩ := c
  obtain ⟨file, hfile⟩ := hfirst
  cases profiles with
  | nil => cases hfile
  | cons profile profiles =>
    have hhead : ∀ file ∈ (profile.files ++ profile.deps.flatMap ProfileDepSet.files).flatMap
        (fun f => (if f.sampleFilename ≠ [] then [f.sampleFilename] else []) ++ f.cgFiles),
        ErrorsIn P (readEventHeader sources file) := by
      intro file hmem
      apply h
      rw [ProfileClass.sampleFiles, List.flatMap_cons]
      exact List.mem_append_left _ hmem
    have hin : file ∈ (profile.files ++ profile.deps.flatMap ProfileDepSet.files).flatMap
        (fun f => (if f.sampleFilename ≠ [] then [f.sampleFilename] else []) ++ f.cgFiles) := by
      rw [List.flatMap_append]
      simp only [firstSampleFile] at hfile
      split_ifs at hfile with hfiles
      · cases hdeps : profile.deps with
        | nil =>
          rw [hdeps] at hfile
          cases hfile
        | cons dep deps =>
          rw [hdeps] at hfile
          rw [List.flatMap_cons, List.flatMap_append]
          exact List.mem_append_right _ (List.mem_append_left _ (firstFile_mem hfile))
      · exact List.mem_append_left _ (firstFile_mem hfile)
    have hmerge : ∀ header, ∀ f ∈ profile.files ++ profile.deps.flatMap ProfileDepSet.files,
        ErrorsIn P (mergeHeader sources header f) := by
      intro header f hf
      have hof : ∀ file ∈ (if f.sampleFilename ≠ [] then [f.sampleFilename] else []) ++ f.cgFiles,
          ErrorsIn P (readEventHeader sources file) :=
        fun file hmem => hhead file (List.mem_flatMap.mpr ⟨f, hf, hmem⟩)
      have hcg : ∀ header, ErrorsIn P (f.cgFiles.foldlM (mergeFile sources) header) :=
        errorsIn_foldlM fun header file hmem => (hof file (List.mem_append_right _ hmem)).map
      rw [mergeHeader]
      split_ifs with hname
      · refine ErrorsIn.bind ((hof f.sampleFilename ?_).map) fun header' _ => hcg header'
        rw [if_pos hname]
        exact List.mem_append_left _ (List.mem_singleton_self _)
      · exact hcg header
    rw [getHeader]
    refine ErrorsIn.bind ?_ fun header _ => ?_
    · rw [getFirstHeader, hfile]
      exact hhead file hin
    · split_ifs
      · refine (errorsIn_foldlM (fun header f hf => hmerge header f (List.mem_append_left _ hf)) header).bind ?_
        intro header' _
        refine errorsIn_foldlM (fun header dep hdep => errorsIn_foldlM (fun header f hf => ?_) header) header'
        exact hmerge header f (List.mem_append_right _ (List.mem_flatMap.mpr ⟨dep, hdep, hf⟩))
      · exact errorsIn_ok header

theorem getHeader_core (h : c.core = d.core) : getHeader sources c mergeBy = getHeader sources d mergeBy := by
  have hprofiles : c.profiles = d.profiles := (Prod.mk.inj h).1
  simp only [getHeader, getFirstHeader, firstSampleFile, hprofiles]

/-! One axis after the other. -/

theorem nameClass_errors (h : ErrorsIn P (getHeader sources c mergeBy)) :
    ErrorsIn P (nameClass sources mergeBy a c) := by
  cases a with
  | event => exact h.map
  | tgid => exact errorsIn_ok _
  | tid => exact errorsIn_ok _
  | cpu => exact errorsIn_ok _

theorem nameClass_core (h : nameClass sources mergeBy a c = .ok d) : d.core = c.core := by
  cases a with
  | event =>
    obtain ⟨header, -, rfl⟩ := map_ok h
    rfl
  | tgid => cases h; rfl
  | tid => cases h; rfl
  | cpu => cases h; rfl

/-- Names change neither the axis nor what the classes hold. -/
theorem nameClasses_ok (h : nameClasses sources mergeBy classes = .ok out) :
    out.axis = classes.axis ∧ out.v.map ProfileClass.core = classes.v.map ProfileClass.core := by
  rw [nameClasses] at h
  cases hv : classes.v with
  | nil =>
    rw [hv] at h
    cases h
  | cons first rest =>
    rw [hv] at h
    obtain ⟨header, -, h⟩ := bind_ok h
    cases haxis : classes.axis with
    | none =>
      rw [haxis] at h
      cases h
    | some axis =>
      rw [haxis] at h
      obtain ⟨v, hnamed, h⟩ := bind_ok h
      cases h
      have hcores := mapM_keeps ProfileClass.core (fun _ _ => nameClass_core) hnamed
      exact ⟨rfl, hcores⟩

theorem nameClasses_errors (hne : classes.v ≠ []) (haxis : classes.axis = some a)
    (h : ∀ c ∈ classes.v, ErrorsIn P (getHeader sources c mergeBy)) :
    ErrorsIn P (nameClasses sources mergeBy classes) := by
  rw [nameClasses]
  cases hv : classes.v with
  | nil => exact absurd hv hne
  | cons first rest =>
    rw [hv] at h
    refine (h first List.mem_cons_self).bind fun header _ => ?_
    rw [haxis]
    exact (errorsIn_mapM fun c hc => nameClass_errors (h c hc)).bind fun v _ => errorsIn_ok _

/-- Every class has one id for both. -/
def sameIds (v : List ProfileClass) : Bool := v.all fun c => c.ptemplate.tgid = c.ptemplate.tid

theorem sameIds_core {v w : List ProfileClass} (h : v.map ProfileClass.core = w.map ProfileClass.core) :
    sameIds v = sameIds w := by
  have hall : ∀ v : List ProfileClass, sameIds v = (v.map ProfileClass.core).all fun c => c.2.tgid = c.2.tid := by
    intro v
    rw [List.all_map]
    rfl
  rw [hall, hall, h]

/-- What the loop over the axes decides, the flags and the ids given. -/
def nextAxis (changed : Changed) (same : Bool) (axis : Option AxisTypes) (newaxis : AxisTypes) :
    Option (Option AxisTypes) :=
  if ¬changed.get newaxis then some axis
  else if axis = none ∨ (axis = some .tid ∨ axis = some .tgid) ∧ (newaxis = .tid ∨ newaxis = .tgid) ∧ same then
    some (some newaxis)
  else none

theorem allowAxes_iff : allowAxes classes a = true ↔
    classes.axis = none ∨ (classes.axis = some .tid ∨ classes.axis = some .tgid) ∧ (a = .tid ∨ a = .tgid) ∧
      sameIds classes.v = true := by
  rw [allowAxes]
  cases haxis : classes.axis with
  | none => simp
  | some axis =>
    change (if axis ≠ .tid ∧ axis ≠ .tgid then false
      else if a ≠ .tid ∧ a ≠ .tgid then false else sameIds classes.v) = true ↔ _
    cases axis <;> cases a <;> simp

theorem nextAxis_eq : nextAxis changed (sameIds classes.v) classes.axis a =
    if ¬changed.get a then some classes.axis else if allowAxes classes a then some (some a) else none := by
  simp only [nextAxis, allowAxes_iff]

theorem takeAxis_ok (h : takeAxis sources mergeBy changed classes a = .ok out) :
    nextAxis changed (sameIds classes.v) classes.axis a = some out.axis ∧
    out.v.map ProfileClass.core = classes.v.map ProfileClass.core := by
  rw [takeAxis] at h
  rw [nextAxis_eq]
  split_ifs at h ⊢ with hchanged hallow
  · obtain ⟨haxis, hcore⟩ := nameClasses_ok h
    exact ⟨by rw [haxis], hcore⟩
  · cases haxis : classes.axis <;> rw [haxis] at h <;> cases h
  · cases h
    exact ⟨rfl, rfl⟩

theorem takeAxis_errors (hne : classes.v ≠ []) (h : ∀ c ∈ classes.v, ErrorsIn P (getHeader sources c mergeBy)) :
    ErrorsIn (fun e => P e ∨ nextAxis changed (sameIds classes.v) classes.axis a = none ∧ Fatal e)
      (takeAxis sources mergeBy changed classes a) := by
  rw [takeAxis, nextAxis_eq]
  split_ifs with hchanged hallow
  · have hnamed : ErrorsIn P (nameClasses sources mergeBy { classes with axis := some a }) :=
      nameClasses_errors hne rfl h
    exact hnamed.mono fun e he => Or.inl he
  · intro e he
    cases haxis : classes.axis with
    | none => simp [allowAxes, haxis] at hallow
    | some axis =>
      rw [haxis] at he
      cases he
      exact Or.inr ⟨rfl, _, rfl⟩
  · exact errorsIn_ok _

theorem headers_core (hcore : out.v.map ProfileClass.core = classes.v.map ProfileClass.core)
    (h : ∀ c ∈ classes.v, ErrorsIn P (getHeader sources c mergeBy)) :
    ∀ c ∈ out.v, ErrorsIn P (getHeader sources c mergeBy) := by
  intro c hc
  have hmem := List.mem_map_of_mem (f := ProfileClass.core) hc
  rw [hcore] at hmem
  obtain ⟨d, hd, heq⟩ := List.mem_map.mp hmem
  rw [getHeader_core heq.symm]
  exact h d hd

theorem nonempty_core (hcore : out.v.map ProfileClass.core = classes.v.map ProfileClass.core)
    (hne : classes.v ≠ []) : out.v ≠ [] := by
  intro hnil
  rw [hnil] at hcore
  exact hne (List.map_eq_nil_iff.mp hcore.symm)

/-- The loop, when it ends with a result. -/
theorem takeAxes_ok {as : List AxisTypes} (h : as.foldlM (takeAxis sources mergeBy changed) classes = .ok out) :
    as.foldlM (nextAxis changed (sameIds classes.v)) classes.axis = some out.axis ∧
    out.v.map ProfileClass.core = classes.v.map ProfileClass.core := by
  induction as generalizing classes with
  | nil =>
    cases h
    exact ⟨rfl, rfl⟩
  | cons a as ih =>
    rw [List.foldlM_cons] at h ⊢
    obtain ⟨next, hstep, h⟩ := bind_ok h
    obtain ⟨hnext, hcore⟩ := takeAxis_ok hstep
    obtain ⟨hrun, hcores⟩ := ih h
    rw [sameIds_core hcore] at hrun
    exact ⟨by rw [hnext]; exact hrun, hcores.trans hcore⟩

/-- The loop, when it does not. -/
theorem takeAxes_errors {as : List AxisTypes} (hne : classes.v ≠ [])
    (h : ∀ c ∈ classes.v, ErrorsIn P (getHeader sources c mergeBy)) :
    ErrorsIn (fun e => P e ∨ as.foldlM (nextAxis changed (sameIds classes.v)) classes.axis = none ∧ Fatal e)
      (as.foldlM (takeAxis sources mergeBy changed) classes) := by
  induction as generalizing classes with
  | nil => exact errorsIn_ok _
  | cons a as ih =>
    rw [List.foldlM_cons, List.foldlM_cons]
    refine ErrorsIn.bind ((takeAxis_errors hne h).mono ?_) fun next hstep => ?_
    · rintro e (he | ⟨hnone, he⟩)
      · exact Or.inl he
      · exact Or.inr ⟨by rw [hnone]; rfl, he⟩
    · obtain ⟨hnext, hcore⟩ := takeAxis_ok hstep
      have hrest := ih (nonempty_core hcore hne) (headers_core hcore h)
      rw [sameIds_core hcore] at hrest
      rw [hnext]
      exact hrest

/-! The flags. -/

theorem foldl_note (ts : List ProfileTemplate) : ts.foldl (Changed.note mergeBy first) changed =
    ⟨changed.event || ts.any fun t => t.event ≠ first.event ∨ t.count ≠ first.count ∨
        ¬mergeBy.unitmask ∧ t.unitmask ≠ first.unitmask,
      changed.tgid || ts.any fun t => ¬mergeBy.tgid ∧ t.tgid ≠ first.tgid,
      changed.tid || ts.any fun t => ¬mergeBy.tid ∧ t.tid ≠ first.tid,
      changed.cpu || ts.any fun t => ¬mergeBy.cpu ∧ t.cpu ≠ first.cpu⟩ := by
  induction ts generalizing changed with
  | nil => simp
  | cons t ts ih => simp only [List.foldl_cons, ih, Changed.note, List.any_cons, Bool.or_assoc]

/-- A merged field is blank in both templates. -/
theorem differs_templated (h : Templated mergeBy t) (hfirst : Templated mergeBy first) :
    ((t.event ≠ first.event ∨ t.count ≠ first.count ∨ ¬mergeBy.unitmask ∧ t.unitmask ≠ first.unitmask) ↔
      fieldsOf .event t ≠ fieldsOf .event first) ∧
    ((¬mergeBy.tgid ∧ t.tgid ≠ first.tgid) ↔ fieldsOf .tgid t ≠ fieldsOf .tgid first) ∧
    ((¬mergeBy.tid ∧ t.tid ≠ first.tid) ↔ fieldsOf .tid t ≠ fieldsOf .tid first) ∧
    ((¬mergeBy.cpu ∧ t.cpu ≠ first.cpu) ↔ fieldsOf .cpu t ≠ fieldsOf .cpu first) := by
  obtain ⟨parsed, rfl⟩ := h
  obtain ⟨parsed', rfl⟩ := hfirst
  obtain ⟨cpu, lib, tid, tgid, unitmask⟩ := mergeBy
  refine ⟨?_, ?_, ?_, ?_⟩
  · cases unitmask <;> simp [templateFromProfile, fieldsOf, imp_iff_not_or]
  · cases tgid <;> simp [templateFromProfile, fieldsOf]
  · cases tid <;> simp [templateFromProfile, fieldsOf]
  · cases cpu <;> simp [templateFromProfile, fieldsOf]

/-- A flag says that some class differs from the first in the fields of its axis. -/
theorem changed_iff (hts : ∀ t ∈ ts, Templated mergeBy t) (hfirst : Templated mergeBy first) (x : AxisTypes) :
    (ts.foldl (Changed.note mergeBy first) ⟨false, false, false, false⟩).get x = true ↔
      ∃ t ∈ ts, fieldsOf x t ≠ fieldsOf x first := by
  rw [foldl_note]
  have heach := fun t ht => differs_templated (hts t ht) hfirst
  cases x with
  | event =>
    simp only [Changed.get, Bool.false_or, List.any_eq_true, decide_eq_true_eq]
    exact exists_congr fun t => and_congr_right fun ht => (heach t ht).1
  | tgid =>
    simp only [Changed.get, Bool.false_or, List.any_eq_true, decide_eq_true_eq]
    exact exists_congr fun t => and_congr_right fun ht => (heach t ht).2.1
  | tid =>
    simp only [Changed.get, Bool.false_or, List.any_eq_true, decide_eq_true_eq]
    exact exists_congr fun t => and_congr_right fun ht => (heach t ht).2.2.1
  | cpu =>
    simp only [Changed.get, Bool.false_or, List.any_eq_true, decide_eq_true_eq]
    exact exists_congr fun t => and_congr_right fun ht => (heach t ht).2.2.2

/-- No flag, and all classes agree. -/
theorem agree_iff (hts : ∀ t ∈ ts, Templated mergeBy t) (hfirst : Templated mergeBy first) (x : AxisTypes) :
    (ts.foldl (Changed.note mergeBy first) ⟨false, false, false, false⟩).get x = false ↔
      ∀ s ∈ first :: ts, ∀ t ∈ first :: ts, fieldsOf x s = fieldsOf x t := by
  rw [← Bool.not_eq_true, changed_iff hts hfirst]
  constructor
  · intro h
    have hall : ∀ t ∈ first :: ts, fieldsOf x t = fieldsOf x first := by
      intro t ht
      rcases List.mem_cons.mp ht with rfl | ht
      · rfl
      · exact not_not.mp fun hne => h ⟨t, ht, hne⟩
    intro s hs t ht
    exact (hall s hs).trans (hall t ht).symm
  · rintro h ⟨t, ht, hne⟩
    exact hne (h t (List.mem_cons_of_mem _ ht) first List.mem_cons_self)

/-- The flags outside an axis are off. -/
def ClassAxis.fits (a : ClassAxis) (changed : Changed) (same : Bool) : Bool :=
  (∀ x ∈ [AxisTypes.event, .tgid, .tid, .cpu], a.covers x = false → changed.get x = false) ∧
    (a = .thread → same = true)

/-- What the loop over the axes comes to. -/
theorem axes_run (hsame : same = true → changed.tgid = changed.tid) (hsome : changed ≠ ⟨false, false, false, false⟩) :
    (∀ a : ClassAxis, a.fits changed same = true →
      [AxisTypes.event, .tgid, .tid, .cpu].foldlM (nextAxis changed same) none = some (some a.reported)) ∧
    ((∀ a : ClassAxis, a.fits changed same = false) →
      [AxisTypes.event, .tgid, .tid, .cpu].foldlM (nextAxis changed same) none = none) := by
  obtain ⟨event, tgid, tid, cpu⟩ := changed
  constructor
  · intro a
    rcases a with (axis | _)
    · cases axis <;> revert event tgid tid cpu same <;> decide
    · revert event tgid tid cpu same
      decide
  · intro h
    have hevent := h (.one .event)
    have htgid := h (.one .tgid)
    have htid := h (.one .tid)
    have hcpu := h (.one .cpu)
    have hthread := h .thread
    clear h
    revert event tgid tid cpu same
    decide

/-! All classes. -/

/-- The flags of a list of templates. -/
def flags (mergeBy : MergeOption) (first : ProfileTemplate) (ts : List ProfileTemplate) : Changed :=
  ts.foldl (Changed.note mergeBy first) ⟨decide (ts = []), false, false, false⟩

theorem flags_several (hne : ts ≠ []) : flags mergeBy first ts =
    ts.foldl (Changed.note mergeBy first) ⟨false, false, false, false⟩ := by
  rw [flags, decide_eq_false hne]

theorem get_all {x : AxisTypes} {f : AxisTypes → Prop} (h : ∀ x ∈ [AxisTypes.event, .tgid, .tid, .cpu], f x) :
    f x := by
  cases x <;> exact h _ (by simp)

theorem fits_iff (hne : ts ≠ []) (hts : ∀ t ∈ ts, Templated mergeBy t) (hfirst : Templated mergeBy first)
    (hsame : same = true ↔ ∀ t ∈ first :: ts, t.tid = t.tgid) (a : ClassAxis) :
    a.fits (flags mergeBy first ts) same = true ↔ Splits a (first :: ts) := by
  rw [flags_several hne, ClassAxis.fits, decide_eq_true_eq, hsame]
  constructor
  · rintro ⟨hflags, hids⟩
    refine ⟨fun s hs t ht x hx => ?_, hids⟩
    exact (agree_iff hts hfirst x).mp (get_all hflags hx) s hs t ht
  · rintro ⟨hagree, hids⟩
    refine ⟨fun x _ hx => ?_, hids⟩
    exact (agree_iff hts hfirst x).mpr fun s hs t ht => hagree s hs t ht x hx

/-- Different classes raise some flag. -/
theorem flags_some (hne : ts ≠ []) (hts : ∀ t ∈ ts, Templated mergeBy t) (hfirst : Templated mergeBy first)
    (hdistinct : (first :: ts).Nodup) : flags mergeBy first ts ≠ ⟨false, false, false, false⟩ := by
  intro hnone
  rw [flags_several hne] at hnone
  obtain ⟨t, ht⟩ := List.exists_mem_of_ne_nil ts hne
  have hagree : ∀ x, fieldsOf x t = fieldsOf x first := by
    intro x
    refine (agree_iff hts hfirst x).mp ?_ t (List.mem_cons_of_mem _ ht) first List.mem_cons_self
    rw [hnone]
    cases x <;> rfl
  have heq : t = first := by
    obtain ⟨event, count, unitmask, tgid, tid, cpu⟩ := t
    obtain ⟨event', count', unitmask', tgid', tid', cpu'⟩ := first
    have hevent := hagree .event
    have htgid := hagree .tgid
    have htid := hagree .tid
    have hcpu := hagree .cpu
    simp only [fieldsOf, List.cons.injEq, and_true] at hevent htgid htid hcpu
    obtain ⟨rfl, rfl, rfl⟩ := hevent
    subst htgid htid hcpu
    rfl
  exact (List.nodup_cons.mp hdistinct).1 (heq ▸ ht)

/-- Where a class has one id for both, the two ids differ together. -/
theorem flags_same (hne : ts ≠ []) (hts : ∀ t ∈ ts, Templated mergeBy t) (hfirst : Templated mergeBy first)
    (hids : ∀ t ∈ first :: ts, t.tid = t.tgid) :
    (flags mergeBy first ts).tgid = (flags mergeBy first ts).tid := by
  rw [flags_several hne, Bool.eq_iff_iff]
  refine (changed_iff hts hfirst .tgid).trans (Iff.trans ?_ (changed_iff hts hfirst .tid).symm)
  refine exists_congr fun t => and_congr_right fun ht => ?_
  rw [fieldsOf, fieldsOf, fieldsOf, fieldsOf, hids t (List.mem_cons_of_mem _ ht), hids first List.mem_cons_self]

/-- The axis that the templates lead to. -/
def axisOf (mergeBy : MergeOption) (first : ProfileTemplate) (ts : List ProfileTemplate) (same : Bool) :
    Option (Option AxisTypes) :=
  [AxisTypes.event, .tgid, .tid, .cpu].foldlM (nextAxis (flags mergeBy first ts) same) none

theorem axisOf_one : axisOf mergeBy first [] same = some (some .event) := by
  cases same <;> rfl

theorem axisOf_several (hne : ts ≠ []) (hts : ∀ t ∈ ts, Templated mergeBy t) (hfirst : Templated mergeBy first)
    (hdistinct : (first :: ts).Nodup) (hsame : same = true ↔ ∀ t ∈ first :: ts, t.tid = t.tgid) :
    (∀ a, Splits a (first :: ts) → axisOf mergeBy first ts same = some (some a.reported)) ∧
    ((¬∃ a, Splits a (first :: ts)) → axisOf mergeBy first ts same = none) := by
  obtain ⟨hfits, hnone⟩ := axes_run (fun h => flags_same hne hts hfirst (hsame.mp h))
    (flags_some hne hts hfirst hdistinct)
  refine ⟨fun a ha => hfits a ((fits_iff hne hts hfirst hsame a).mpr ha), fun h => hnone fun a => ?_⟩
  rw [← Bool.not_eq_true, fits_iff hne hts hfirst hsame a]
  exact fun ha => h ⟨a, ha⟩

/-- A single class differs in nothing. -/
theorem splits_one (t : ProfileTemplate) : Splits (.one .event) [t] := by
  refine ⟨fun s hs s' hs' x _ => ?_, fun h => by cases h⟩
  rw [List.mem_singleton.mp hs, List.mem_singleton.mp hs']

theorem axisOf_ne (h : axisOf mergeBy first ts same = some none) : flags mergeBy first ts = ⟨false, false, false, false⟩ := by
  rw [axisOf] at h
  generalize flags mergeBy first ts = changed at h
  obtain ⟨event, tgid, tid, cpu⟩ := changed
  revert event tgid tid cpu same
  decide

theorem sameIds_iff (v : List ProfileClass) :
    sameIds v = true ↔ ∀ t ∈ v.map ProfileClass.ptemplate, t.tid = t.tgid := by
  simp only [sameIds, List.all_eq_true, decide_eq_true_eq, List.forall_mem_map]
  exact forall₂_congr fun c hc => eq_comm

/-- The calls of `identify_classes` in terms of the templates. -/
theorem identifyClasses_eq {c : ProfileClass} {rest : List ProfileClass} (hv : classes.v = c :: rest) :
    identifyClasses sources mergeBy classes = ([AxisTypes.event, .tgid, .tid, .cpu].foldlM
        (takeAxis sources mergeBy (flags mergeBy c.ptemplate (rest.map ProfileClass.ptemplate)))
        { classes with axis := none }) >>= fun out => if out.axis = none then .error .abort else .ok out := by
  have hnil : decide (rest.map ProfileClass.ptemplate = []) = decide (rest = []) := by
    rw [decide_eq_decide, List.map_eq_nil_iff]
  rw [identifyClasses, hv, flags, hnil]

/-- What a success reports. -/
theorem identifyClasses_ok {c : ProfileClass} {rest : List ProfileClass} (hv : classes.v = c :: rest)
    (h : identifyClasses sources mergeBy classes = .ok out) :
    axisOf mergeBy c.ptemplate (rest.map ProfileClass.ptemplate) (sameIds classes.v) = some out.axis ∧
    out.v.map ProfileClass.core = classes.v.map ProfileClass.core := by
  rw [identifyClasses_eq hv] at h
  obtain ⟨next, hloop, h⟩ := bind_ok h
  split_ifs at h
  cases h
  exact takeAxes_ok hloop

/-- How it fails, when some flag is raised. -/
theorem identifyClasses_errors {c : ProfileClass} {rest : List ProfileClass} (hv : classes.v = c :: rest)
    (hflags : flags mergeBy c.ptemplate (rest.map ProfileClass.ptemplate) ≠ ⟨false, false, false, false⟩)
    (h : ∀ c ∈ classes.v, ErrorsIn P (getHeader sources c mergeBy)) :
    ErrorsIn (fun e => P e ∨
        axisOf mergeBy c.ptemplate (rest.map ProfileClass.ptemplate) (sameIds classes.v) = none ∧ Fatal e)
      (identifyClasses sources mergeBy classes) := by
  rw [identifyClasses_eq hv]
  have hne : classes.v ≠ [] := by
    rw [hv]
    exact List.cons_ne_nil c rest
  have hloop : ErrorsIn (fun e => P e ∨
      axisOf mergeBy c.ptemplate (rest.map ProfileClass.ptemplate) (sameIds classes.v) = none ∧ Fatal e)
      ([AxisTypes.event, .tgid, .tid, .cpu].foldlM
        (takeAxis sources mergeBy (flags mergeBy c.ptemplate (rest.map ProfileClass.ptemplate)))
        { classes with axis := none }) := takeAxes_errors hne h
  refine hloop.bind fun out hout => ?_
  obtain ⟨haxis, -⟩ := takeAxes_ok hout
  split_ifs with hnone
  · rw [hnone] at haxis
    exact absurd (axisOf_ne haxis) hflags
  · exact errorsIn_ok out

/-- The flag for a single class, or those of different ones. -/
theorem flags_raised {c : ProfileClass} {rest : List ProfileClass}
    (htemplated : ∀ d ∈ c :: rest, Templated mergeBy d.ptemplate)
    (hdistinct : ((c :: rest).map ProfileClass.ptemplate).Nodup) :
    flags mergeBy c.ptemplate (rest.map ProfileClass.ptemplate) ≠ ⟨false, false, false, false⟩ := by
  by_cases hrest : rest.map ProfileClass.ptemplate = []
  · rw [hrest]
    intro h
    cases h
  · refine flags_some hrest (fun t ht => ?_) (htemplated c List.mem_cons_self) hdistinct
    obtain ⟨d, hd, rfl⟩ := List.mem_map.mp ht
    exact htemplated d (List.mem_cons_of_mem _ hd)

/-- The templates have an axis exactly when the loop finds one, and it finds that. -/
theorem axisOf_spec {c : ProfileClass} {rest : List ProfileClass}
    (htemplated : ∀ d ∈ c :: rest, Templated mergeBy d.ptemplate)
    (hdistinct : ((c :: rest).map ProfileClass.ptemplate).Nodup) :
    ((∃ a, Splits a ((c :: rest).map ProfileClass.ptemplate)) ↔
      axisOf mergeBy c.ptemplate (rest.map ProfileClass.ptemplate) (sameIds (c :: rest)) ≠ none) ∧
    (rest = [] → axisOf mergeBy c.ptemplate (rest.map ProfileClass.ptemplate) (sameIds (c :: rest)) =
      some (some .event)) ∧
    (rest ≠ [] → ∀ a, Splits a ((c :: rest).map ProfileClass.ptemplate) →
      axisOf mergeBy c.ptemplate (rest.map ProfileClass.ptemplate) (sameIds (c :: rest)) =
        some (some a.reported)) := by
  by_cases hrest : rest = []
  · subst hrest
    have hone : axisOf mergeBy c.ptemplate (([] : List ProfileClass).map ProfileClass.ptemplate) (sameIds [c]) =
        some (some .event) := axisOf_one
    rw [hone]
    exact ⟨iff_of_true ⟨_, splits_one c.ptemplate⟩ (Option.some_ne_none _), fun _ => rfl, fun h => absurd rfl h⟩
  · have hts : ∀ t ∈ rest.map ProfileClass.ptemplate, Templated mergeBy t := by
      intro t ht
      obtain ⟨d, hd, rfl⟩ := List.mem_map.mp ht
      exact htemplated d (List.mem_cons_of_mem _ hd)
    obtain ⟨hsome, hnone⟩ := axisOf_several (fun h => hrest (List.map_eq_nil_iff.mp h)) hts
      (htemplated c List.mem_cons_self) hdistinct (sameIds_iff (c :: rest))
    refine ⟨⟨?_, fun hne => not_not.mp fun h => hne (hnone h)⟩, fun h => absurd h hrest, fun _ => hsome⟩
    rintro ⟨a, ha⟩
    rw [hsome a ha]
    exact Option.some_ne_none _

end

/-- A report has its classes on one axis, or none. -/
theorem identifyClasses_iff_one_axis (sources : ClassSources) (mergeBy : MergeOption) (classes : ProfileClasses)
    (hne : classes.v ≠ []) (htemplated : ∀ c ∈ classes.v, Templated mergeBy c.ptemplate)
    (hdistinct : (classes.v.map ProfileClass.ptemplate).Nodup)
    (hfirst : ∀ c ∈ classes.v, ∃ file, firstSampleFile c = some file)
    (hfiles : ∀ c ∈ classes.v, ∀ file ∈ c.sampleFiles, ∃ h, sources.file file = .header h) :
    ((∃ out, identifyClasses sources mergeBy classes = .ok out) ↔
      ∃ a, Splits a (classes.v.map ProfileClass.ptemplate)) ∧
    (∀ out, identifyClasses sources mergeBy classes = .ok out →
      out.v.map ProfileClass.core = classes.v.map ProfileClass.core ∧
      (classes.v.length = 1 → out.axis = some .event) ∧
      (1 < classes.v.length → ∀ a, Splits a (classes.v.map ProfileClass.ptemplate) →
        out.axis = some a.reported)) ∧
    ((¬∃ a, Splits a (classes.v.map ProfileClass.ptemplate)) →
      ∃ what, identifyClasses sources mergeBy classes = .error (.fatalError what)) := by
  obtain ⟨c, rest, hv⟩ := List.exists_cons_of_ne_nil hne
  rw [hv] at htemplated hdistinct
  obtain ⟨haxis, hone, hseveral⟩ := axisOf_spec htemplated hdistinct
  have hread : ∀ c ∈ classes.v, Results.ErrorsIn (fun _ => False) (getHeader sources c mergeBy) := by
    intro d hd
    refine getHeader_errors (hfirst d hd) fun file hmem e he => ?_
    obtain ⟨h, hfile⟩ := hfiles d hd file hmem
    rw [readEventHeader, hfile] at he
    cases he
  have herrors := identifyClasses_errors hv (flags_raised htemplated hdistinct) hread
  rw [hv] at herrors
  refine ⟨?_, fun out hout => ?_, fun hnone => ?_⟩
  · rw [hv, haxis]
    constructor
    · rintro ⟨out, hout⟩
      have h := (identifyClasses_ok hv hout).1
      rw [hv] at h
      rw [h]
      exact Option.some_ne_none _
    · intro hsome
      exact (herrors.mono fun e he => he.elim id fun he => hsome he.1).succeeds
  · obtain ⟨hfound, hcore⟩ := identifyClasses_ok hv hout
    rw [hv] at hfound
    refine ⟨hcore, fun hlength => ?_, fun hlength a ha => ?_⟩
    · rw [hv, List.length_cons, Nat.add_eq_right, List.length_eq_zero_iff] at hlength
      exact Option.some.inj (hfound.symm.trans (hone hlength))
    · rw [hv] at ha hlength
      have hrest : rest ≠ [] := by
        rintro rfl
        exact Nat.lt_irrefl 1 hlength
      exact Option.some.inj (hfound.symm.trans (hseveral hrest a ha))
  · rw [hv, haxis, not_not] at hnone
    cases hresult : identifyClasses sources mergeBy classes with
    | ok out =>
      have h := (identifyClasses_ok hv hresult).1
      rw [hv, hnone] at h
      cases h
    | error e =>
      rcases herrors e hresult with h | ⟨-, what, rfl⟩
      · exact h.elim
      · exact ⟨what, rfl⟩

/-- Two single-threaded processes, and one file for each. -/
def twoProcesses : ProfileClasses where
  event := []
  cpuinfo := []
  v := [['7'], ['9']].map fun id =>
    { profiles := [⟨['b'], [⟨'f' :: id, []⟩], []⟩], name := [], longname := [],
      ptemplate := ⟨['E'], ['1'], ['0'], id, id, []⟩ }
  axis := none

def readableSources : ClassSources where
  file := fun _ => .header ⟨0, 1, 0, 1, 0⟩
  describeHeader := fun _ => []
  describeCpu := fun _ => []

example : (identifyClasses readableSources ⟨true, false, false, false, false⟩ twoProcesses).map ProfileClasses.axis =
    .ok (some .tid) := rfl

theorem identifyClasses_two_processes :
    ((∃ out, identifyClasses readableSources ⟨true, false, false, false, false⟩ twoProcesses = .ok out) ↔
      ∃ a, Splits a (twoProcesses.v.map ProfileClass.ptemplate)) ∧
    (∀ out, identifyClasses readableSources ⟨true, false, false, false, false⟩ twoProcesses = .ok out →
      out.v.map ProfileClass.core = twoProcesses.v.map ProfileClass.core ∧
      (twoProcesses.v.length = 1 → out.axis = some .event) ∧
      (1 < twoProcesses.v.length → ∀ a, Splits a (twoProcesses.v.map ProfileClass.ptemplate) →
        out.axis = some a.reported)) ∧
    ((¬∃ a, Splits a (twoProcesses.v.map ProfileClass.ptemplate)) →
      ∃ what, identifyClasses readableSources ⟨true, false, false, false, false⟩ twoProcesses =
        .error (.fatalError what)) := by
  refine identifyClasses_iff_one_axis _ _ _ (by decide) ?_ (by decide) ?_ fun _ _ _ _ => ⟨_, rfl⟩
  · intro c hc
    obtain ⟨id, -, rfl⟩ := List.mem_map.mp hc
    exact ⟨⟨[], [], [], ['E'], ['1'], ['0'], id, id, [], [], false⟩, rfl⟩
  · intro c hc
    obtain ⟨id, -, rfl⟩ := List.mem_map.mp hc
    exact ⟨'f' :: id, rfl⟩

end Oprofile.Libpp
