import Oprofile.Library.CNumbers
import Oprofile.Library.KeyMap
import Oprofile.Library.Results
import Oprofile.SampleNames.ParseFilename

/-! The specification of the sample files to report on (`profile_spec.cpp`, `comma_list.h`, `glob_filter.cpp`). -/
namespace Oprofile.Libpp

open SampleNames

/-- What is thrown, with its text. -/
inductive SpecError
  | invalidArgument (what : Text)
  | runtimeError (what : Text)
  deriving DecidableEq

/-- `op_lexical_cast<string>`: the first word. -/
def castWord (src : Text) : Except SpecError Text :=
  let value := (src.dropWhile CNumbers.isSpace).takeWhile (!CNumbers.isSpace ·)
  if value = [] then .error (.invalidArgument ("op_lexical_cast<T>(\"".toList ++ src ++ "\")".toList)) else .ok value

/-- `op_lexical_cast<int>`: the number in front, if it fits. -/
def castInt (src : Text) : Except SpecError Int32 :=
  let (negative, body) := CNumbers.splitSign (src.dropWhile CNumbers.isSpace)
  let digits := body.takeWhile (CNumbers.isDigitOf 10)
  let value : Int := if negative then -(CNumbers.numeral 10 digits : Int) else CNumbers.numeral 10 digits
  if digits = [] ∨ value < -0x80000000 ∨ 0x7fffffff < value then
    .error (.invalidArgument ("op_lexical_cast<T>(\"".toList ++ src ++ "\")".toList))
  else .ok (Int32.ofInt value)

/-- `op_lexical_cast<unsigned int>`: the whole text as `strtoul` reads it. -/
def castUnsigned (src : Text) : Except SpecError UInt32 :=
  let (ret, endptr) := CNumbers.strtoul src
  if endptr ≠ [] then .error (.invalidArgument ("op_lexical_cast(\"".toList ++ src ++ "\")".toList))
  else .ok (UInt32.ofNat ret)

structure CommaList (T : Type) where
  isAll : Bool
  items : List T
  deriving DecidableEq

def CommaList.empty {T : Type} : CommaList T := ⟨true, []⟩

def CommaList.setLoop {T : Type} (cast : Text → Except SpecError T) (items : List T) :
    List Text → Except SpecError (CommaList T)
  | [] => .ok ⟨false, items⟩
  | s :: result => if s = "all".toList then .ok ⟨true, []⟩ else cast s >>= fun v => setLoop cast (items ++ [v]) result

/-- `comma_list::set` -/
def CommaList.set {T : Type} (cast : Text → Except SpecError T) (str : Text) : Except SpecError (CommaList T) :=
  setLoop cast [] (separateToken str ',')

def CommaList.match {T : Type} [DecidableEq T] (cl : CommaList T) (value : T) : Bool :=
  if cl.isAll then true else cl.items.any (value = ·)

/-- Matching a field that holds "all" when it has no value. -/
def commaMatch {T : Type} [DecidableEq T] (cl : CommaList T) (value : Option T) : Bool :=
  if cl.isAll then true
  else
    match value with
    | none => false
    | some v => cl.match v

/-- Where images are searched for. -/
structure ExtraImages where
  imagePath : List Text
  archivePath : Text
  rootPath : Text

def ExtraImages.unpopulated : ExtraImages := ⟨[], [], []⟩

/-- The file system and the pattern matching that a specification is read against. -/
structure SpecFiles where
  /-- `fnmatch(pattern, string, 0) != FNM_NOMATCH` -/
  fnmatch : Text → Text → Bool
  realpath : Text → Option Text
  isDirectory : Text → Bool
  /-- The image that `find_image_path` returns when it may fix the name up. -/
  findImagePath : ExtraImages → Text → Text

variable (fs : SpecFiles)

def SpecFiles.opRealpath (name : Text) : Text := (fs.realpath name).getD name

/-- `glob_filter::match` -/
def globMatch (incl excl : List Text) (str : Text) : Bool :=
  if excl.any (fs.fnmatch · str) then false else incl.isEmpty || incl.any (fs.fnmatch · str)

inductive Tag
  | archive | session | sessionExclude | image | imageExclude | libImage
  | event | count | unitMask | tid | tgid | cpu
  deriving DecidableEq

def parseTable : List (Text × Tag) :=
  [("archive".toList, .archive), ("session".toList, .session), ("session-exclude".toList, .sessionExclude),
    ("image".toList, .image), ("image-exclude".toList, .imageExclude), ("lib-image".toList, .libImage),
    ("event".toList, .event), ("count".toList, .count), ("unit-mask".toList, .unitMask), ("tid".toList, .tid),
    ("tgid".toList, .tgid), ("cpu".toList, .cpu)]

structure ProfileSpec where
  archivePath : Text
  session : List Text
  sessionExclude : List Text
  image : List Text
  imageExclude : List Text
  libImage : List Text
  event : CommaList Text
  count : CommaList Int32
  unitmask : CommaList UInt32
  tid : CommaList Int32
  tgid : CommaList Int32
  cpu : CommaList Int32
  imageOrLibImage : List Text
  extraFoundImages : ExtraImages

def ProfileSpec.init : ProfileSpec :=
  ⟨[], [], [], [], [], [], .empty, .empty, .empty, .empty, .empty, .empty, [], .unpopulated⟩

def getHandler (tagValue : Text) : Option (Tag × Text) :=
  if ':' ∈ tagValue then
    (KeyMap.find (tagValue.takeWhile (· ≠ ':')) parseTable).map (·, (tagValue.dropWhile (· ≠ ':')).tail)
  else none

def isValidTag (tagValue : Text) : Bool := (getHandler tagValue).isSome

/-- `fixup_image_spec` of a list, as the argument of a tag is split. -/
def imageList (extra : ExtraImages) (str : Text) : List Text :=
  (separateToken str ',').map (fs.findImagePath extra)

/-- The member function that the table has for a tag. -/
def ProfileSpec.action (spec : ProfileSpec) (value : Text) : Tag → Except SpecError ProfileSpec
  | .archive => .ok { spec with archivePath := fs.opRealpath value }
  | .session => .ok { spec with session := separateToken value ',' }
  | .sessionExclude => .ok { spec with sessionExclude := separateToken value ',' }
  | .image => .ok { spec with image := imageList fs spec.extraFoundImages value }
  | .imageExclude => .ok { spec with imageExclude := imageList fs spec.extraFoundImages value }
  | .libImage => .ok { spec with libImage := imageList fs spec.extraFoundImages value }
  | .event => (CommaList.set castWord value).map fun v => { spec with event := v }
  | .count => (CommaList.set castInt value).map fun v => { spec with count := v }
  | .unitMask => (CommaList.set castUnsigned value).map fun v => { spec with unitmask := v }
  | .tid => (CommaList.set castInt value).map fun v => { spec with tid := v }
  | .tgid => (CommaList.set castInt value).map fun v => { spec with tgid := v }
  | .cpu => (CommaList.set castInt value).map fun v => { spec with cpu := v }

def ProfileSpec.parse (spec : ProfileSpec) (tagValue : Text) : Except SpecError ProfileSpec :=
  match getHandler tagValue with
  | none => .error (.invalidArgument ("profile_spec::parse(): not a valid tag \"".toList ++ tagValue ++ "\"".toList))
  | some (action, value) => spec.action fs value action

def ProfileSpec.setImageOrLibName (spec : ProfileSpec) (str : Text) : ProfileSpec :=
  { spec with imageOrLibImage := spec.imageOrLibImage ++ [fs.findImagePath spec.extraFoundImages str] }

/-- The loop over the arguments, with the tags seen and the images given without a tag. -/
def createLoop (spec : ProfileSpec) (tagSeen temp : List Text) : List Text → Except SpecError (ProfileSpec × List Text)
  | [] => .ok (spec, temp)
  | it :: args =>
    if isValidTag it then
      if it ∈ tagSeen then .error (.runtimeError ("tag specified more than once: ".toList ++ it))
      else spec.parse fs it >>= fun spec => createLoop spec (it :: tagSeen) temp args
    else createLoop spec tagSeen (temp ++ [fs.opRealpath it]) args

/-- No session given means the current one. -/
def ProfileSpec.defaultSession (spec : ProfileSpec) : ProfileSpec :=
  if spec.session = [] then { spec with session := ["current".toList] } else spec

/-- `profile_spec::create` -/
def ProfileSpec.create (args imagePath : List Text) (rootPath : Text) : Except SpecError ProfileSpec :=
  createLoop fs .init [] [] args >>= fun (spec, temp) =>
    let spec := spec.defaultSession
    if imagePath.all fun p => fs.isDirectory (spec.archivePath ++ '/' :: p) then
      let spec := { spec with extraFoundImages := ⟨imagePath, spec.archivePath, rootPath⟩ }
      .ok (temp.foldl (·.setImageOrLibName fs ·) spec)
    else .error (.runtimeError "invalid --image-path= options".toList)

/-- The parts of a sample file's name that a specification looks at. -/
structure FilenameSpec where
  image : Text
  libImage : Text
  event : Text
  count : Int32
  unitmask : UInt32
  tgid : Option Int32
  tid : Option Int32
  cpu : Option Int32

/-- `profile_spec::match` -/
def ProfileSpec.match (self : ProfileSpec) (spec : FilenameSpec) : Bool :=
  let simage := fs.findImagePath self.extraFoundImages spec.image
  let slibImage := fs.findImagePath self.extraFoundImages spec.libImage
  let matchedByImageOrLibImage :=
    if self.imageOrLibImage ≠ [] then
      globMatch fs self.imageOrLibImage self.imageExclude simage ||
        globMatch fs self.imageOrLibImage self.imageExclude slibImage
    else false
  if !matchedByImageOrLibImage &&
      (if self.image ≠ [] then !globMatch fs self.image self.imageExclude simage
      else self.imageOrLibImage ≠ []) then false
  else if !matchedByImageOrLibImage &&
      (if self.libImage ≠ [] then !globMatch fs self.libImage self.imageExclude slibImage
      else self.image = [] ∧ self.imageOrLibImage ≠ []) then false
  else if !matchedByImageOrLibImage && !globMatch fs [] self.imageExclude simage then false
  else if !matchedByImageOrLibImage && (spec.libImage ≠ [] && !globMatch fs [] self.imageExclude slibImage) then false
  else if !self.event.match spec.event then false
  else if !self.count.match spec.count then false
  else if !self.unitmask.match spec.unitmask then false
  else if !commaMatch self.cpu spec.cpu then false
  else if !commaMatch self.tid spec.tid then false
  else commaMatch self.tgid spec.tgid

end Oprofile.Libpp
