import Oprofile.Library.Words

/-! How the daemon names a sample file (`opd_mangling.c`, `op_mangle.c`). -/
namespace Oprofile.SampleNames

/-- A C string, or a `std::string` of them. -/
abbrev Text := List Char

instance : LawfulBEq Text := inferInstance

def rootMarker : Text := ['{', 'r', 'o', 'o', 't', '}']

def kernMarker : Text := ['{', 'k', 'e', 'r', 'n', '}']

def anonMarker : Text := ['{', 'a', 'n', 'o', 'n', '}']

def depMarker : Text := ['{', 'd', 'e', 'p', '}']

def cgMarker : Text := ['{', 'c', 'g', '}']

/-- `"{anon"`. -/
def anonOpen : Text := ['{', 'a', 'n', 'o', 'n']

/-- `"{anon:"`. -/
def anonColon : Text := anonOpen ++ [':']

/-- `"all"`. -/
def allName : Text := ['a', 'l', 'l']

/-- `%u` of an unsigned int, `%d` of an int, `%llx`. -/
def printU (x : UInt32) : Text := Nat.toDigits 10 x.toNat

def printD (x : Int32) : Text :=
  if x.toInt < 0 then '-' :: Nat.toDigits 10 x.toInt.natAbs else Nat.toDigits 10 x.toInt.natAbs

def printX (x : UInt64) : Text := Nat.toDigits 16 x.toNat

/-- The bits of `mangle_flags`. -/
structure MangleFlags where
  cpu : Bool
  tgid : Bool
  tid : Bool
  kernel : Bool
  callgraph : Bool
  anon : Bool
  cgAnon : Bool

structure MangleValues where
  flags : MangleFlags
  imageName : Text
  anonName : Option Text
  depName : Text
  cgImageName : Option Text
  eventName : Text
  count : Int32
  unitMask : UInt32
  tgid : Int32
  tid : Int32
  cpu : Int32

/-- What `append_image` puts before a name. -/
def imageMarker (flags : MangleFlags) (anon : Bool) (name : Text) (anonName : Option Text) : Text :=
  if flags.kernel ∧ '/' ∉ name then kernMarker
  else
    match anon, anonName with
    | true, some a => anonColon ++ a ++ ['}']
    | _, _ => rootMarker

/-- `append_image`, as the text appended. -/
def appendImage (flags : MangleFlags) (anon : Bool) (name : Text) (anonName : Option Text) : Text :=
  imageMarker flags anon name anonName ++ '/' :: (name ++ ['/'])

/-- The last component of a mangled name. -/
def eventSpec (values : MangleValues) : Text :=
  values.eventName ++ '.' :: (printD values.count ++ '.' :: (printD values.unitMask.toInt32 ++ '.' ::
    ((if values.flags.tgid then printD values.tgid else allName) ++ '.' ::
      ((if values.flags.tid then printD values.tid else allName) ++ '.' ::
        (if values.flags.cpu then printD values.cpu else allName)))))

/-- `op_samples_current_dir`, as `init_op_config_dirs` puts it together. -/
def opSamplesCurrentDir (sessionDir : Text) : Text :=
  sessionDir ++ ['/', 's', 'a', 'm', 'p', 'l', 'e', 's', '/'] ++
    ['/', 'c', 'u', 'r', 'r', 'e', 'n', 't', '/']

/-- `op_mangle_filename`; `image_name` and `dep_name` change places there. -/
def opMangleFilename (sessionDir : Text) (values : MangleValues) : Text :=
  let imageName := values.depName
  let depName := values.imageName
  opSamplesCurrentDir sessionDir ++ (appendImage values.flags false imageName values.anonName ++
    (depMarker ++ '/' :: (appendImage values.flags values.flags.anon depName values.anonName ++
      ((match values.cgImageName with
        | some cgImageName =>
          if values.flags.callgraph then
            cgMarker ++ '/' :: appendImage values.flags values.flags.cgAnon cgImageName values.anonName
          else []
        | none => []) ++ eventSpec values))))

structure AnonMapping where
  start : UInt64
  stop : UInt64
  tgid : UInt32
  name : Text

/-- An `sfile`, with its kernel image (of which the name counts) and its anonymous mapping. -/
structure Sfile where
  cookie : UInt64
  appCookie : UInt64
  tid : Int32
  tgid : Int32
  cpu : Int32
  kernel : Option Text
  anon : Option AnonMapping

structure OpdEvent where
  name : Text
  count : UInt64
  um : UInt64

/-- The daemon's options, and what `find_cookie` answers. -/
structure Daemon where
  separateKernel : Bool
  separateLib : Bool
  separateThread : Bool
  separateCpu : Bool
  findCookie : UInt64 → Option Text

/-- `get_dep_name`. -/
def getDepName (d : Daemon) (sf : Sfile) : Option Text :=
  if sf.anon.isSome then d.findCookie sf.appCookie
  else if sf.cookie = sf.appCookie then none
  else if ¬ d.separateKernel ∧ ¬ (d.separateLib ∧ sf.kernel.isNone) then none
  else if sf.appCookie = 0 then none
  else d.findCookie sf.appCookie

/-- `mangle_anon`. -/
def mangleAnon (anon : AnonMapping) : Text :=
  printU anon.tgid ++ '.' :: '0' :: 'x' :: (printX anon.start ++ '.' :: '0' :: 'x' :: printX anon.stop)

/-- The name by which a side is recorded. -/
def sideName (d : Daemon) (sf : Sfile) : Option Text :=
  match sf.kernel, sf.anon with
  | some kernel, _ => some kernel
  | none, some anon => some (mangleAnon anon)
  | none, none => d.findCookie sf.cookie

/-- Whether a side is recorded as an anonymous region. -/
def Sfile.isAnonSide (sf : Sfile) : Bool := sf.kernel.isNone && sf.anon.isSome

/-- The values `mangle_filename` passes on. The name of an anonymous region is that of `last` if
`last` has one and `cg` is set, even when `sf` has one too. -/
def mangleValues (d : Daemon) (event : OpdEvent) (last sf : Sfile) (cg : Bool) :
    Option MangleValues := do
  let imageName ← sideName d sf
  let anonName := if sf.isAnonSide then sf.anon.map (·.name) else none
  let depName := (getDepName d sf).getD imageName
  let flags : MangleFlags :=
    { cpu := d.separateCpu, tgid := d.separateThread, tid := d.separateThread,
      kernel := sf.kernel.isSome, callgraph := cg, anon := sf.isAnonSide,
      cgAnon := cg && last.isAnonSide }
  let values : MangleValues :=
    { flags := flags, imageName := imageName, anonName := anonName, depName := depName,
      cgImageName := none, eventName := event.name, count := event.count.toUInt32.toInt32,
      unitMask := event.um.toUInt32, tgid := sf.tgid, tid := sf.tid, cpu := sf.cpu }
  if cg then
    let cgImageName ← sideName d last
    some { values with
      cgImageName := some cgImageName
      anonName := if last.isAnonSide then last.anon.map (·.name) else anonName }
  else some values

/-- `mangle_filename`. -/
def mangleFilename (d : Daemon) (sessionDir : Text) (event : OpdEvent) (last sf : Sfile)
    (cg : Bool) : Option Text :=
  (mangleValues d event last sf cg).map (opMangleFilename sessionDir)

end Oprofile.SampleNames
