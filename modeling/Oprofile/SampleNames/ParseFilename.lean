import Oprofile.SampleNames.Mangle
import Mathlib.Tactic.Linarith

/-! How the reports take the name of a sample file apart (`parse_filename.cpp`). -/
namespace Oprofile.SampleNames

/-- The loop of `separate_token`. -/
def separateTokenLoop (sep : Char) : Text → Text → List Text
  | [], next => if next = [] then [] else [next]
  | [ch], next =>
    if ch = '\\' then [next ++ ['\\']] else if ch = sep then [next] else [next ++ [ch]]
  | ch :: ch' :: str, next =>
    if ch = '\\' then
      if ch' = sep then separateTokenLoop sep str (next ++ [sep])
      else separateTokenLoop sep (ch' :: str) (next ++ ['\\'])
    else if ch = sep then next :: separateTokenLoop sep (ch' :: str) []
    else separateTokenLoop sep (ch' :: str) (next ++ [ch])

def separateToken (str : Text) (sep : Char) : List Text := separateTokenLoop sep str []

/-- What is thrown as `std::invalid_argument`, with the text it quotes. -/
inductive InvalidArgument
  | badEventSpecification (eventSpec : Text)
  | invalidFilename (filename : Text)
  | invalidAnonName (name : Text)
  | pidAddrAddrExpected (filenameSpec : Text)
  /-- An index past the end of a vector: nothing is thrown, anything may happen. -/
  | pastEnd
  deriving DecidableEq

structure ParsedFilename where
  image : Text
  libImage : Text
  cgImage : Text
  event : Text
  count : Text
  unitmask : Text
  tgid : Text
  tid : Text
  cpu : Text
  filename : Text
  jitDumpfileExists : Bool
  deriving DecidableEq

/-- `parse_event_spec`. -/
def parseEventSpec (eventSpec : Text) : Except InvalidArgument ParsedFilename :=
  match separateToken eventSpec '.' with
  | [event, count, unitmask, tgid, tid, cpu] =>
    if [] ∈ [event, count, unitmask, tgid, tid, cpu] then .error (.badEventSpecification eventSpec)
    else .ok ⟨[], [], [], event, count, unitmask, tgid, tid, cpu, [], false⟩
  | _ => .error (.badEventSpecification eventSpec)

/-- `remove_base_dir`. -/
def removeBaseDir (path : List Text) : List Text :=
  path.dropWhile fun c => c ≠ rootMarker ∧ c ≠ kernMarker ∧ c ≠ anonMarker

/-- `parse_anon`. -/
def parseAnon (str str2 : Text) : Except InvalidArgument Text :=
  let name := str2.drop 6
  if name = [] then .error (.invalidAnonName str2)
  else
    match separateToken str '.' with
    | [tgid, start, stop] =>
      .ok (name.dropLast ++ [' ', '(', 't', 'g', 'i', 'd', ':'] ++ tgid ++
        [' ', 'r', 'a', 'n', 'g', 'e', ':'] ++ start ++ ['-'] ++ stop ++ [')'])
    | _ => .error (.invalidAnonName str)

/-- `rfind('.')`. -/
def lastDot (s : Text) : Option Nat :=
  match s.reverse.dropWhile (· ≠ '.') with
  | [] => none
  | _ :: before => some before.length

/-- The position of the dot before the last; from position zero the search starts over. -/
def secondLastDot (s : Text) : Option Nat :=
  match lastDot s with
  | none => none
  | some 0 => lastDot s
  | some (pos + 1) => lastDot (s.take (pos + 1))

/-- What the parser asks of the file system: whether a file exists, and the name of an image
without the prefix for extra images. -/
structure Host where
  fileExists : Text → Bool
  stripPathPrefix : Text → Text

def isSideMarker (c : Text) : Bool := c == kernMarker || c == rootMarker || anonOpen.isPrefixOf c

/-- The image, after its marker `m`, and what is left of the path. -/
def parseLib (host : Host) (filenameSpec m : Text) (path : List Text) :
    Except InvalidArgument (Text × Bool × List Text) :=
  if anonColon.isPrefixOf m then
    match path with
    | [] => .ok ([], false, [])
    | c :: rest =>
      if c = cgMarker then .ok ([], false, c :: rest)
      else
        match secondLastDot filenameSpec with
        | none => .error (.pidAddrAddrExpected filenameSpec)
        | some pos =>
          let jitdump := filenameSpec.take pos ++ ['.', 'j', 'o']
          if host.fileExists jitdump then .ok (host.stripPathPrefix jitdump, true, rest)
          else (parseAnon c m).map fun name => (name, false, rest)
  else
    .ok (Words.lead '/' (path.takeWhile (· ≠ cgMarker)), false, path.dropWhile (· ≠ cgMarker))

/-- The caller's image, from what follows the image. -/
def parseCg (filename : Text) (path : List Text) : Except InvalidArgument Text :=
  match path with
  | [] => .ok []
  | [_] => .error (.invalidFilename filename)
  | _ :: m :: rest =>
    if ¬ isSideMarker m then .error (.invalidFilename filename)
    else if anonOpen.isPrefixOf m then
      match rest with
      | [] => .error .pastEnd
      | c :: _ => parseAnon c m
    else .ok (Words.lead '/' rest)

/-- The text before the last slash and the text after it. -/
def splitLastSlash (filename : Text) : Option (Text × Text) :=
  match filename.reverse.dropWhile (· ≠ '/') with
  | [] => none
  | _ :: before => some (before.reverse, (filename.reverse.takeWhile (· ≠ '/')).reverse)

/-- The images of a path from which the base directory has been removed. -/
def parsePath (host : Host) (filename filenameSpec : Text) (path : List Text) :
    Except InvalidArgument (Text × Text × Bool × Text) :=
  if path.length < 2 then .error (.invalidFilename filename)
  else
    match (path.drop 1).dropWhile (· ≠ depMarker) with
    | [] => .error (.invalidFilename filename)
    | [_] => .error .pastEnd
    | _ :: m :: rest => do
      if ¬ isSideMarker m then .error (.invalidFilename filename)
      let (libImage, jit, rest) ← parseLib host filenameSpec m rest
      let cgImage ← parseCg filename rest
      .ok (Words.lead '/' ((path.drop 1).takeWhile (· ≠ depMarker)), libImage, jit, cgImage)

/-- `parse_filename`. -/
def parseFilename (host : Host) (filename : Text) : Except InvalidArgument ParsedFilename :=
  match splitLastSlash filename with
  | none => .error (.invalidFilename filename)
  | some (filenameSpec, eventSpec) => do
    let result ← parseEventSpec eventSpec
    let (image, libImage, jit, cgImage) ←
      parsePath host filename filenameSpec (removeBaseDir (separateToken filenameSpec '/'))
    .ok { result with
      image := image, libImage := libImage, cgImage := cgImage, filename := filename,
      jitDumpfileExists := jit }

end Oprofile.SampleNames
