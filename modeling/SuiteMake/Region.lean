import SuiteMake.Text.Basic

/-!
# Marker regions

A marker region is the run of lines between a start marker and an end marker. Splicing
replaces these lines and keeps everything else, the marker lines included; the new lines take
the indentation of the start marker and the line ending of its line.
-/

namespace SuiteMake

/-- The two markers of a region. -/
structure Region where
  start : Text
  stop : Text
deriving DecidableEq

/-- A marker that a text should hold and does not. -/
structure MissingMarker where
  marker : Text
deriving DecidableEq

namespace Region

/-- The region between two comments that carry a name. -/
def named (name : Text) : Region where
  start := "/* BEGIN-AUTOGENERATED-".toList ++ name ++ " */".toList
  stop := "/* END-AUTOGENERATED-".toList ++ name ++ " */".toList

def functionCallsName : Text := "FUNCTION-CALLS".toList

def cDeclarationsName : Text := "C-DECLARATIONS".toList

def cppDeclarationsName : Text := "CPP-DECLARATIONS".toList

/-- Calls of the portable entry points, in the main file. -/
def functionCalls : Region := named functionCallsName

/-- Declarations of the C entry points, in the header. -/
def cDeclarations : Region := named cDeclarationsName

/-- Declarations of the C++ entry points, in the header. -/
def cppDeclarations : Region := named cppDeclarationsName

def names : List Text := [functionCallsName, cDeclarationsName, cppDeclarationsName]

/-- A text taken apart around the body of a region. -/
structure Split where
  /-- Everything up to the end of the start marker's line. -/
  head : Text
  /-- The lines between the two marker lines. -/
  body : Text
  /-- Everything from the start of the end marker's line. -/
  tail : Text
  /-- The blanks that open the start marker's line. -/
  indent : Text

/-- Takes a text apart at the first start marker and the first end marker on a later line. -/
def split (r : Region) (text : Text) : Except MissingMarker Split :=
  match Text.cut? r.start text with
  | none => .error ⟨r.start⟩
  | some (before, after) =>
    match Text.cut? ['\n'] after with
    | none => .error ⟨r.stop⟩
    | some (line, rest) =>
      match Text.cut? r.stop rest with
      | none => .error ⟨r.stop⟩
      | some (upTo, beyond) =>
        .ok {
          head := before ++ r.start ++ line ++ ['\n']
          body := (Text.splitLastLine upTo).1
          tail := (Text.splitLastLine upTo).2 ++ r.stop ++ beyond
          indent := (Text.splitLastLine before).2.takeWhile Text.isBlank }

/-- The line ending in use where a text stops: that of its last line. -/
def lineEnding (head : Text) : Text :=
  if ['\r', '\n'].isSuffixOf head then ['\r', '\n'] else ['\n']

/-- The generated lines as they stand in the text. -/
def layout (s : Split) (lines : List Text) : Text :=
  lines.flatMap fun line => s.indent ++ line ++ lineEnding s.head

def splice (r : Region) (lines : List Text) (text : Text) : Except MissingMarker Text :=
  (r.split text).map fun s => s.head ++ layout s lines ++ s.tail

end Region

structure Edit where
  region : Region
  lines : List Text

namespace Edit

/-- Splices each edit into the result of the ones before it. -/
def applyAll : List Edit → Text → Except MissingMarker Text
  | [], text => .ok text
  | e :: es, text =>
    match e.region.splice e.lines text with
    | .ok text => applyAll es text
    | .error missing => .error missing

end Edit
end SuiteMake
