import SuiteMake.EntryPoint.Basic
import SuiteMake.Text.Word

/-!
# Extraction of entry points

An entry point is told by a single line: `void`, the name of the function, empty parentheses
or `(void)`, and then an opening brace or the end of the line. In C the function's name is the
case prefix, any word characters, `_` and a kind. In C++ it is a kind, and the case is named
by the first `namespace` line whose name starts with the case prefix.

A case prefix is any text. If it holds blanks or newlines, a name may start inside the blanks
after `void`, and may run over the end of a line.
-/

namespace SuiteMake.Extract

/-- What remains of a text after one or more of its leading blanks, most blanks first. -/
def afterBlanks : Text → List Text
  | [] => []
  | c :: t => if Text.isBlank c then afterBlanks t ++ [t] else []

/-- What may follow a keyword that opens a line, after the blanks that set it off. -/
def afterKeyword (keyword line : Text) : List Text :=
  match keyword.isPrefixOf? (Text.skipBlanks line) with
  | some rest => afterBlanks rest
  | none => []

/-- Reads an empty parameter list, plain or `void`. -/
def parameters? (t : Text) : Option Text := do
  let inner ← ['('].isPrefixOf? (Text.skipBlanks t)
  let inner := Text.skipBlanks inner
  let inner := ("void".toList.isPrefixOf? inner).getD inner
  [')'].isPrefixOf? (Text.skipBlanks inner)

def atLineEnd (t : Text) : Bool := t.head? == none || t.head? == some '\n'

/-- Reads the start of a function's body: an opening brace, or the end of the line before a
carriage return or not. -/
def bodyStart? (t : Text) : Option Text :=
  let t := Text.skipBlanks t
  match ['\x7b'].isPrefixOf? t with
  | some rest => some rest
  | none =>
    let rest := (['\r'].isPrefixOf? t).getD t
    if atLineEnd rest then some rest else none

/-- Reads what follows the name of a function that is being defined. -/
def definition? (t : Text) : Option Text := do
  let t ← parameters? t
  bodyStart? t

/-- Reads a function name of the form prefix, word characters, `_`, kind. -/
def caseFunction? (casePrefix t : Text) : Option (Signature × Text) := do
  let t ← casePrefix.isPrefixOf? t
  let word := t.takeWhile Text.isWord
  let signature ← Kind.all.findSome? fun k =>
    (('_' :: k.text).isSuffixOf? word).map fun w => (⟨casePrefix ++ w, k⟩ : Signature)
  let rest ← definition? (t.dropWhile Text.isWord)
  return (signature, rest)

def kindFunction? (t : Text) : Option (Kind × Text) :=
  Kind.all.findSome? fun k => do
    let t ← k.text.isPrefixOf? t
    let rest ← definition? t
    return (k, rest)

/-- Reads a name that starts with the case prefix, as far as word characters go. -/
def caseName? (casePrefix t : Text) : Option (Text × Text) := do
  let t ← casePrefix.isPrefixOf? t
  return (casePrefix ++ t.takeWhile Text.isWord, t.dropWhile Text.isWord)

def cDefinition? (casePrefix line : Text) : Option (Signature × Text) :=
  (afterKeyword "void".toList line).findSome? (caseFunction? casePrefix)

def cppDefinition? (line : Text) : Option (Kind × Text) :=
  (afterKeyword "void".toList line).findSome? kindFunction?

def caseNamespace? (casePrefix line : Text) : Option (Text × Text) :=
  (afterKeyword "namespace".toList line).findSome? (caseName? casePrefix)

def afterNewlines : Text → List Text
  | [] => []
  | c :: t => if c = '\n' then t :: afterNewlines t else afterNewlines t

def lineStarts (t : Text) : List Text := t :: afterNewlines t

/-- What a reader finds at the given line starts. A line that starts before the end of the last
find, of which `limit` characters are left, is passed over. -/
def findFrom {α : Type} (read? : Text → Option (α × Text)) : Nat → List Text → List α
  | _, [] => []
  | limit, line :: lines =>
    if line.length ≤ limit then
      match read? line with
      | some (found, rest) => found :: findFrom read? rest.length lines
      | none => findFrom read? limit lines
    else findFrom read? limit lines

/-- What a reader finds at the line starts of a text, from top to bottom and without overlap. -/
def findAll {α : Type} (read? : Text → Option (α × Text)) (t : Text) : List α :=
  findFrom read? t.length (lineStarts t)

/-- The entry points a source file defines, each once, in the order of first definition. -/
def signatures (casePrefix : Text) (l : Language) (t : Text) : List Signature :=
  match l with
  | .c => (findAll (cDefinition? casePrefix) t).eraseDups
  | .cpp =>
    match (lineStarts t).findSome? (caseNamespace? casePrefix) with
    | some (qualifier, _) => ((findAll cppDefinition? t).map (Signature.mk qualifier)).eraseDups
    | none => []

end SuiteMake.Extract
