/-!
# Text

Text is a list of Unicode code points. This module holds the cuts the rest of the library is
built from: a leading part, the first occurrence of a pattern, the last occurrence of a
character.
-/

namespace SuiteMake

/-- A sequence of Unicode code points, ordered by code point. -/
abbrev Text := List Char

namespace Text

/-- The characters that may stand between the words of a line: space and tab. -/
def isBlank (c : Char) : Bool := c == ' ' || c == '\t'

def skipBlanks (t : Text) : Text := t.dropWhile isBlank

/-- The text before and after the first occurrence of `pat`. The empty pattern occurs at once. -/
def cut? (pat : Text) : Text → Option (Text × Text)
  | [] => if pat = [] then some ([], []) else none
  | c :: t =>
    match pat.isPrefixOf? (c :: t) with
    | some rest => some ([], rest)
    | none => (cut? pat t).map fun (before, after) => (c :: before, after)

def occursIn (pat t : Text) : Bool := (cut? pat t).isSome

def cutLast? (sep : Char) : Text → Option (Text × Text)
  | [] => none
  | c :: t =>
    match cutLast? sep t with
    | some (before, after) => some (c :: before, after)
    | none => if c = sep then some ([], t) else none

/-- The part after the last `sep`; all of the text if it holds none. -/
def afterLast (sep : Char) (t : Text) : Text :=
  match cutLast? sep t with
  | some (_, after) => after
  | none => t

/-- The part before the last `sep`; all of the text if it holds none. -/
def beforeLast (sep : Char) (t : Text) : Text :=
  match cutLast? sep t with
  | some (before, _) => before
  | none => t

/-- The whole lines of the text, and what stands after its last newline. -/
def splitLastLine (t : Text) : Text × Text :=
  match cutLast? '\n' t with
  | some (before, after) => (before ++ ['\n'], after)
  | none => ([], t)

/-- The lines of the text, without their newlines; a final newline opens one more empty line. -/
def lines (t : Text) : List Text := t.splitOn '\n'

/-- The text with every newline written as carriage return and newline. -/
def crlf (t : Text) : Text := t.flatMap fun c => if c = '\n' then ['\r', '\n'] else [c]

def ofNat (n : Nat) : Text := Nat.toDigits 10 n

end Text
end SuiteMake
