import SuiteMake.Path.Name

/-!
# Paths

A path is kept as it was spelled, since messages show it so. What it denotes depends on its
components only: repeated and trailing slashes vanish, and so do dots, except for one that
opens a relative path. The canonical form of a path writes its components with single
slashes and no dots.
-/

namespace SuiteMake

/-- A path as it was spelled. -/
structure Path where
  spelling : Text
deriving DecidableEq

inductive Component
  | root
  | here
  | up
  | name (n : Name)
deriving DecidableEq

namespace Component

/-- The step a segment between two slashes stands for; empty segments and dots stand for none. -/
def ofSegment? (segment : Text) : Option Component :=
  if segment = [] ∨ segment = ['.'] then none
  else if segment = ['.', '.'] then some .up
  else some (.name (.text segment))

/-- The step the first of several segments stands for. -/
def ofFirstSegment? (segment : Text) (last : Bool) : Option Component :=
  if segment = [] then (if last then none else some .root)
  else if segment = ['.'] then some .here
  else ofSegment? segment

/-- How a step appears between the slashes of a canonical path, if it does. -/
def segment? : Component → Option Text
  | .root => none
  | .here => none
  | .up => some ['.', '.']
  | .name n => some n.display

def canonical (cs : List Component) : Text :=
  (if cs.head? = some .root then ['/'] else []) ++ List.intercalate ['/'] (cs.filterMap segment?)

/-- The components without the last one; none are left above the root and above nothing. -/
def parent? (cs : List Component) : Option (List Component) :=
  match cs.getLast? with
  | none => none
  | some .root => none
  | some _ => some cs.dropLast

/-- What follows the last dot of a name, unless that dot is its first character. -/
def extensionOf? (name : Text) : Option Text :=
  match Text.cutLast? '.' name with
  | none => none
  | some ([], _) => none
  | some (_, ext) => some ext

def extension? (cs : List Component) : Option Text :=
  match cs.getLast? with
  | some (.name n) => extensionOf? n.display
  | _ => none

end Component

namespace Path

def components (p : Path) : List Component :=
  match p.spelling.splitOn '/' with
  | [] => []
  | first :: rest =>
    (Component.ofFirstSegment? first rest.isEmpty).toList ++ rest.filterMap Component.ofSegment?

def isAbsolute (p : Path) : Bool := p.spelling.head? == some '/'

/-- The path `q` taken from `p`: `q` itself if it is absolute, else both with one slash between. -/
def join (p q : Path) : Path :=
  if q.isAbsolute then q
  else if p.spelling = [] ∨ p.spelling.getLast? = some '/' then ⟨p.spelling ++ q.spelling⟩
  else ⟨p.spelling ++ '/' :: q.spelling⟩

def canonical (p : Path) : Text := Component.canonical p.components

end Path
end SuiteMake
