import SuiteMake.Failure
import SuiteMake.FileTree.Basic

/-!
# Routes through a file tree

A path denotes a location by being walked: dots stay, double dots go up, names go down, and
links are replaced by their targets. Every step but the first starts at a directory. A path
walked to create a file may end in a name that is not there yet. Names and paths are bounded in
length, and none holds a null character.
-/

namespace SuiteMake

/-- One step of a walk. A slash after the last name asks for a directory. -/
inductive Step
  | here
  | up
  | down (n : Name)
  | slash
deriving DecidableEq

def Step.hasNull : Step → Bool
  | .down n => n.hasNull
  | _ => false

/-- A walk from the root, or from wherever it is started, and the length in bytes of the path
it is spelled with. -/
structure Route where
  fromRoot : Bool
  steps : List Step
  length : Nat

namespace Route

/-- The step a segment between two slashes stands for. -/
def step? (segment : Name) : Option Step :=
  if segment = .text [] then none
  else if segment = .text ['.'] then some .here
  else if segment = .text ['.', '.'] then some .up
  else some (.down segment)

def ofSegments (segments : List Name) : Route :=
  let steps := segments.filterMap step?
  let endsInSlash := steps ≠ [] ∧ segments.getLast? = some (.text [])
  { fromRoot := segments.head? = some (.text []) && 1 < segments.length
    steps := if endsInSlash then steps ++ [.slash] else steps
    length := segments.foldr (fun n total => n.bytes.length + total) (segments.length - 1) }

def segments (p : Path) : List Name := (p.spelling.splitOn '/').map .text

def ofPath (p : Path) : Route := ofSegments (segments p)

/-- The walk along a path to a directory and on along names below it. -/
def below (p : Path) (names : Location) : Route :=
  let above := segments p
  ofSegments ((if above.getLast? = some (.text []) then above.dropLast else above) ++ names)

/-- The walk along a path that need not be text. -/
def ofBytes (bytes : Bytes) : Route := ofSegments ((bytes.splitOn 0x2F).map .ofBytes)

def maxLength : Nat := 4095

/-- Why a route cannot be walked in any tree, if it cannot. -/
def fault? (r : Route) : Option FileError :=
  if r.steps.any Step.hasNull then some .nullCharacter
  else if maxLength < r.length then some .nameTooLong
  else none

def checked (r : Route) : Except FileError Route :=
  match r.fault? with
  | some e => .error e
  | none => .ok r

end Route

/-- Why a path is walked: to find what is there, or to put a file there. -/
inductive Purpose
  | look
  | create
deriving DecidableEq

namespace FileTree

/-- Walks from a location. `onLink` says how to go on at a link, from the directory that holds
it, towards its target and then along the remaining steps. -/
def follow (t : FileTree) (purpose : Purpose)
    (onLink : Location → Path → List Step → Except FileError Location) :
    Location → List Step → Except FileError Location
  | l, [] => .ok l
  | l, s :: rest =>
    match t.get? l with
    | some .directory =>
      match s with
      | .here | .slash => follow t purpose onLink l rest
      | .up => follow t purpose onLink l.dropLast rest
      | .down n =>
        if purpose = .create ∧ rest = [.slash] then .error .isADirectory
        else if n.isTooLong then .error .nameTooLong
        else
          match t.get? (l ++ [n]) with
          | some (.link target) => onLink l target rest
          | some _ => follow t purpose onLink (l ++ [n]) rest
          | none =>
            if purpose = .create ∧ rest = [] then .ok (l ++ [n]) else .error .notFound
    | some (.file _) => .error .notADirectory
    | _ => .error .notFound

/-- Walks from a location through at most the given number of links. -/
def walk (t : FileTree) (purpose : Purpose) :
    Nat → Location → List Step → Except FileError Location
  | 0 => t.follow purpose fun _ _ _ => .error .tooManyLinks
  | links + 1 => t.follow purpose fun l target rest =>
      let route := Route.ofPath target
      t.walk purpose links (if route.fromRoot then [] else l) (route.steps ++ rest)

def maxLinks : Nat := 40

def origin (t : FileTree) (r : Route) : Location := if r.fromRoot then [] else t.cwd

/-- The location a route denotes. The empty route denotes none. -/
def locateRoute (t : FileTree) (purpose : Purpose) (r : Route) : Except FileError Location :=
  match r.fault? with
  | some e => .error e
  | none =>
    if r.fromRoot = false ∧ r.steps = [] then .error .notFound
    else t.walk purpose maxLinks (t.origin r) r.steps

def locate (t : FileTree) (purpose : Purpose) (p : Path) : Except FileError Location :=
  t.locateRoute purpose (.ofPath p)

end FileTree
end SuiteMake
