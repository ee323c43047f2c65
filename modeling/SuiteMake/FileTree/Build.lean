import SuiteMake.FileTree.Access

/-!
# Building file trees

Creation of directories, files and links along a route, with all directories on the way, and
removal of what a route leads to.
-/

namespace SuiteMake.FileTree

/-- Walks from a location, creating the directories that are missing. -/
def makeDirectories (t : FileTree) (l : Location) :
    List Step → Except FileError (FileTree × Location)
  | [] => .ok (t, l)
  | .here :: rest | .slash :: rest => makeDirectories t l rest
  | .up :: rest => makeDirectories t l.dropLast rest
  | .down n :: rest =>
    if n.isTooLong then .error .nameTooLong
    else match t.get? (l ++ [n]) with
    | none => makeDirectories (t.put (l ++ [n]) .directory) (l ++ [n]) rest
    | some .directory => makeDirectories t (l ++ [n]) rest
    | some (.file _) => .error .notADirectory
    | some (.link _) =>
      match t.walk .look maxLinks l [.down n] with
      | .ok k => if t.get? k = some .directory then makeDirectories t k rest
          else .error .notADirectory
      | .error e => .error e

def createDirectory (t : FileTree) (r : Route) : Except FileError FileTree := do
  let r ← r.checked
  let (t, _) ← t.makeDirectories (t.origin r) r.steps
  return t

def createFile (t : FileTree) (r : Route) (content : Bytes) : Except FileError FileTree := do
  let r ← r.checked
  let (t, above) ← t.makeDirectories (t.origin r) r.steps.dropLast
  let l ← t.walk .create maxLinks above r.steps.getLast?.toList
  t.writeAt l content

def createLink (t : FileTree) (r : Route) (target : Path) : Except FileError FileTree := do
  let r ← r.checked
  let (t, above) ← t.makeDirectories (t.origin r) r.steps.dropLast
  match r.steps.getLast? with
  | some (.down n) =>
    if n.isTooLong then .error .nameTooLong else return t.put (above ++ [n]) (.link target)
  | _ => .error .isADirectory

/-- Removes what stands at the end of a route: a file, a link or a whole directory. -/
def remove (t : FileTree) (r : Route) : Except FileError FileTree := do
  let r ← r.checked
  let above ← t.walk .look maxLinks (t.origin r) r.steps.dropLast
  match r.steps.getLast? with
  | some (.down n) => return t.erase (above ++ [n])
  | _ => .error .isADirectory

end SuiteMake.FileTree
