import SuiteMake.FileTree.Route

/-!
# Reading and writing

What a file tree answers about a path, and what writing a file does to it: nothing but the
file at the denoted location changes.
-/

namespace SuiteMake.FileTree

def openDirectory (t : FileTree) (r : Route) : Except FileError Location := do
  let l ← t.locateRoute .look r
  if t.get? l = some .directory then .ok l else .error .notADirectory

def isDirectory (t : FileTree) (p : Path) : Bool := (t.openDirectory (.ofPath p)).isOk

def contentAt (t : FileTree) (l : Location) : Except FileError Bytes :=
  match t.get? l with
  | some (.file content) => .ok content
  | some .directory => .error .isADirectory
  | _ => .error .notFound

def readRoute (t : FileTree) (r : Route) : Except FileError Bytes := do
  let l ← t.locateRoute .look r
  t.contentAt l

def readBytes (t : FileTree) (p : Path) : Except FileError Bytes := t.readRoute (.ofPath p)

def readText (t : FileTree) (p : Path) : Except FileError Text := do
  let content ← t.readBytes p
  match Utf8.decode? content with
  | some text => .ok text
  | none => .error .notText

/-- Puts a file at a location, unless a directory is there. -/
def writeAt (t : FileTree) (l : Location) (content : Bytes) : Except FileError FileTree :=
  if t.get? l = some .directory then .error .isADirectory else .ok (t.put l (.file content))

def writeBytes (t : FileTree) (p : Path) (content : Bytes) : Except FileError FileTree := do
  let l ← t.locate .create p
  t.writeAt l content

def isFile (t : FileTree) (r : Route) : Bool := (t.readRoute r).isOk

/-- What stands below a location, each as the names that lead to it. What is reached through a
linked directory is not below. -/
def namesBelow (t : FileTree) (l : Location) : List Location :=
  t.nodes.filterMap fun (k, _) => l.isPrefixOf? k

/-- The directories below a location, without those that links lead to. -/
def directoriesBelow (t : FileTree) (l : Location) : List Location :=
  (t.nodes.filterMap fun (k, node) => if node = .directory then l.isPrefixOf? k else none).filter
    (· ≠ [])

end SuiteMake.FileTree
