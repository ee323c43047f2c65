import SuiteMake.Ascending
import SuiteMake.Config
import SuiteMake.FileTree.Access

/-!
# Discovery

The case files of a suite are the files below its root whose names are those of test cases.
Each gives a source file; source files are listed by path, each once.
-/

namespace SuiteMake.Discovery

/-- Whether a location is that of a test case, by its last name, which has to be text. -/
def isCaseFile (casePrefix : Text) (l : Location) : Bool :=
  match l.getLast? with
  | some (.text name) => CaseName.isCase casePrefix name
  | _ => false

/-- The case files below a path that denotes a location, in ascending order of the bytes of
their names. Links to files count as files. -/
def caseFiles (t : FileTree) (casePrefix : Text) (root : Path) (l : Location) : List Location :=
  ascending (·.map Name.bytes) ((t.namesBelow l).filter fun names =>
    isCaseFile casePrefix names && t.isFile (.below root names))

/-- A location below a path, as it is shown. -/
def shown (root : Path) (l : Location) : Path := l.foldl (fun p n => p.join ⟨n.display⟩) root

/-- The directories below a path that denotes a location and cannot be opened, in the order of the
walk. A directory that is walked is there, so only its path can be at fault. -/
def unopened (t : FileTree) (root : Path) (l : Location) : List Location :=
  ascending (·.map Name.bytes) ((t.directoriesBelow l).filter fun names =>
    (Route.below root names).fault?.isSome)

/-- Why the walk below a path ends early, if it does: at the first directory that cannot be opened. -/
def walkFailure? (t : FileTree) (root : Path) (l : Location) : Option Failure :=
  (unopened t root l).findSome? fun names =>
    (Route.below root names).fault?.map (.walk (shown root names))

def caseFilesIn (t : FileTree) (casePrefix : Text) (root : Path) :
    Except Failure (List Location) :=
  match t.openDirectory (.ofPath root) with
  | .error _ => .error (.rootNotFound root)
  | .ok l =>
    match walkFailure? t root l with
    | some failure => .error failure
    | none => .ok (caseFiles t casePrefix root l)

def sourceFile? (c : Config) (l : Location) : Option SourceFile :=
  SourceFile.ofComponents? c.baseDir.components (c.rootPath.components ++ l.map .name)

/-- The source files of a suite, in ascending order of their paths. -/
def sourceFiles (c : Config) (t : FileTree) : Except Failure (List SourceFile) := do
  let found ← caseFilesIn t c.casePrefix c.rootPath
  return ascending SourceFile.path (found.filterMap (sourceFile? c))

end SuiteMake.Discovery
