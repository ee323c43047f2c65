import SuiteMake.Discovery
import SuiteMake.EntryPoint.Index
import SuiteMake.FileTree.Edit
import SuiteMake.Recipe.Basic

/-!
# Drafts

A draft is everything a generation is going to write, computed before anything is written.
Generating writes the main file, the header and the recipe, in this order; a file is outdated
if generating would change it.
-/

namespace SuiteMake

/-- Everything that is going to be written, and what it was computed from. -/
structure Draft where
  files : List SourceFile
  directories : List Text
  entries : EntryIndex
  recipe : Text
  mainText : Text
  headerText : Text

structure Summary where
  files : Nat
  directories : Nat
  entryPoints : Nat
  portableEntryPoints : Nat
deriving DecidableEq

namespace Draft

/-- The directories of some source files, each once, in ascending order. -/
def directoriesOf (files : List SourceFile) : List Text :=
  Recipe.distinctDirectories (files.map SourceFile.directory)

def recipeFor (c : Config) (files : List SourceFile) : Text :=
  Recipe.recipe c (directoriesOf files)

/-- The draft for a suite. Nothing is written. -/
def ofTree (c : Config) (t : FileTree) : Except Failure Draft := do
  let files ← Discovery.sourceFiles c t
  let entries ← EntryIndex.ofFiles c t files
  let mainText ← t.edited c.mainPath entries.callEdits
  let headerText ← t.edited c.headerPath entries.declarationEdits
  return {
    files := files
    directories := directoriesOf files
    entries := entries
    recipe := recipeFor c files
    mainText := mainText
    headerText := headerText }

def summary (d : Draft) : Summary where
  files := d.files.length
  directories := d.directories.length
  entryPoints := d.entries.all.length
  portableEntryPoints := d.entries.portable.length

/-- The texts of a draft with the files they go to, in the order of writing. -/
def outputs (d : Draft) (c : Config) : List (Path × Text) :=
  [(c.mainPath, d.mainText), (c.headerPath, d.headerText), (c.outputPath, d.recipe)]

end Draft

/-- Drafts everything, then writes it. A draft that fails leaves the tree as it is. -/
def generate (c : Config) (t : FileTree) : Except Failure Summary × FileTree :=
  match Draft.ofTree c t with
  | .error failure => (.error failure, t)
  | .ok d =>
    match t.writeAll (d.outputs c) with
    | (.ok (), t) => (.ok d.summary, t)
    | (.error failure, t) => (.error failure, t)

def FileTree.lacks (t : FileTree) (output : Path × Text) : Bool :=
  match t.readText output.1 with
  | .ok text => text ≠ output.2
  | .error _ => true

/-- The files that generating would change, in the order of writing. -/
def outdated (c : Config) (t : FileTree) : Except Failure (List Path) := do
  let d ← Draft.ofTree c t
  return ((d.outputs c).filter t.lacks).map Prod.fst

end SuiteMake
