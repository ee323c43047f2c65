import SuiteMake.Language
import SuiteMake.Path.Basic

/-!
# Source files

A source file of the suite as it is seen from the base directory: its canonical path, its
directory and its language.
-/

namespace SuiteMake

structure SourceFile where
  path : Text
  directory : Text
  language : Language
deriving DecidableEq

namespace SourceFile

/-- The directory of a file with these components, a dot if it stands in the base directory. -/
def directoryOf (cs : List Component) : Text :=
  match Component.parent? cs with
  | none => ['.']
  | some above =>
    let d := Component.canonical above
    if d = [] then ['.'] else d

/-- The source file with these components, seen from a base if the base leads to it. A file
whose extension is that of no language is none. -/
def ofComponents? (base file : List Component) : Option SourceFile := do
  let ext ← Component.extension? file
  let language ← Language.ofExtension? ext
  let relative := (base.isPrefixOf? file).getD file
  return ⟨Component.canonical relative, directoryOf relative, language⟩

def ofPath? (base path : Path) : Option SourceFile :=
  ofComponents? base.components path.components

def name (f : SourceFile) : Text := Text.afterLast '/' f.path

/-- The path at which the file is read. -/
def pathFrom (f : SourceFile) (base : Path) : Path := base.join ⟨f.path⟩

end SourceFile
end SuiteMake
