import SuiteMake.Config
import SuiteMake.EntryPoint.Basic
import SuiteMake.Text.Json

/-!
# Listings

The source files of a suite with the entry points of each, as text and as a JSON document.
-/

namespace SuiteMake

structure ListedFile where
  file : SourceFile
  portable : Bool
  entries : List EntryPoint

/-- The source files of a suite with their entry points, and the numbers of all entry points
and of the portable ones. -/
structure Listing where
  files : List ListedFile
  entryPoints : Nat
  portableEntryPoints : Nat

namespace ListedFile

/-- An entry point on a line of its own, marked if the main file does not call it. -/
def entryLine (e : EntryPoint) : Text :=
  "    ".toList ++ e.call ++ (if e.portable then [] else "  (declared only)".toList) ++ ['\n']

/-- A file on a line of its own, marked if it is a variant, then its entry points. -/
def render (l : ListedFile) : Text :=
  l.file.path ++ " (".toList ++ l.file.language.display ++
    (if l.portable then [] else ", variant".toList) ++ ")\n".toList ++ l.entries.flatMap entryLine

def entryJson (e : EntryPoint) : Json :=
  .object [
    ("call".toList, .string e.call),
    ("called_from_main".toList, .bool e.portable),
    ("declaration".toList, .string e.declaration),
    ("kind".toList, .string e.kind.text)]

def toJson (l : ListedFile) : Json :=
  .object [
    ("directory".toList, .string l.file.directory),
    ("entry_points".toList, .list (l.entries.map entryJson)),
    ("language".toList, .string l.file.language.display),
    ("path".toList, .string l.file.path),
    ("portable".toList, .bool l.portable)]

end ListedFile

namespace Listing

/-- Lists source files with the entry points that name them as their source. -/
def ofIndex (c : Config) (files : List SourceFile) (i : EntryIndex) : Listing where
  files := files.map fun f => ⟨f, c.isPortable f, i.all.filter (·.source = f.path)⟩
  entryPoints := i.all.length
  portableEntryPoints := i.portable.length

/-- The listing as text, with a line of totals. -/
def render (l : Listing) : Text :=
  l.files.flatMap ListedFile.render ++ '\n' :: Text.ofNat l.files.length ++
    " file(s), ".toList ++ Text.ofNat l.entryPoints ++ " entry point(s), ".toList ++
    Text.ofNat l.portableEntryPoints ++ " portable\n".toList

def toJson (l : Listing) : Json :=
  .object [("units".toList, .list (l.files.map ListedFile.toJson))]

end Listing
end SuiteMake
