import SuiteMake.Config
import SuiteMake.EntryPoint.Extract
import SuiteMake.FileTree.Access

/-!
# Index of entry points

The entry points of all source files, in the order of the files. A source file is read as
text even where it is not well formed.
-/

namespace SuiteMake.EntryIndex

def ofContent (c : Config) (f : SourceFile) (content : Bytes) : List EntryPoint :=
  (Extract.signatures c.casePrefix f.language (Utf8.decodeLossy content)).map fun s =>
    { source := f.path
      language := f.language
      qualifier := s.qualifier
      kind := s.kind
      portable := c.isPortable f }

def ofFile (c : Config) (t : FileTree) (f : SourceFile) : Except Failure (List EntryPoint) :=
  let path := f.pathFrom c.baseDir
  match t.readBytes path with
  | .ok content => .ok (ofContent c f content)
  | .error cause => .error (.file path cause)

def addFile (c : Config) (t : FileTree) (i : EntryIndex) (f : SourceFile) :
    Except Failure EntryIndex := do
  let found ← ofFile c t f
  return found.foldl push i

/-- The entry points of some source files, collected in one pass over the files. The first that
cannot be read is reported. -/
def ofFiles (c : Config) (t : FileTree) (files : List SourceFile) : Except Failure EntryIndex :=
  files.foldlM (addFile c t) {}

end SuiteMake.EntryIndex
