import SuiteMake.FileTree.Access

/-!
# Edits of files

The text of a file with its marker regions spliced, and the writing of texts. A file that
lacks a marker is left as it is.
-/

namespace SuiteMake.FileTree

def edited (t : FileTree) (p : Path) (edits : List Edit) : Except Failure Text :=
  match t.readText p with
  | .error cause => .error (.file p cause)
  | .ok text =>
    match Edit.applyAll edits text with
    | .ok text => .ok text
    | .error missing => .error (.patch p missing)

def writeText (t : FileTree) (p : Path) (text : Text) : Except Failure FileTree :=
  match t.writeBytes p (Utf8.encode text) with
  | .ok t => .ok t
  | .error cause => .error (.file p cause)

def editFile (t : FileTree) (p : Path) (edits : List Edit) : Except Failure FileTree := do
  let text ← t.edited p edits
  t.writeText p text

/-- Writes texts to files one after the other, up to the first failure. -/
def writeAll (t : FileTree) : List (Path × Text) → Except Failure Unit × FileTree
  | [] => (.ok (), t)
  | (p, text) :: rest =>
    match t.writeText p text with
    | .ok t => writeAll t rest
    | .error failure => (.error failure, t)

end SuiteMake.FileTree
