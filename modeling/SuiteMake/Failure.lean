import SuiteMake.Path.Basic
import SuiteMake.Region

/-!
# Failures

What can go wrong, by cause, and the words in which each cause is reported.
-/

namespace SuiteMake

inductive FileError
  | notFound
  | notADirectory
  | isADirectory
  | notText
  | tooManyLinks
  | nullCharacter
  | nameTooLong
deriving DecidableEq

/-- Why a generation could not be carried out. Every case prefix makes a pattern: it is taken
literally, and patterns are not bounded in size. -/
inductive Failure
  | rootNotFound (root : Path)
  | file (path : Path) (cause : FileError)
  | walk (directory : Path) (cause : FileError)
  | invalidMarker (marker : Text)
  | patch (path : Path) (missing : MissingMarker)
deriving DecidableEq

def quoted (t : Text) : Text := '`' :: t ++ ['`']

namespace MissingMarker

def message (m : MissingMarker) : Text :=
  "marker ".toList ++ quoted m.marker ++ " not found".toList

def code : Text := "makegen::patch::missing_marker".toList

def help : Text :=
  ("generated lines are spliced between a BEGIN and an END marker line; " ++
    "add both to the file").toList

end MissingMarker

namespace Failure

def message : Failure → Text
  | .rootNotFound root => "could not find test-case root ".toList ++ quoted root.spelling
  | .file path _ => "I/O error on ".toList ++ quoted path.spelling
  | .walk .. => "failed to walk the test-case tree".toList
  | .invalidMarker marker => "invalid variant marker ".toList ++ quoted marker
  | .patch path _ => "cannot patch ".toList ++ quoted path.spelling

/-- The stable name of the kind of failure. -/
def code : Failure → Text
  | .rootNotFound _ => "makegen::root_not_found".toList
  | .file .. => "makegen::io".toList
  | .walk .. => "makegen::walk".toList
  | .invalidMarker _ => "makegen::invalid_marker".toList
  | .patch .. => "makegen::patch".toList

def help? : Failure → Option Text
  | .rootNotFound _ => some
      ("run makegen from the directory containing the test-case root, " ++ "or pass --root").toList
  | .file .. => none
  | .walk .. => none
  | .invalidMarker _ => some
      ("markers are pasted into make `$(wildcard)` globs; " ++
        "use letters, digits, `_`, `-` or `.`").toList
  | .patch .. => none

/-- Whether the failure says that the program was started in the wrong place. -/
def isPrecondition : Failure → Bool
  | .rootNotFound _ => true
  | _ => false

end Failure
end SuiteMake
