import SuiteMake.Text.Utf8

/-!
# Names

The name of a file or directory is any string of bytes. Nearly all of them are text; the
others are kept apart, so that a name is text or shows that it is not.
-/

namespace SuiteMake

/-- The name of a directory entry. -/
inductive Name
  | text (chars : Text)
  | raw (bytes : Bytes) (illFormed : Utf8.decode? bytes = none)
deriving DecidableEq

namespace Name

def ofBytes (bytes : Bytes) : Name :=
  match h : Utf8.decode? bytes with
  | some chars => .text chars
  | none => .raw bytes h

/-- The bytes of a name, by which directory listings are ordered. -/
def bytes : Name → Bytes
  | .text chars => Utf8.encode chars
  | .raw bytes _ => bytes

/-- Whether a name holds a null character, as no directory entry does. -/
def hasNull (n : Name) : Bool := n.bytes.contains 0

def maxLength : Nat := 255

def isTooLong (n : Name) : Bool := maxLength < n.bytes.length

def text? : Name → Option Text
  | .text chars => some chars
  | .raw .. => none

/-- The name as it is shown: ill-formed parts appear as U+FFFD. -/
def display : Name → Text
  | .text chars => chars
  | .raw bytes _ => Utf8.decodeLossy bytes

end Name
end SuiteMake
