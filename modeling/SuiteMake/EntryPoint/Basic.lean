import SuiteMake.Language
import SuiteMake.Region

/-!
# Entry points

A test case has a good and a bad entry point. In C both are functions named after the case;
in C++ they are functions of the namespace named after it.
-/

namespace SuiteMake

/-- Which side of a test case an entry point runs. -/
inductive Kind
  | good
  | bad
deriving DecidableEq, Repr

namespace Kind

def all : List Kind := [.good, .bad]

def text : Kind → Text
  | .good => "good".toList
  | .bad => "bad".toList

end Kind

/-- What a source file says about an entry point: whose it is and which. -/
structure Signature where
  qualifier : Text
  kind : Kind
deriving DecidableEq

structure EntryPoint where
  /-- Path of the file that defines it. -/
  source : Text
  language : Language
  qualifier : Text
  kind : Kind
  /-- Whether the main file calls it. -/
  portable : Bool
deriving DecidableEq

namespace EntryPoint

def call (e : EntryPoint) : Text :=
  match e.language with
  | .c => e.qualifier ++ '_' :: e.kind.text ++ "();".toList
  | .cpp => e.qualifier ++ "::".toList ++ e.kind.text ++ "();".toList

def declaration (e : EntryPoint) : Text :=
  match e.language with
  | .c => "void ".toList ++ e.qualifier ++ '_' :: e.kind.text ++ "();".toList
  | .cpp => "namespace ".toList ++ e.qualifier ++ " \x7b void ".toList ++ e.kind.text ++
      "(); \x7d".toList

end EntryPoint

/-- The entry points of a suite, in the order of its source files: all of them for the header, and
those that the main file calls. -/
structure EntryIndex where
  all : List EntryPoint := []
  portable : List EntryPoint := []

namespace EntryIndex

def push (i : EntryIndex) (e : EntryPoint) : EntryIndex where
  all := i.all ++ [e]
  portable := if e.portable then i.portable ++ [e] else i.portable

def calls (i : EntryIndex) : List Text := i.portable.map EntryPoint.call

def declarations (i : EntryIndex) (l : Language) : List Text :=
  (i.all.filter (·.language = l)).map EntryPoint.declaration

def callEdits (i : EntryIndex) : List Edit := [⟨.functionCalls, i.calls⟩]

def declarationEdits (i : EntryIndex) : List Edit :=
  [⟨.cDeclarations, i.declarations .c⟩, ⟨.cppDeclarations, i.declarations .cpp⟩]

end EntryIndex
end SuiteMake
