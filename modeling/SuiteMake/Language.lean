import SuiteMake.Text.Basic

/-!
# Languages

The two languages a test case may be written in, with the file extension that tells them apart
and the names they have in listings and in the recipe.
-/

namespace SuiteMake

inductive Language
  | c
  | cpp
deriving DecidableEq, Repr

namespace Language

/-- All languages, in the order in which the recipe treats them. -/
def all : List Language := [.c, .cpp]

def extension : Language → Text
  | .c => "c".toList
  | .cpp => "cpp".toList

def display : Language → Text
  | .c => "C".toList
  | .cpp => "C++".toList

def sourcesVariable : Language → Text
  | .c => "C_SOURCES".toList
  | .cpp => "CPP_SOURCES".toList

def objectsVariable : Language → Text
  | .c => "C_OBJECTS".toList
  | .cpp => "CPP_OBJECTS".toList

/-- The language with an extension; extensions are case-sensitive. -/
def ofExtension? (ext : Text) : Option Language := all.find? fun l => l.extension = ext

end Language
end SuiteMake
