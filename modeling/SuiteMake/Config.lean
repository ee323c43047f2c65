import SuiteMake.SourceFile
import SuiteMake.Variants

/-!
# Configuration

Where the suite lies, how its files are called, and with what it is built.
-/

namespace SuiteMake

/-- Commands, flags and support sources the recipe names. -/
structure Tools where
  cc : Text := "gcc".toList
  cpp : Text := "g++".toList
  debug : Text := "-g".toList
  cflags : Text := "-c".toList
  lflags : Text := "-lpthread".toList
  target : Text := "all-testcases".toList
  cSupportSources : List Text := ["io.c".toList, "std_thread.c".toList]

/-- Everything a generation depends on besides the files. -/
structure Config where
  baseDir : Path := ⟨".".toList⟩
  root : Path := ⟨"testcases".toList⟩
  supportDir : Path := ⟨"testcasesupport".toList⟩
  output : Path := ⟨"Makefile_all".toList⟩
  casePrefix : Text := "CWE".toList
  mainFile : Text := "main_linux.cpp".toList
  headerFile : Text := "testcases.h".toList
  variants : Variants := .standard
  tools : Tools := {}

namespace Config

/-- The directory below which case files are looked for. -/
def rootPath (c : Config) : Path := c.baseDir.join c.root

/-- The file that calls the portable entry points. -/
def mainPath (c : Config) : Path := (c.baseDir.join c.supportDir).join ⟨c.mainFile⟩

/-- The file that declares all entry points. -/
def headerPath (c : Config) : Path := (c.baseDir.join c.supportDir).join ⟨c.headerFile⟩

def outputPath (c : Config) : Path := c.baseDir.join c.output

def supportDirText (c : Config) : Text := c.supportDir.canonical

def isPortable (c : Config) (f : SourceFile) : Bool :=
  c.variants.isPortable c.casePrefix f.name

end Config
end SuiteMake
