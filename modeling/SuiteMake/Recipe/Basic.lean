import SuiteMake.Ascending
import SuiteMake.Recipe.Glob
import SuiteMake.Recipe.Statement

/-!
# Recipes

The single recipe that builds every portable case of a suite.
-/

namespace SuiteMake.Recipe

open Statement

def distinctDirectories (dirs : List Text) : List Text := ascending id dirs

/-- The object file a source file is compiled to: its name without directories, with the
extension replaced. -/
def objectFileOf (source : Text) : Text :=
  Text.beforeLast '.' (Text.afterLast '/' source) ++ ".o".toList

/-- The tools, the support directory and the main file. -/
def preamble (c : Config) : List Statement :=
  let tools := c.tools
  [.assign "CC".toList tools.cc,
   .assign "CPP".toList tools.cpp,
   .assign "DEBUG".toList tools.debug,
   .assign "CFLAGS".toList tools.cflags,
   .assign "LFLAGS".toList tools.lflags,
   .blank,
   .assign "INCLUDES".toList ("-I ".toList ++ c.supportDirText),
   .blank,
   .assign "SUPPORT_PATH".toList (c.supportDirText ++ ['/']),
   .blank,
   .assign "MAIN".toList (dollar "SUPPORT_PATH".toList ++ c.mainFile),
   .assign "MAIN_OBJECT".toList (objectFileOf c.mainFile),
   .blank,
   .assign "C_SUPPORT_FILES".toList
     (spaced (tools.cSupportSources.map fun s => dollar "SUPPORT_PATH".toList ++ s)),
   .assign "C_SUPPORT_OBJECTS".toList (spaced (tools.cSupportSources.map objectFileOf))]

/-- The source and object files of a language. -/
def sources (c : Config) (dirs : List Text) (l : Language) : List Statement :=
  [.blank,
   .comment (selectionRemark c l.extension),
   .assignList l.sourcesVariable (selections c l dirs),
   .assign l.objectsVariable
     (dollar (l.sourcesVariable ++ ":.".toList ++ l.extension ++ "=.o".toList))]

def linking (c : Config) : List Statement :=
  let objects := "MAIN_OBJECT".toList :: Language.all.map Language.objectsVariable ++
    ["C_SUPPORT_OBJECTS".toList]
  [.blank,
   .assign "OBJECTS".toList (spaced (objects.map dollar)),
   .assign "TARGET".toList c.tools.target,
   .blank,
   .line "all: $(TARGET)".toList,
   .blank,
   .rule "$(TARGET)".toList "$(OBJECTS)".toList
     ["$(CPP) $(LFLAGS) $(OBJECTS) -o $(TARGET)".toList]]

def compiling (l : Language) : List Statement :=
  [.blank,
   .rule (dollar l.objectsVariable) (dollar l.sourcesVariable)
     ["$(CC) $(CFLAGS) $(INCLUDES) $(@:.o=.".toList ++ l.extension ++ ") -o $@".toList]]

def compilingSupport : List Statement :=
  [.blank,
   .rule "$(C_SUPPORT_OBJECTS)".toList "$(C_SUPPORT_FILES)".toList
     ["$(CC) $(CFLAGS) $(INCLUDES) $(SUPPORT_PATH)$(@:.o=.c) -o $@".toList],
   .blank,
   .rule "$(MAIN_OBJECT)".toList "$(MAIN)".toList
     ["$(CC) $(CFLAGS) $(INCLUDES) $(MAIN) -o $@".toList]]

def cleanCommand (dirs : List Text) : Text :=
  "rm -rf *.o $(TARGET)".toList ++ dirs.flatMap fun d => ' ' :: d ++ "/*.o".toList

def cleaning (dirs : List Text) : List Statement :=
  [.blank, .line "clean:".toList, .line ('\t' :: cleanCommand dirs)]

def statements (c : Config) (dirs : List Text) : List Statement :=
  preamble c ++ Language.all.flatMap (sources c dirs) ++ linking c ++
    Language.all.flatMap compiling ++ compilingSupport ++ cleaning dirs

def recipe (c : Config) (dirs : List Text) : Text := render (statements c dirs)

end SuiteMake.Recipe
