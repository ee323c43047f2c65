import SuiteMake.Config

/-!
# Source globs

The recipe names no case file. For each directory it holds an expression that selects the
case files of a language and leaves out those whose names hold a variant marker.
-/

namespace SuiteMake.Recipe

/-- A reference to the value of a recipe variable, or a call of a recipe function. -/
def dollar (inner : Text) : Text := '$' :: '(' :: inner ++ [')']

def wildcard (pattern : Text) : Text := dollar ("wildcard ".toList ++ pattern)

/-- The glob of all case files of a directory with an extension. -/
def casePattern (c : Config) (dir ext : Text) : Text :=
  dir ++ '/' :: c.casePrefix ++ "*.".toList ++ ext

/-- The glob of the case files of a directory whose names hold a marker. -/
def variantPattern (c : Config) (dir ext marker : Text) : Text :=
  dir ++ '/' :: c.casePrefix ++ '*' :: marker ++ "*.".toList ++ ext

/-- The expression that selects the portable case files of a directory with an extension. -/
def selection (c : Config) (ext dir : Text) : Text :=
  let every := wildcard (casePattern c dir ext)
  match c.variants.markers with
  | [] => every
  | markers =>
    let variants := markers.map fun m => wildcard (variantPattern c dir ext m)
    dollar ("filter-out ".toList ++ List.intercalate [' '] variants ++ ',' :: every)

def selections (c : Config) (l : Language) (dirs : List Text) : List Text :=
  dirs.map (selection c l.extension)

def selectionRemark (c : Config) (ext : Text) : Text :=
  match c.variants.markers with
  | [] => "grab all the .".toList ++ ext ++ " files".toList
  | markers =>
    let words := List.intercalate " or ".toList (markers.map fun m => '"' :: m ++ ['"'])
    "only grab the .".toList ++ ext ++ " files without ".toList ++ words ++ " in the name".toList

end SuiteMake.Recipe
