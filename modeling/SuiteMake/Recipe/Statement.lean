import SuiteMake.Text.Basic

/-!
# Statements of a recipe

A recipe is a list of statements; its text is the concatenation of their lines.
-/

namespace SuiteMake.Recipe

inductive Statement
  | line (text : Text)
  | blank
  | comment (text : Text)
  | assign (name value : Text)
  | assignList (name : Text) (items : List Text)
  | rule (targets prerequisites : Text) (commands : List Text)

namespace Statement

def spaced (items : List Text) : Text := List.intercalate [' '] items

def renderAssign (name value : Text) : Text := name ++ '=' :: value ++ ['\n']

/-- The lines of a statement. An assignment of several items has one item a line, every line
but the last being continued by a backslash. -/
def render : Statement → Text
  | .line text => text ++ ['\n']
  | .blank => ['\n']
  | .comment text => '#' :: ' ' :: text ++ ['\n']
  | .assign name value => renderAssign name value
  | .assignList name items => renderAssign name (List.intercalate " \\\n".toList items)
  | .rule targets prerequisites commands =>
    targets ++ " : ".toList ++ prerequisites ++ ['\n'] ++
      commands.flatMap fun command => '\t' :: command ++ ['\n']

end Statement

def render (statements : List Statement) : Text := statements.flatMap Statement.render

end SuiteMake.Recipe
