import SuiteMake.Text.Basic

/-!
# JSON documents

The documents the listing is made of, and their indented form: two blanks a level, one field
or item a line, an empty list or object on one line.
-/

namespace SuiteMake

/-- A JSON document without numbers and nulls. -/
inductive Json
  | bool (value : Bool)
  | string (value : Text)
  | list (items : List Json)
  | object (fields : List (Text × Json))

namespace Json

/-- A character inside quotes. Control characters without a short form are given by code. -/
def escapeChar (c : Char) : Text :=
  if c = '"' then ['\\', '"']
  else if c = '\\' then ['\\', '\\']
  else if c = '\x08' then ['\\', 'b']
  else if c = '\x0c' then ['\\', 'f']
  else if c = '\n' then ['\\', 'n']
  else if c = '\r' then ['\\', 'r']
  else if c = '\t' then ['\\', 't']
  else if c.toNat < 0x20 then
    ['\\', 'u', '0', '0', Nat.digitChar (c.toNat / 16), Nat.digitChar (c.toNat % 16)]
  else [c]

def quote (t : Text) : Text := '"' :: t.flatMap escapeChar ++ ['"']

def newline (depth : Nat) : Text := '\n' :: List.replicate (2 * depth) ' '

/-- Parts between two brackets, one a line; none of them leaves the brackets side by side. -/
def enclose (openChar closeChar : Char) (depth : Nat) (parts : List Text) : Text :=
  if parts = [] then [openChar, closeChar]
  else openChar :: newline (depth + 1) ++ List.intercalate (',' :: newline (depth + 1)) parts ++
    newline depth ++ [closeChar]

mutual

/-- The indented form of a document that starts at a depth. -/
def renderAt (depth : Nat) : Json → Text
  | .bool true => "true".toList
  | .bool false => "false".toList
  | .string t => quote t
  | .list items => enclose '[' ']' depth (renderItems (depth + 1) items)
  | .object fields => enclose '\x7b' '\x7d' depth (renderFields (depth + 1) fields)

def renderItems (depth : Nat) : List Json → List Text
  | [] => []
  | item :: items => renderAt depth item :: renderItems depth items

def renderFields (depth : Nat) : List (Text × Json) → List Text
  | [] => []
  | (key, value) :: fields =>
    (quote key ++ [':', ' '] ++ renderAt depth value) :: renderFields depth fields

end

def render (j : Json) : Text := renderAt 0 j

end Json
end SuiteMake
