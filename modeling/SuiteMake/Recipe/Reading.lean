import SuiteMake.Text.Basic
import SuiteMake.Text.Space

/-!
# Reading recipes

What a recipe says about source files, read off its text: the expressions assigned to a
variable, the globs of an expression, and the paths an expression selects. A star in a glob
stands for any characters but slashes.
-/

namespace SuiteMake.Recipe

/-- What is left of a text after any of its leading runs without a slash. -/
def afterRuns : Text → List Text
  | [] => [[]]
  | c :: t => (c :: t) :: if c = '/' then [] else afterRuns t

def matchesGlob : Text → Text → Bool
  | [], path => path.isEmpty
  | p :: glob, path =>
    if p = '*' then (afterRuns path).any (matchesGlob glob)
    else
      match path with
      | [] => false
      | c :: path => p = c && matchesGlob glob path

def wildcardOpening : Text := "$(wildcard ".toList

private theorem length_isPrefixOf? {pat t rest : Text} (h : pat.isPrefixOf? t = some rest) :
    rest.length + pat.length = t.length := by
  induction pat generalizing t with
  | nil =>
      cases h
      rfl
  | cons c pat ih =>
      cases t with
      | nil => cases h
      | cons d t =>
          have hcons : (c :: pat).isPrefixOf? (d :: t) =
              if c == d then pat.isPrefixOf? t else none := rfl
          rw [hcons] at h
          split at h
          · rw [List.length_cons, List.length_cons, ← ih h]
            rfl
          · cases h

private theorem length_after_cut? {pat t before after : Text}
    (h : Text.cut? pat t = some (before, after)) : after.length + pat.length ≤ t.length := by
  induction t generalizing before with
  | nil =>
      rw [Text.cut?] at h
      split at h
      · rename_i hpat
        cases h
        rw [hpat]
        exact Nat.le_refl 0
      · cases h
  | cons c t ih =>
      rw [Text.cut?] at h
      split at h
      · rename_i hstart
        cases h
        exact Nat.le_of_eq (length_isPrefixOf? hstart)
      · obtain ⟨⟨b, a⟩, hb, he⟩ := Option.map_eq_some_iff.mp h
        cases he
        exact Nat.le_succ_of_le (ih hb)

private theorem length_after_glob {pat t before rest glob rest' : Text}
    (hopen : Text.cut? pat t = some (before, rest))
    (hclose : Text.cut? [')'] rest = some (glob, rest')) : rest'.length < t.length := by
  have hopened := length_after_cut? hopen
  have hclosed := length_after_cut? hclose
  rw [List.length_singleton] at hclosed
  omega

/-- The globs an expression expands, from left to right. A glob ends at the first closing
parenthesis. -/
def wildcards (expr : Text) : List Text :=
  match hopen : Text.cut? wildcardOpening expr with
  | none => []
  | some (_, rest) =>
    match hclose : Text.cut? [')'] rest with
    | none => []
    | some (glob, rest') =>
      have := length_after_glob hopen hclose
      glob :: wildcards rest'
termination_by expr.length

/-- The paths an expression selects: those its last glob matches and no earlier one. -/
def select (expr : Text) (paths : List Text) : List Text :=
  let globs := wildcards expr
  match globs.getLast? with
  | none => []
  | some every =>
    paths.filter fun p => matchesGlob every p && !globs.dropLast.any (matchesGlob · p)

def trim (t : Text) : Text :=
  ((t.dropWhile Text.isSpace).reverse.dropWhile Text.isSpace).reverse

/-- The expressions on a line and on the lines that continue it, empty ones left out. -/
def continuedItems : List Text → List Text
  | [] => []
  | line :: lines =>
    let expr := trim (line.reverse.dropWhile (· == '\\')).reverse
    (if expr = [] then [] else [expr]) ++
      if line.getLast? = some '\\' then continuedItems lines else []

/-- The expressions the first assignment of a variable gives it, in these lines. -/
def assignedIn (name : Text) : List Text → List Text
  | [] => []
  | line :: lines =>
    match (name ++ ['=']).isPrefixOf? line with
    | some first => continuedItems (first :: lines)
    | none => assignedIn name lines

def assignedTo (name recipe : Text) : List Text := assignedIn name (Text.lines recipe)

end SuiteMake.Recipe
