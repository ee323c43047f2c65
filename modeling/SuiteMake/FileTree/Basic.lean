import SuiteMake.Path.Basic

/-!
# File trees

A file tree maps locations, the lists of names that lead to them from the root, to files,
directories and links, and has a working directory from which relative paths start.
-/

namespace SuiteMake

/-- Where something stands in a tree: the names that lead to it from the root. -/
abbrev Location := List Name

inductive Node
  | file (content : Bytes)
  | directory
  | link (target : Path)
deriving DecidableEq

/-- A file tree and the directory it is seen from. -/
structure FileTree where
  nodes : List (Location × Node)
  cwd : Location

namespace FileTree

/-- What stands at a location. The root is always a directory. -/
def get? (t : FileTree) (l : Location) : Option Node :=
  if l = [] then some .directory else t.nodes.lookup l

/-- Puts a node into a list of located nodes, in place of what stands there or at the end. -/
def putNode (l : Location) (n : Node) : List (Location × Node) → List (Location × Node)
  | [] => [(l, n)]
  | (k, m) :: rest => if k = l then (l, n) :: rest else (k, m) :: putNode l n rest

def put (t : FileTree) (l : Location) (n : Node) : FileTree :=
  { t with nodes := putNode l n t.nodes }

def erase (t : FileTree) (l : Location) : FileTree :=
  { t with nodes := t.nodes.filter fun (k, _) => !l.isPrefixOf k }

/-- The tree that holds nothing but its working directory. -/
def fresh (cwd : Location) : FileTree where
  nodes := (List.range cwd.length).map fun i => (cwd.take (i + 1), .directory)
  cwd := cwd

/-- What a directory may hold as a name: not empty, no slash or null character, not too long,
and not a way to spell a step. -/
def isEntryName (n : Name) : Bool :=
  n ≠ .text [] && n ≠ .text ['.'] && n ≠ .text ['.', '.'] && !n.bytes.contains 0x2F &&
    !n.hasNull && !n.isTooLong

/-- Each location is taken once, by an entry of a directory, and the working directory is one. -/
structure WellFormed (t : FileTree) : Prop where
  distinct : (t.nodes.map Prod.fst).Nodup
  entry : ∀ node ∈ t.nodes, ∃ above name, node.1 = above ++ [name] ∧ isEntryName name ∧
    t.get? above = some .directory
  cwd_directory : t.get? t.cwd = some .directory

theorem lookup_putNode (l k : Location) (n : Node) (nodes : List (Location × Node)) :
    (putNode l n nodes).lookup k = if k = l then some n else nodes.lookup k := by
  have hbeq (i j : Location) (h : i ≠ j) : (i == j) = false := by simpa using h
  induction nodes with
  | nil => by_cases h : k = l <;> simp [putNode, List.lookup_cons, h, hbeq]
  | cons e nodes ih =>
    obtain ⟨j, m⟩ := e
    by_cases hj : j = l
    · subst hj
      by_cases h : k = j <;> simp [putNode, List.lookup_cons, h, hbeq]
    · by_cases h : k = l
      · subst h
        simp [putNode, hj, List.lookup_cons, hbeq _ _ (Ne.symm hj), ih]
      · simp [putNode, hj, List.lookup_cons, ih, h]

theorem get?_put_self (t : FileTree) (l : Location) (n : Node) (h : l ≠ []) :
    (t.put l n).get? l = some n := by
  simp [get?, put, h, lookup_putNode]

theorem get?_put_of_ne (t : FileTree) {l k : Location} (n : Node) (h : k ≠ l) :
    (t.put l n).get? k = t.get? k := by
  simp [get?, put, h, lookup_putNode]

end FileTree
end SuiteMake
