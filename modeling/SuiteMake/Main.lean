import SuiteMake.CommandLine.Run

/-!
# The program

Reads the part of the disk a command line speaks of into a file tree, carries the command line
out on that tree, and writes the files it changed back to the disk.
-/

namespace SuiteMake.Disk

def spell (l : Location) : String :=
  "/" ++ String.intercalate "/" (l.map fun n => String.ofList n.display)

/-- The location of an absolute path that leads through no link. -/
def locationOf (path : String) : Location :=
  (path.toList.splitOn '/').filterMap fun s => if s = [] then none else some (.text s)

/-- What a location of the disk leads to once all links are followed, if to anything. -/
def target? (l : Location) : IO (Option Location) := do
  try return some (locationOf (← IO.FS.realPath (spell l)).toString) catch _ => return none

/-- Adds what stands at a location of the disk, in a directory that leads through no link. -/
def loadNode (t : FileTree) (l : Location) : IO FileTree := do
  match ← target? l with
  | none => return t
  | some k =>
    if k ≠ l then return t.put l (.link ⟨(spell k).toList⟩)
    let path ← IO.FS.realPath (spell l)
    if ← path.isDir then return t.put l .directory
    return t.put l (.file (← IO.FS.readBinFile path).toList)

/-- Adds what stands at a location that leads through no link, and what stands above it. -/
def load (t : FileTree) (l : Location) : IO FileTree :=
  (List.range l.length).foldlM (fun t i => loadNode t (l.take (i + 1))) t

/-- Adds what stands along a route, from a location that leads through no link. Gives the
location where the route ends, or gets lost. -/
def loadRoute (t : FileTree) (l : Location) : List Step → IO (FileTree × Location)
  | [] => return (t, l)
  | .up :: rest => loadRoute t l.dropLast rest
  | .here :: rest | .slash :: rest => loadRoute t l rest
  | .down n :: rest => do
    let t ← loadNode t (l ++ [n])
    match ← target? (l ++ [n]) with
    | none => return (t, l)
    | some k => loadRoute (← load t k) k rest

/-- Adds everything below a directory of the disk, and the files that links in it lead to. -/
partial def loadBelow (t : FileTree) (l : Location) : IO FileTree := do
  let mut t := t
  for entry in ← (← IO.FS.realPath (spell l)).readDir do
    let below := l ++ [.text entry.fileName.toList]
    t ← loadNode t below
    if t.get? below = some .directory then t ← loadBelow t below
    else if let some k ← target? below then t ← load t k
  return t

/-- The part of the disk a configuration speaks of. -/
def snapshot (c : Config) : IO FileTree := do
  let cwd := locationOf (← IO.FS.realPath (← IO.currentDir).toString).toString
  let mut t ← load (FileTree.fresh cwd) cwd
  for p in [c.mainPath, c.headerPath, c.outputPath] do
    let route := Route.ofPath p
    t := (← loadRoute t (t.origin route) route.steps).1
  let route := Route.ofPath c.rootPath
  let (loaded, root) ← loadRoute t (t.origin route) route.steps
  if loaded.isDirectory c.rootPath then loadBelow loaded root else return loaded

def save (before after : FileTree) : IO Unit := do
  for (l, node) in after.nodes do
    if let .file content := node then
      if before.get? l ≠ some node then
        IO.FS.writeBinFile (spell l) ⟨content.toArray⟩

def config? (args : List Text) : Option Config := do
  let i ← (Invocation.ofArguments args).toOption
  i.settings.config.toOption

end SuiteMake.Disk

open SuiteMake in
def main (args : List String) : IO UInt32 := do
  let args := args.map String.toList
  let before ← match Disk.config? args with
    | some c => Disk.snapshot c
    | none => pure (FileTree.fresh [])
  let (outcome, after) := runArguments args before
  Disk.save before after
  IO.print (String.ofList outcome.stdout)
  IO.eprint (String.ofList outcome.report.render)
  return UInt32.ofNat outcome.exitCode
