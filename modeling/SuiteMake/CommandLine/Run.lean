import SuiteMake.CommandLine.Help
import SuiteMake.Draft
import SuiteMake.Listing

/-!
# Running a command line

What the program prints and answers, and what it does to the files, as a function of its
arguments and the file tree.
-/

namespace SuiteMake

/-- What the program has to say besides its output. -/
inductive Report
  | nothing
  | wrongDirectory (root : Path)
  | failed (failure : Failure)
  | note (text : Text)
  | usage (fault : UsageError)

structure Outcome where
  exitCode : Nat := 0
  stdout : Text := []
  report : Report := .nothing

namespace Outcome

def printed (text : Text) : Outcome := { stdout := text }

/-- A run that failed. A missing root means that the program was started in the wrong place. -/
def ofFailure (failure : Failure) : Outcome :=
  match failure with
  | .rootNotFound root => { exitCode := 1, report := .wrongDirectory root }
  | _ => { exitCode := 1, report := .failed failure }

def ofExcept {α : Type} (present : α → Outcome) : Except Failure α → Outcome
  | .ok a => present a
  | .error failure => ofFailure failure

def ofHalt : Halt → Outcome
  | .help topic => printed topic.render
  | .version => printed versionLine
  | .usage fault => { exitCode := 2, report := .usage fault }

end Outcome

namespace Report

/-- A character of a log line. Those that act on a terminal are given by code: bell, backspace,
form feed, escape, delete, and the control characters above ASCII. -/
def loggedChar (c : Char) : Text :=
  let code := [Nat.digitChar (c.toNat / 16), Nat.digitChar (c.toNat % 16)]
  if c ∈ ['\x07', '\x08', '\x0c', '\x1b', '\x7f'] then '\\' :: 'x' :: code
  else if 0x80 ≤ c.toNat ∧ c.toNat ≤ 0x9F then '\\' :: 'u' :: '\x7b' :: code ++ ['\x7d']
  else [c]

def wrongDirectoryLine (root : Path) : Text :=
  "Wrong working directory; could not find ".toList ++ root.spelling.flatMap loggedChar ++
    " directory\n".toList

/-- What the program writes besides its output. Of a failure these are the texts it carries, one to
a line: their layout on a terminal is left open, and so is what is said of a fault in the command
line. -/
def render : Report → Text
  | .nothing => []
  | .wrongDirectory root => wrongDirectoryLine root
  | .failed f => (f.code :: f.message :: f.help?.toList).flatMap (· ++ ['\n'])
  | .note text => text
  | .usage _ => []

end Report

namespace Command

def generated (output : Path) (s : Summary) : Text :=
  "✓ Generated ".toList ++ output.spelling ++ " for ".toList ++ Text.ofNat s.files ++
    " test case file(s) in ".toList ++ Text.ofNat s.directories ++ " director".toList ++
    (if s.directories = 1 then "y".toList else "ies".toList) ++ "\n  ".toList ++
    Text.ofNat s.entryPoints ++ " entry point(s) declared, ".toList ++
    Text.ofNat s.portableEntryPoints ++ " called from main\n".toList

def checked (stale : List Path) : Outcome :=
  if stale = [] then .printed "✓ Generated files are up to date\n".toList
  else {
    exitCode := 1
    stdout := stale.flatMap fun p => "Would regenerate: ".toList ++ p.spelling ++ ['\n']
    report := .note ('\n' :: Text.ofNat stale.length ++ " file(s) out of date\n".toList) }

def listing (c : Config) (t : FileTree) : Except Failure Listing := do
  let files ← Discovery.sourceFiles c t
  let entries ← EntryIndex.ofFiles c t files
  return Listing.ofIndex c files entries

def run (command : Command) (c : Config) (t : FileTree) : Outcome × FileTree :=
  match command with
  | .generate false =>
    let (answer, t) := SuiteMake.generate c t
    (Outcome.ofExcept (fun s => .printed (generated c.outputPath s)) answer, t)
  | .generate true => (Outcome.ofExcept checked (outdated c t), t)
  | .recipe =>
    (Outcome.ofExcept (fun files => .printed (Draft.recipeFor c files))
      (Discovery.sourceFiles c t), t)
  | .list false => (Outcome.ofExcept (fun l => .printed l.render) (listing c t), t)
  | .list true =>
    (Outcome.ofExcept (fun l => .printed (l.toJson.render ++ ['\n'])) (listing c t), t)

end Command

namespace Invocation

/-- Carries out an invocation; without a subcommand it generates. -/
def run (i : Invocation) (t : FileTree) : Outcome × FileTree :=
  match i.settings.config with
  | .ok c => (i.command.getD (.generate false)).run c t
  | .error failure => (.ofFailure failure, t)

end Invocation

def runArguments (args : List Text) (t : FileTree) : Outcome × FileTree :=
  match Invocation.ofArguments args with
  | .ok i => i.run t
  | .error halt => (.ofHalt halt, t)

end SuiteMake
