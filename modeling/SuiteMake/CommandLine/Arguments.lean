import SuiteMake.CommandLine.Settings

/-!
# Arguments of the command line

A command line has a level before the subcommand and one after it. Both take the same options
with values; a value of the second level replaces that of the first. Arguments are read from
left to right up to the first fault.

A value that stands in an argument of its own is taken in with the next option of its level,
or at the end of the level. So a fault in an argument before that is the one reported, also if
the value is missing, empty or given twice.
-/

namespace SuiteMake

inductive Subcommand
  | generate
  | recipe
  | list
deriving DecidableEq

namespace Subcommand

def all : List Subcommand := [.generate, .recipe, .list]

def word : Subcommand → Text
  | .generate => "generate".toList
  | .recipe => "recipe".toList
  | .list => "list".toList

def ofWord? (w : Text) : Option Subcommand := all.find? fun s => s.word = w

def flag? : Subcommand → Option Text
  | .generate => some "check".toList
  | .recipe => none
  | .list => some "json".toList

end Subcommand

inductive Command
  | generate (check : Bool)
  | recipe
  | list (json : Bool)
deriving DecidableEq

def Command.ofSubcommand (s : Subcommand) (flag : Bool) : Command :=
  match s with
  | .generate => .generate flag
  | .recipe => .recipe
  | .list => .list flag

structure Invocation where
  command : Option Command
  settings : Settings
deriving DecidableEq

inductive UsageError
  | unknownArgument
  | invalidValue
  | argumentConflict
  | tooManyValues
  | invalidSubcommand
deriving DecidableEq

inductive HelpTopic
  | program
  | subcommand (s : Subcommand)
  | help
deriving DecidableEq

/-- Why reading a command line stops early. -/
inductive Halt
  | help (topic : HelpTopic)
  | version
  | usage (fault : UsageError)
deriving DecidableEq

/-- An argument by its shape. -/
inductive Argument
  | value (text : Text)
  | separator
  | long (name : Text) (attached : Option Text)
  | short (letter : Char) (rest : Text)
deriving DecidableEq

inductive Switch
  | setting (s : Setting)
  | flag
  | help
  | version
deriving DecidableEq

namespace Argument

/-- The shape of an argument. A dash alone is a value. -/
def ofText (t : Text) : Argument :=
  match t with
  | '-' :: '-' :: rest =>
    if rest = [] then .separator
    else
      match Text.cut? ['='] rest with
      | some (name, attached) => .long name (some attached)
      | none => .long rest none
  | '-' :: letter :: rest => .short letter rest
  | _ => .value t

end Argument

namespace Switch

/-- The option with a long name, before a subcommand or after the given one. -/
def ofName? (level : Option Subcommand) (name : Text) : Option Switch :=
  match Setting.all.find? fun s => s.name = name with
  | some s => some (.setting s)
  | none =>
    if name = "help".toList then some .help
    else if level = none ∧ name = "version".toList then some .version
    else if level.bind Subcommand.flag? = some name then some .flag
    else none

def ofLetter? (level : Option Subcommand) (letter : Char) : Option Switch :=
  if letter = 'o' then some (.setting .output)
  else if letter = 'h' then some .help
  else if level = none ∧ letter = 'V' then some .version
  else none

end Switch

/-- What has been read of a level: the values taken in, its flag, and an option whose value is
yet to come or to be taken in. -/
structure Level where
  settings : Settings := {}
  flag : Bool := false
  pending : Option (Setting × Option Text) := none

namespace Level

def give (l : Level) (s : Setting) (value : Text) : Except Halt Level :=
  if l.settings.isTaken s then .error (.usage .argumentConflict)
  else if s.isPath ∧ value = [] then .error (.usage .invalidValue)
  else .ok { l with settings := l.settings.add s value }

def settle (l : Level) : Except Halt Level :=
  match l.pending with
  | none => .ok l
  | some (_, none) => .error (.usage .invalidValue)
  | some (s, some value) => { l with pending := none }.give s value

/-- Takes in an option with the value attached to it, if any. -/
def switch (l : Level) (level : Option Subcommand) (s : Switch) (attached : Option Text) :
    Except Halt Level :=
  match s, attached with
  | .setting s, some value => do (← l.settle).give s value
  | .setting s, none => do return { ← l.settle with pending := some (s, none) }
  | _, some _ => .error (.usage .tooManyValues)
  | .flag, none => do
    let l ← l.settle
    if l.flag then .error (.usage .argumentConflict) else return { l with flag := true }
  | .help, none => do
    let _ ← l.settle
    .error (.help (level.elim .program .subcommand))
  | .version, none => do
    let _ ← l.settle
    .error .version

def long (l : Level) (level : Option Subcommand) (name : Text) (attached : Option Text) :
    Except Halt Level :=
  match Switch.ofName? level name with
  | some s => l.switch level s attached
  | none => .error (.usage .unknownArgument)

/-- Reads an option with a one-letter name. What follows the letter is the value of an option
that takes one, with or without an equals sign; otherwise the first letter acts alone. -/
def short (l : Level) (level : Option Subcommand) (letter : Char) (rest : Text) :
    Except Halt Level :=
  match Switch.ofLetter? level letter with
  | some (.setting s) =>
    let value := (['='].isPrefixOf? rest).getD rest
    l.switch level (.setting s) (if rest = [] then none else some value)
  | some s => l.switch level s none
  | none => .error (.usage .unknownArgument)

end Level

namespace Invocation

def readInner (s : Subcommand) (l : Level) : List Text → Except Halt Level
  | [] => l.settle
  | a :: rest =>
    match Argument.ofText a with
    | .value v =>
      match l.pending with
      | some (awaiting, none) => readInner s { l with pending := some (awaiting, some v) } rest
      | _ => .error (.usage .unknownArgument)
    | .separator => if rest = [] then l.settle else .error (.usage .unknownArgument)
    | .long name attached => do
      let l ← l.long (some s) name attached
      readInner s l rest
    | .short letter cluster => do
      let l ← l.short (some s) letter cluster
      readInner s l rest

/-- What the word `help` and the words after it ask for. -/
def helpOn : List Text → Halt
  | [] => .help .program
  | [w] =>
    match Subcommand.ofWord? w with
    | some s => .help (.subcommand s)
    | none => if w = "help".toList then .help .help else .usage .invalidSubcommand
  | _ => .usage .invalidSubcommand

/-- The fault in an argument that follows a separator before any subcommand. There it is no
longer read as an option, so it is a subcommand out of place or the name of none. -/
def afterSeparator (w : Text) : UsageError :=
  if (Subcommand.ofWord? w).isSome ∨ w = "help".toList then .unknownArgument
  else .invalidSubcommand

def readOuter (l : Level) : List Text → Except Halt Invocation
  | [] => do
    let l ← l.settle
    return ⟨none, l.settings⟩
  | a :: rest =>
    match Argument.ofText a with
    | .value v =>
      match l.pending with
      | some (awaiting, none) => readOuter { l with pending := some (awaiting, some v) } rest
      | _ =>
        match Subcommand.ofWord? v with
        | some s => do
          let inner ← readInner s {} rest
          let l ← l.settle
          return ⟨some (.ofSubcommand s inner.flag), l.settings.override inner.settings⟩
        | none =>
          if v = "help".toList then .error (helpOn rest)
          else .error (.usage .invalidSubcommand)
    | .separator =>
      match rest with
      | [] => do
        let l ← l.settle
        return ⟨none, l.settings⟩
      | w :: _ => .error (.usage (afterSeparator w))
    | .long name attached => do
      let l ← l.long none name attached
      readOuter l rest
    | .short letter cluster => do
      let l ← l.short none letter cluster
      readOuter l rest

def ofArguments (args : List Text) : Except Halt Invocation := readOuter {} args

end Invocation
end SuiteMake
