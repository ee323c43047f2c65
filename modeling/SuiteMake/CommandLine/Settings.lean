import SuiteMake.Config

/-!
# Settings of the command line

The options that take a value, the values given for them, and the configuration they make.
-/

namespace SuiteMake

inductive Setting
  | root
  | supportDir
  | output
  | exclude
  | casePrefix
deriving DecidableEq

namespace Setting

def all : List Setting := [.root, .supportDir, .output, .exclude, .casePrefix]

def name : Setting → Text
  | .root => "root".toList
  | .supportDir => "support-dir".toList
  | .output => "output".toList
  | .exclude => "exclude".toList
  | .casePrefix => "prefix".toList

/-- Whether the value is a path, which must not be empty. -/
def isPath : Setting → Bool
  | .root | .supportDir | .output => true
  | .exclude | .casePrefix => false

end Setting

/-- The values given on a command line. Only markers may be given more than once. -/
structure Settings where
  root : Option Path := none
  supportDir : Option Path := none
  output : Option Path := none
  exclude : List Text := []
  casePrefix : Option Text := none
deriving DecidableEq

namespace Settings

/-- Whether a value that must not be given again has been given. -/
def isTaken (s : Settings) : Setting → Bool
  | .root => s.root.isSome
  | .supportDir => s.supportDir.isSome
  | .output => s.output.isSome
  | .exclude => false
  | .casePrefix => s.casePrefix.isSome

def add (s : Settings) (which : Setting) (value : Text) : Settings :=
  match which with
  | .root => { s with root := some ⟨value⟩ }
  | .supportDir => { s with supportDir := some ⟨value⟩ }
  | .output => { s with output := some ⟨value⟩ }
  | .exclude => { s with exclude := s.exclude ++ [value] }
  | .casePrefix => { s with casePrefix := some value }

/-- The values of `later`, and those of `earlier` where it gives none. -/
def override (earlier later : Settings) : Settings where
  root := later.root <|> earlier.root
  supportDir := later.supportDir <|> earlier.supportDir
  output := later.output <|> earlier.output
  exclude := if later.exclude = [] then earlier.exclude else later.exclude
  casePrefix := later.casePrefix <|> earlier.casePrefix

def variants (s : Settings) : Except Failure Variants :=
  if s.exclude = [] then .ok .standard else Variants.ofMarkers s.exclude

/-- The configuration the settings ask for; what they leave open takes its default. -/
def config (s : Settings) : Except Failure Config := do
  let standard : Config := {}
  let variants ← s.variants
  return { standard with
    root := s.root.getD standard.root
    supportDir := s.supportDir.getD standard.supportDir
    output := s.output.getD standard.output
    casePrefix := s.casePrefix.getD standard.casePrefix
    variants := variants }

end Settings
end SuiteMake
