import SuiteMake.CommandLine.Arguments

/-!
# Command lines by what they say

A command line mentions options with their values, each in one of several forms, before and after
a subcommand, and the flag of the subcommand. Settings are compared by the values they hold for
each option.
-/

namespace SuiteMake

theorem Path.spelling_inj {p q : Path} : p.spelling = q.spelling ↔ p = q := by
  cases p
  cases q
  simp

namespace Settings

variable {s s' : Settings} {x : Setting}

/-- The values held for an option, in the order in which they were given. -/
def values (s : Settings) : Setting → List Text
  | .root => (s.root.map Path.spelling).toList
  | .supportDir => (s.supportDir.map Path.spelling).toList
  | .output => (s.output.map Path.spelling).toList
  | .exclude => s.exclude
  | .casePrefix => s.casePrefix.toList

private theorem eq_of_toList {α : Type} {o o' : Option α} (h : o.toList = o'.toList) : o = o' := by
  cases o <;> cases o' <;> simp_all

private theorem eq_of_spelling {p q : Option Path}
    (h : (p.map Path.spelling).toList = (q.map Path.spelling).toList) : p = q := by
  cases p <;> cases q <;> simp_all [Path.spelling_inj]

theorem eq_of_values (h : ∀ x, s.values x = s'.values x) : s = s' := by
  have hroot := eq_of_spelling (h .root)
  have hsupport := eq_of_spelling (h .supportDir)
  have houtput := eq_of_spelling (h .output)
  have hexclude : s.exclude = s'.exclude := h .exclude
  have hcase := eq_of_toList (h .casePrefix)
  cases s
  cases s'
  simp_all

theorem isTaken_iff : s.isTaken x = true ↔ x ≠ .exclude ∧ s.values x ≠ [] := by
  cases x <;> simp [isTaken, values, Option.isSome_iff_ne_none]

theorem length_values_le (hx : x ≠ .exclude) : (s.values x).length ≤ 1 := by
  have hoption {α : Type} (o : Option α) : o.toList.length ≤ 1 := by cases o <;> simp
  cases x with
  | exclude => exact absurd rfl hx
  | root => exact hoption _
  | supportDir => exact hoption _
  | output => exact hoption _
  | casePrefix => exact hoption _

theorem values_add (h : s.isTaken x = false) (value : Text) (y : Setting) :
    (s.add x value).values y = s.values y ++ if x = y then [value] else [] := by
  cases x <;> cases y <;> simp_all [isTaken, values, add]

theorem values_override (earlier later : Settings) (x : Setting) :
    (earlier.override later).values x =
      if later.values x = [] then earlier.values x else later.values x := by
  have hoption {α : Type} (f : α → Text) (o o' : Option α) : ((o <|> o').map f).toList =
      if (o.map f).toList = [] then (o'.map f).toList else (o.map f).toList := by
    cases o <;> simp
  cases x with
  | exclude => rfl
  | root => exact hoption _ _ _
  | supportDir => exact hoption _ _ _
  | output => exact hoption _ _ _
  | casePrefix => simpa [values, override] using hoption id later.casePrefix earlier.casePrefix

end Settings

/-- How an option is given a value: as the next argument, after an equals sign, or as the next
argument to the letter of the option. -/
inductive Form
  | separate
  | attached
  | letter
deriving DecidableEq

/-- An option given with a value. A value that is an argument of its own must not look like an
option. -/
structure Mention where
  setting : Setting
  value : Text
  form : Form
  letter : form = .letter → setting = .output := by decide
  dash : form = .attached ∨ value.head? ≠ some '-' ∨ value = ['-'] := by decide
  path : setting.isPath = true → value ≠ [] := by decide

def Mention.arguments (m : Mention) : List Text :=
  match m.form with
  | .separate => ['-' :: '-' :: m.setting.name, m.value]
  | .attached => ['-' :: '-' :: (m.setting.name ++ '=' :: m.value)]
  | .letter => [['-', 'o'], m.value]

/-- What stands at a level of a command line: an option, or the flag of the subcommand. -/
inductive Item (level : Option Subcommand)
  | option (m : Mention)
  | flag (name : Text) (known : level.bind Subcommand.flag? = some name)

namespace Item

variable {level : Option Subcommand}

def arguments : Item level → List Text
  | .option m => m.arguments
  | .flag name _ => ['-' :: '-' :: name]

def values (x : Setting) : Item level → List Text
  | .option m => if m.setting = x then [m.value] else []
  | .flag _ _ => []

def isFlag : Item level → Bool
  | .option _ => false
  | .flag _ _ => true

end Item

/-- A command line: what stands before the subcommand, the subcommand, and what stands after it. -/
structure Line where
  before : List (Item none)
  after : Option ((s : Subcommand) × List (Item (some s)))

namespace Line

def arguments (line : Line) : List Text :=
  line.before.flatMap Item.arguments ++
    match line.after with
    | none => []
    | some ⟨s, items⟩ => s.word :: items.flatMap Item.arguments

def command (line : Line) : Option Command :=
  line.after.map fun ⟨s, items⟩ => .ofSubcommand s (items.any Item.isFlag)

def valuesBefore (line : Line) (x : Setting) : List Text := line.before.flatMap (Item.values x)

def valuesAfter (line : Line) (x : Setting) : List Text :=
  match line.after with
  | none => []
  | some ⟨_, items⟩ => items.flatMap (Item.values x)

def flags (line : Line) : Nat :=
  match line.after with
  | none => 0
  | some ⟨_, items⟩ => (items.filter Item.isFlag).length

/-- At each level, markers may be given several times, all else once. -/
structure Once (line : Line) : Prop where
  before : ∀ x ≠ .exclude, (line.valuesBefore x).length ≤ 1
  after : ∀ x ≠ .exclude, (line.valuesAfter x).length ≤ 1
  flag : line.flags ≤ 1

/-- A command line gives each value of an invocation once, at one level or the other, the markers
all at one level. -/
structure Spells (line : Line) (i : Invocation) : Prop where
  command : line.command = i.command
  flag : line.flags ≤ 1
  values : ∀ x, line.valuesBefore x ++ line.valuesAfter x = i.settings.values x
  exclude : line.valuesBefore .exclude = [] ∨ line.valuesAfter .exclude = []

variable {line : Line} {i : Invocation}

theorem Spells.once (h : line.Spells i) : line.Once := by
  have hlength (x : Setting) (hx : x ≠ .exclude) :
      (line.valuesBefore x).length + (line.valuesAfter x).length ≤ 1 := by
    rw [← List.length_append, h.values]
    exact Settings.length_values_le hx
  refine ⟨?_, ?_, h.flag⟩
  · intro x hx
    exact Nat.le_trans (Nat.le_add_right _ _) (hlength x hx)
  · intro x hx
    exact Nat.le_trans (Nat.le_add_left _ _) (hlength x hx)

/-- Where a value is given at one level only, there is nothing to replace. -/
theorem Spells.values_eq (h : line.Spells i) (x : Setting) :
    i.settings.values x =
      if line.valuesAfter x = [] then line.valuesBefore x else line.valuesAfter x := by
  have hone : line.valuesBefore x = [] ∨ line.valuesAfter x = [] := by
    by_cases hx : x = .exclude
    · rw [hx]
      exact h.exclude
    · have hlength := Settings.length_values_le (s := i.settings) hx
      rw [← h.values, List.length_append] at hlength
      rw [← List.length_eq_zero_iff, ← List.length_eq_zero_iff]
      omega
  rw [← h.values]
  rcases hone with hnil | hnil
  · by_cases hafter : line.valuesAfter x = [] <;> simp [hnil, hafter]
  · simp [hnil]

end Line
end SuiteMake
