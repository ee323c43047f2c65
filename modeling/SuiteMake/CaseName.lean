import SuiteMake.Language

/-!
# Case file names

A test-case file is called by the case prefix, a middle part and the extension of a language.
-/

namespace SuiteMake.CaseName

/-- The middle part of a case file's name: what stands between the prefix and the dot. -/
def middle? (casePrefix name : Text) (l : Language) : Option Text := do
  let rest ← casePrefix.isPrefixOf? name
  let middle ← ('.' :: l.extension).isSuffixOf? rest
  if '\n' ∈ middle then none else some middle

/-- Whether a file name is that of a test case: a prefix, a middle part on one line, and the
extension of some language. -/
def isCase (casePrefix name : Text) : Bool :=
  Language.all.any fun l => (middle? casePrefix name l).isSome

/-- The part of a name that may tell a variant: no extension, and no case prefix if it has one. -/
def core (casePrefix name : Text) : Text :=
  let stem := Text.beforeLast '.' name
  (casePrefix.isPrefixOf? stem).getD stem

end SuiteMake.CaseName
