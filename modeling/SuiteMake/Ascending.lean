/-!
# Ascending lists

Finite sets kept as strictly ascending lists of keys. Building one from any list forgets the
order and the repetitions of that list.
-/

namespace SuiteMake

section

variable {α κ : Type} [LT κ] [DecidableLT κ]

/-- Puts `x` in its place among ascending keys, unless its key is there already. -/
def insertAscending (key : α → κ) (x : α) : List α → List α
  | [] => [x]
  | y :: ys =>
    if key x < key y then x :: y :: ys
    else if key y < key x then y :: insertAscending key x ys
    else y :: ys

/-- The members of a list in strictly ascending order of their keys. -/
def ascending (key : α → κ) (xs : List α) : List α := xs.foldr (insertAscending key) []

end

end SuiteMake
