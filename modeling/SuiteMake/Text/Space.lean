import SuiteMake.Text.Basic

/-!
# White space

The characters with Unicode's White_Space property. Lines are cut into words by blanks alone;
this wider class is what a variant marker must not hold.
-/

namespace SuiteMake.Text

/-- Unicode's White_Space property. -/
def isSpace (c : Char) : Bool :=
  let n := c.toNat
  (0x09 ≤ n && n ≤ 0x0D) || n == 0x20 || n == 0x85 || n == 0xA0 || n == 0x1680 ||
    (0x2000 ≤ n && n ≤ 0x200A) || n == 0x2028 || n == 0x2029 || n == 0x202F || n == 0x205F ||
    n == 0x3000

end SuiteMake.Text
