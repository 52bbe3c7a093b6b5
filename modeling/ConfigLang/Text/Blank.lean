/-!
# Blanks

A blank is a character with the Unicode property `White_Space`. Stripping removes the longest
runs at both ends.
-/

namespace ConfigLang.Text

/-- The code points with the property `White_Space`. -/
def isBlank (c : Char) : Bool :=
  let n := c.toNat
  (9 ≤ n && n ≤ 13) || n == 0x20 || n == 0x85 || n == 0xA0 || n == 0x1680 ||
    (0x2000 ≤ n && n ≤ 0x200A) || n == 0x2028 || n == 0x2029 || n == 0x202F || n == 0x205F ||
    n == 0x3000

/-- Removes the characters of a class from both ends. -/
def strip (drop : Char → Bool) (cs : List Char) : List Char :=
  ((cs.dropWhile drop).reverse.dropWhile drop).reverse

/-- Removes the blanks at both ends. -/
def trim (cs : List Char) : List Char :=
  strip isBlank cs

end ConfigLang.Text
