/-! # Blank characters

The characters that separate words in source text and in numeric input.
-/

namespace RealScript.Text

/-- The white space of Unicode: five ASCII controls and the blank, then the blanks of other blocks.
-/
def isBlank (c : Char) : Bool :=
  let n := c.toNat
  (9 ≤ n && n ≤ 13) || n == 0x20 || n == 0x85 || n == 0xA0 || n == 0x1680 ||
    (0x2000 ≤ n && n ≤ 0x200A) || n == 0x2028 || n == 0x2029 || n == 0x202F ||
    n == 0x205F || n == 0x3000

end RealScript.Text
