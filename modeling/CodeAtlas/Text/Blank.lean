/-!
# Blank characters

Two classes of blank characters: the Unicode property `White_Space`, and the larger set that may
stand between the tokens of a script. The line terminators of a script are a class of their own,
since a statement may end at one.
-/

namespace CodeAtlas.Text

/-- The Unicode property `White_Space`. -/
def isBlank (c : Char) : Bool :=
  let n := c.toNat
  (9 ≤ n && n ≤ 13) || n == 0x20 || n == 0x85 || n == 0xA0 || n == 0x1680 ||
    (0x2000 ≤ n && n ≤ 0x200A) || n == 0x2028 || n == 0x2029 || n == 0x202F || n == 0x205F ||
    n == 0x3000

/-- The characters that end a line of a script. -/
def isLineEnd (c : Char) : Bool :=
  c == '\n' || c == '\r' || c.toNat == 0x2028 || c.toNat == 0x2029

/-- The characters other than line ends that may stand between the tokens of a script. -/
def isScriptBlank (c : Char) : Bool :=
  let n := c.toNat
  n == 9 || n == 11 || n == 12 || n == 0x20 || n == 0x85 || n == 0xA0 || n == 0x1680 ||
    n == 0x180E || (0x2000 ≤ n && n ≤ 0x200B) || n == 0x202F || n == 0x205F || n == 0x3000 ||
    n == 0xFEFF

end CodeAtlas.Text
