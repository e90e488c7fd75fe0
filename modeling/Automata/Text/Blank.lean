/-!
# Text/Blank — the characters with the property `White_Space`

These separate the tokens of a text.  All of `Char.isWhitespace` is among them; the zero-width space
and the byte order mark are not.
-/

namespace Automata.Text

/-- Whether a character is white space. -/
def isBlank (c : Char) : Bool :=
  let n := c.toNat
  (0x09 ≤ n && n ≤ 0x0d) || n == 0x20 || n == 0x85 || n == 0xa0 || n == 0x1680 ||
    (0x2000 ≤ n && n ≤ 0x200a) || n == 0x2028 || n == 0x2029 || n == 0x202f || n == 0x205f ||
    n == 0x3000

/-- The end of a line is white space. -/
theorem isBlank_newline : isBlank '\n' = true := by decide

end Automata.Text
