import Automata.Text.Extending
import Automata.Text.Unprintable

/-!
# Text/Quoted — how messages quote symbols and tokens

A symbol stands between single quotes and a token between double quotes.  The quote that
delimits, the backslash and four control characters are written with a backslash, a character that
would leave no mark or be drawn onto the quote is written by its code point, and every other one
as it is.
-/

namespace Automata.Text

/-- A character inside quotes of the given kind. -/
def escape (quote c : Char) : List Char :=
  if c == quote || c == '\\' then ['\\', c]
  else if c == '\x00' then ['\\', '0']
  else if c == '\t' then ['\\', 't']
  else if c == '\n' then ['\\', 'n']
  else if c == '\r' then ['\\', 'r']
  else if isExtending c || isUnprintable c then
    ['\\', 'u', '\x7b'] ++ Nat.toDigits 16 c.toNat ++ ['\x7d']
  else [c]

/-- A text between two quotes of the given kind. -/
def quoted (quote : Char) (cs : List Char) : String :=
  String.ofList (quote :: cs.flatMap (escape quote) ++ [quote])

/-- A symbol as messages show it. -/
def quoteSymbol (c : Char) : String := quoted '\x27' [c]

/-- A token as messages show it. -/
def quoteToken (s : String) : String := quoted '\x22' s.toList

end Automata.Text
