/-!
# Text/Ranges — sets of characters as ranges of code points

The large classes of characters are tables of ranges; `Ranges.mem` looks a character up.
-/

namespace Automata.Text

/-- Ranges of code points, both ends included, ascending. -/
abbrev Ranges := List (Nat × Nat)

/-- Whether a character falls into one of the ranges. -/
def Ranges.mem (R : Ranges) (c : Char) : Bool :=
  R.any fun r => r.1 ≤ c.toNat && c.toNat ≤ r.2

end Automata.Text
