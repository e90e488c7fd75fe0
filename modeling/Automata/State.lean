import Automata.Sorted.Set

/-!
# State — state handles

A state is known by its position among the labels of its automaton.  States that an algorithm
makes up are labelled `q0, q1, …` by that position.  A handle has 32 bits, so a position is one only
below `StateId.limit` (`StateId.ofNat?`); positions themselves are not limited.
-/

namespace Automata

/-- The position of a state among the labels of its automaton. -/
abbrev StateId := Nat

/-- A set of states of one automaton. -/
abbrev StateSet := SortedSet StateId

namespace StateId

/-- A handle is a 32-bit number, so an automaton has at most this many states. -/
def limit : Nat := 0x100000000

/-- The handle with a given position, if that is small enough. -/
def ofNat? (n : Nat) : Option StateId := if n < limit then some n else none

/-- A handle as it is shown in messages: `#` and the position. -/
def render (s : StateId) : String := "#" ++ s.repr

/-- The label of the `n`-th state that an algorithm makes up. -/
def canonicalLabel (n : Nat) : String := "q" ++ n.repr

end StateId

end Automata
