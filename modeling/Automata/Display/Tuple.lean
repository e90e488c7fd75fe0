import Automata.Dfa
import Automata.Nfa

/-!
# Display/Tuple — an automaton as a tuple

The states, the symbols, the initial state and the final states stand in a tuple, and below it the
moves, one line for each state and symbol that lead somewhere.  A nondeterministic automaton shows
what is led to as a set.
-/

namespace Automata

/-- A set, given the texts of its members. -/
def braced (separator : String) (l : List String) : String :=
  "\x7b" ++ separator.intercalate l ++ "\x7d"

/-- The tuple of an automaton, given how the labels of what is led to are shown. -/
def Machine.tuple {τ : Type} [Target τ] (m : Machine τ) (join : List String → String) : String :=
  "M = (" ++ braced ", " m.labels ++ ", " ++
    braced ", " (m.alphabet.toList.map Char.toString) ++ ", d, " ++ m.label m.initial ++ ", " ++
    braced ", " m.finalLabels ++ ")\nd = \x7b\n" ++
    String.join (m.transitions.map fun t =>
      "\t(" ++ m.label t.1 ++ ", " ++ t.2.1.toString ++ ") -> " ++
        join ((Target.states t.2.2).map m.label) ++ "\n") ++
    "\x7d\n"

/-- The tuple of a deterministic automaton. -/
def Dfa.formal (d : Dfa) : String := d.tuple String.join

/-- The tuple of a nondeterministic automaton. -/
def Nfa.formal (n : Nfa) : String := n.tuple (braced ", ")

end Automata
