import Automata.Machine
import Automata.Text.Lines
import Automata.Text.Numeral

/-!
# Listing/Write — writing the listing of an automaton

Each count and what it counts stand on a line of their own, the transitions one line for each state
and symbol that lead somewhere, by state and then by symbol.  States are written by label, the
final ones by position.
-/

namespace Automata.Machine

open Text (Lines)

variable {τ : Type} [Target τ] (m : Machine τ)

/-- The line of the moves of a state on a symbol. -/
def transitionLine (t : StateId × Symbol × τ) : List String :=
  m.label t.1 :: t.2.1.toString :: (Target.states t.2.2).map m.label

/-- The lines of the listing. -/
def listingLines : Lines :=
  [[Text.Numeral.write m.numStates], m.labels,
    [Text.Numeral.write m.alphabet.size], m.alphabet.toList.map Char.toString,
    [Text.Numeral.write m.transitionCount]] ++
  m.transitions.map m.transitionLine ++
  [[m.label m.initial],
    [Text.Numeral.write m.finalLabels.length], m.finalLabels]

/-- The listing of an automaton. -/
def listing : String := m.listingLines.toText

end Automata.Machine
