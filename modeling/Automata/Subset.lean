import Automata.Display.Tuple
import Automata.Log

/-!
# Subset — the deterministic automaton of the sets a nondeterministic one can be in

The states are the sets some word leads to, in the order a breadth-first search from the set of the
initial state comes upon them, and are labelled `q0, q1, …` in that order.  A symbol on which every
branch gets stuck is no move, so the empty set is no state and the result is partial wherever the
given automaton freezes.
-/

namespace Automata

/-- A deterministic automaton and the set of states behind each of its states. -/
structure SubsetConstruction where
  dfa : Dfa
  stateSets : List StateSet
deriving DecidableEq

namespace SubsetConstruction

/-- The set behind a state, if there is such a state. -/
def stateSet? (c : SubsetConstruction) (s : StateId) : Option StateSet := c.stateSets[s]?

end SubsetConstruction

namespace Nfa

variable (n : Nfa)

/-- The non-empty sets one symbol away from a set, by symbol. -/
def successorSets (S : StateSet) : List StateSet :=
  (n.alphabet.toList.map (n.nextStates S)).filter fun T => !T.isEmpty

/-- The sets some word leads to, in breadth-first order; there are at most as many as there are
sets of states. -/
def reachableSets : List StateSet := search n.successorSets (Nat.pow 2 n.numStates) n.start

/-- The position of the set that a set and a symbol lead to. -/
def nextIndex? (sets : List StateSet) (i : StateId) (a : Symbol) : Option StateId :=
  sets[i]?.bind fun S => sets.idxOf? (n.nextStates S a)

/-- The deterministic automaton whose states are the given sets. -/
def ofSets (sets : List StateSet) : Dfa :=
  Dfa.tabulate ((List.range sets.length).map StateId.canonicalLabel) n.alphabet 0
    (fun i => (sets[i]?.map n.containsFinal).getD false) (n.nextIndex? sets)

def subsetConstruction : SubsetConstruction :=
  let sets := n.reachableSets
  ⟨n.ofSets sets, sets⟩

/-- The deterministic automaton with the same outcome on every word. -/
def determinize : Dfa := n.subsetConstruction.dfa

/-! ## The log -/

/-- Each set after the first is announced when the search comes upon it, and the sizes of the two
automata at the end. -/
def determinizeLog : List LogLine :=
  let sets := n.reachableSets
  (((List.range sets.length).zip sets).drop 1).map (fun (i, S) =>
    ⟨.trace, "discovered " ++ StateId.canonicalLabel i ++ " = " ++
      braced ", " (S.toList.map n.label)⟩) ++
  [⟨.debug, "subset construction: " ++ n.numStates.repr ++ " NFA states -> " ++
    sets.length.repr ++ " DFA states"⟩]

end Nfa

end Automata
