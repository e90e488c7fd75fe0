import Automata.Dfa
import Automata.Minimize.PairTable

/-!
# Minimize/Quotient — unmarked pairs merged

States are put into classes in turn: into the first class whose least member makes no marked pair
with the state, or else into a new one.  So classes are numbered by their least members, and a
class is never empty.  The quotient has the classes as states, labelled `q0, q1, …`, and moves as
their least members do.
-/

namespace Automata

/-- A class of states: its least member, and the others ascending. -/
structure StateClass where
  first : StateId
  others : List StateId
deriving DecidableEq

/-- The states of a class, ascending. -/
def StateClass.members (c : StateClass) : List StateId := c.first :: c.others

/-- Puts a state into the class it belongs to. -/
def placeState {n : Nat} (t : PairTable n) (q : StateId) : List StateClass → List StateClass
  | [] => [⟨q, []⟩]
  | c :: cs =>
    if t.isMarked c.first q then c :: placeState t q cs
    else ⟨c.first, c.others ++ [q]⟩ :: cs

/-- The classes of the states below `n`. -/
def PairTable.classes {n : Nat} (t : PairTable n) : List StateClass :=
  (List.range n).foldl (fun cs q => placeState t q cs) []

/-- The position of the class of a state. -/
def classIndex? (cs : List StateClass) (s : StateId) : Option StateId :=
  cs.findIdx? fun c => decide (s ∈ c.members)

/-- The automaton whose states are the given classes. -/
def Dfa.quotient (d : Dfa) (cs : List StateClass) : Dfa :=
  tabulate ((List.range cs.length).map StateId.canonicalLabel) d.alphabet
    ((classIndex? cs d.initial).getD 0)
    (fun i => (cs[i]?.map fun c => d.isFinal c.first).getD false)
    (fun i a => cs[i]?.bind fun c => (d.next? c.first a).bind (classIndex? cs))

end Automata
