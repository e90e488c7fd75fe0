import Automata.Dfa
import Automata.Nfa

/-!
# Evaluation — what becomes of a word

A word that cannot be read to its end is *frozen*, which is not the same as read and rejected.  A
nondeterministic automaton freezes when every branch has run out of moves: no branch comes back
once the set of states is empty, so the set after the whole word decides.
-/

namespace Automata

/-- The outcome of reading a word. -/
inductive Evaluation where
  /-- Read to the end, in a final state. -/
  | accept
  /-- Read to the end, in no final state. -/
  | reject
  /-- Not read to the end: some symbol had no move. -/
  | frozen
deriving DecidableEq

namespace Evaluation

def isAccepted (e : Evaluation) : Bool := e == .accept

def render : Evaluation → String
  | accept => "accept"
  | reject => "reject"
  | frozen => "frozen"

/-- The outcome of a word that is read to the end, by whether it ends in a final state. -/
def ofFinal (isFinal : Bool) : Evaluation := if isFinal then accept else reject

end Evaluation

/-- Reads a word along the one run there can be. -/
def Dfa.evaluate (d : Dfa) (w : List Symbol) : Evaluation :=
  match d.run w with
  | none => .frozen
  | some q => .ofFinal (d.isFinal q)

/-- Reads a word along all branches at once. -/
def Nfa.evaluate (n : Nfa) (w : List Symbol) : Evaluation :=
  let S := n.read w
  if S.isEmpty then .frozen else .ofFinal (n.containsFinal S)

/-- Whether a word is accepted. -/
def Dfa.accepts (d : Dfa) (w : List Symbol) : Bool := (d.evaluate w).isAccepted

/-- Whether a word is accepted. -/
def Nfa.accepts (n : Nfa) (w : List Symbol) : Bool := (n.evaluate w).isAccepted

end Automata
