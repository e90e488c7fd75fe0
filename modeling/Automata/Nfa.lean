import Automata.Machine

/-!
# Nfa — automata with any number of moves for each state and symbol

Reading a symbol takes a set of states to the union of their successors (`mem_nextStates`), so a
word takes the set of the initial state to the set of the states some branch can be in.
-/

namespace Automata

/-- A nondeterministic automaton. -/
abbrev Nfa := Machine (List StateId)

namespace Nfa

variable (n : Nfa)

/-- The states a state and a symbol lead to, in stored order. -/
def successors (p : StateId) (a : Symbol) : List StateId := n.targets p a

/-- The states that some member of a set and a symbol lead to. -/
def nextStates (S : StateSet) (a : Symbol) : StateSet :=
  S.toList.foldl (fun T p => T.insertAll (n.successors p a)) ∅

/-- Whether some member of a set is final. -/
def containsFinal (S : StateSet) : Bool := S.toList.any n.isFinal

/-- The set of the initial state alone. -/
def start : StateSet := SortedSet.ofList [n.initial]

/-- The states that some branch can be in after a word is read from a set of states. -/
def readFrom (S : StateSet) (w : List Symbol) : StateSet := w.foldl n.nextStates S

/-- The states that some branch can be in after a word. -/
def read (w : List Symbol) : StateSet := n.readFrom n.start w

@[simp] theorem mem_nextStates {S : StateSet} {a : Symbol} {q : StateId} :
    q ∈ n.nextStates S a ↔ ∃ p ∈ S, q ∈ n.successors p a := by
  have key : ∀ (l : List StateId) (T : StateSet),
      q ∈ l.foldl (fun T p => T.insertAll (n.successors p a)) T
        ↔ q ∈ T ∨ ∃ p ∈ l, q ∈ n.successors p a := by
    intro l
    induction l with
    | nil => simp
    | cons p l ih =>
        intro T
        rw [List.foldl_cons, ih, SortedSet.mem_insertAll]
        simp [or_assoc]
  rw [nextStates, key]
  simp

@[simp] theorem containsFinal_iff {S : StateSet} :
    n.containsFinal S = true ↔ ∃ q ∈ S, q ∈ n.finals := by
  simp [containsFinal]

end Nfa

end Automata
