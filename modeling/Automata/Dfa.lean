import Automata.Machine
import Automata.Search

/-!
# Dfa — automata with at most one move for each state and symbol

A missing entry is not a move into a non-final state: a word that needs it cannot be read
(`Dfa.run` has no value).  `Dfa.tabulate` makes a table from a function; `next?_tabulate` and
`isFinal_tabulate` read that function back, and the automata made by the algorithms of this
library are all made with it.
-/

namespace Automata

/-- A deterministic automaton, possibly partial. -/
abbrev Dfa := Machine StateId

namespace Dfa

variable (d : Dfa)

/-- The state a state and a symbol lead to. -/
def next? (p : StateId) (a : Symbol) : Option StateId := d.entry? p a

/-! ## Runs -/

/-- The state reached by reading a word from a state. -/
def runFrom : StateId → List Symbol → Option StateId
  | p, [] => some p
  | p, a :: w =>
    match d.next? p a with
    | none => none
    | some q => runFrom q w

/-- The state reached by reading a word. -/
def run (w : List Symbol) : Option StateId := d.runFrom d.initial w

/-- The states visited while a word is read from `p`, behind those visited before. -/
def visitFrom : List StateId → StateId → List Symbol → Option (List StateId)
  | visited, p, [] => some (p :: visited).reverse
  | visited, p, a :: w =>
    match d.next? p a with
    | none => none
    | some q => visitFrom (p :: visited) q w

/-- The states visited while a word is read, the initial state first. -/
def stateSequence (w : List Symbol) : Option (List StateId) := d.visitFrom [] d.initial w

/-- The states visited before come first and change nothing. -/
theorem visitFrom_eq_map (visited : List StateId) : ∀ (p : StateId) (w : List Symbol),
    d.visitFrom visited p w = (d.visitFrom [] p w).map (visited.reverse ++ ·)
  | p, [] => by simp [visitFrom]
  | p, a :: w => by
      rw [visitFrom, visitFrom]
      cases d.next? p a with
      | none => rfl
      | some q =>
          dsimp only
          rw [visitFrom_eq_map (p :: visited) q w, visitFrom_eq_map [p] q w, Option.map_map]
          congr 1
          funext l
          simp

/-- **A word is read one symbol at a time** — the recursion the proofs about runs follow. -/
theorem visitFrom_cons (p : StateId) (a : Symbol) (w : List Symbol) :
    d.visitFrom [] p (a :: w)
      = (d.next? p a).bind fun q => (d.visitFrom [] q w).map (p :: ·) := by
  rw [visitFrom]
  cases d.next? p a with
  | none => rfl
  | some q =>
      dsimp only [Option.bind_some]
      rw [visitFrom_eq_map]
      rfl

/-! ## The shape of the table -/

/-- The states and symbols without a move, by state and then by symbol. -/
def undefinedTransitions : List (StateId × Symbol) :=
  d.states.flatMap fun p =>
    (d.alphabet.toList.filter fun a => (d.next? p a).isNone).map fun a => (p, a)

/-- Whether every state has a move on every symbol. -/
def isTotal : Bool := d.undefinedTransitions.isEmpty

/-- The states one move away from a state, by symbol. -/
def successors (p : StateId) : List StateId := d.alphabet.toList.filterMap (d.next? p)

/-- The states some word leads to, in breadth-first order. -/
def reachable : List StateId := search d.successors d.numStates d.initial

/-! ## Automata given by a function -/

/-- The automaton with the given labels whose moves are `next`, over an alphabet.  A state without
a move gets no row. -/
def tabulate (labels : List String) (alphabet : Alphabet) (initial : StateId)
    (isFinal : StateId → Bool) (next : StateId → Symbol → Option StateId) : Dfa where
  labels := labels
  alphabet := alphabet
  initial := initial
  finals := (SortedSet.range labels.length).filter isFinal
  table := SortedMap.collect (SortedSet.range labels.length) fun p =>
    let row := SortedMap.collect alphabet (next p)
    if row.isEmpty then none else some row

variable {labels : List String} {alphabet : Alphabet} {initial : StateId}
  {isFinal : StateId → Bool} {next : StateId → Symbol → Option StateId}

theorem next?_tabulate {p : StateId} {a : Symbol} (hp : p < labels.length) (ha : a ∈ alphabet) :
    (tabulate labels alphabet initial isFinal next).next? p a = next p a := by
  have hrow : (SortedMap.collect alphabet (next p)).find? a = next p a :=
    SortedMap.find?_collect ha
  rw [next?, Machine.entry?, tabulate, SortedMap.find?_collect (SortedSet.mem_range.mpr hp)]
  dsimp only
  split
  · rename_i hempty
    have : (SortedMap.collect alphabet (next p)) = ∅ := by
      refine SortedMap.ext_find? fun b => ?_
      rw [SortedMap.isEmpty, List.isEmpty_iff] at hempty
      rw [SortedMap.find?, hempty]
      rfl
    rw [← hrow, this]
    rfl
  · exact hrow

theorem isFinal_tabulate {p : StateId} (hp : p < labels.length) :
    (tabulate labels alphabet initial isFinal next).isFinal p = isFinal p := by
  rw [Bool.eq_iff_iff, Machine.isFinal_iff, tabulate, SortedSet.mem_filter, SortedSet.mem_range]
  exact ⟨And.right, fun h => ⟨hp, h⟩⟩

@[simp] theorem numStates_tabulate :
    (tabulate labels alphabet initial isFinal next).numStates = labels.length := rfl

end Dfa

end Automata
