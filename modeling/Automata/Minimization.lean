import Automata.Log
import Automata.Minimize.Completion
import Automata.Minimize.Marking
import Automata.Minimize.Quotient
import Automata.Text.Quoted

/-!
# Minimization — the least automaton that accepts the same words

The reachable part of an automaton is made total, the pairs of its states that some word tells
apart are marked, and states that no word tells apart are merged.  `Minimization` keeps what each
stage found; labels are those of the completed automaton.
-/

namespace Automata

/-- What minimizing an automaton found. -/
structure Minimization where
  /-- The reachable part of the automaton, made total. -/
  completed : Dfa
  /-- The labels of the states no word leads to. -/
  unreachable : List String
  /-- The label of the state that missing moves are led to, if one was added. -/
  trap : Option String
  /-- The pairs marked because a symbol leads them to a marked pair, in the order they were. -/
  markings : List Marking
  /-- The number of passes over all pairs, with the last one, which marks nothing. -/
  passes : Nat
  /-- The pairs of states of the completed automaton that some word tells apart. -/
  separated : List (StateId × StateId)
  /-- The states of the completed automaton behind each state of the result. -/
  partition : List StateClass
  /-- The least automaton. -/
  dfa : Dfa
deriving DecidableEq

namespace Minimization

variable (r : Minimization)

/-- The labels behind each state of the result. -/
def classes : List (List String) := r.partition.map fun c => c.members.map r.completed.label

/-- The labels of the pairs that some word tells apart. -/
def distinguishable : List (String × String) :=
  r.separated.map fun s => (r.completed.label s.1, r.completed.label s.2)

/-! ## The log -/

/-- The line of a pair that was marked because of a symbol. -/
def markingLine (k : Marking) : LogLine :=
  ⟨.trace, "marking (" ++ r.completed.label k.lower ++ ", " ++ r.completed.label k.upper ++
    ") on " ++ Text.quoteSymbol k.symbol⟩

/-- The states dropped, the state added, the pairs marked and the size of the result. -/
def log : List LogLine :=
  (if r.unreachable.isEmpty then []
    else [⟨.debug, "removing unreachable states: " ++ ", ".intercalate r.unreachable⟩]) ++
  (r.trap.toList.map fun l => ⟨.debug, "adding trap state " ++ l⟩) ++
  r.markings.map r.markingLine ++
  [⟨.debug, "minimization: " ++ r.partition.length.repr ++ " classes after " ++
    r.passes.repr ++ " passes"⟩]

end Minimization

namespace Dfa

variable (d : Dfa)

/-- Minimizes an automaton and keeps what each stage found. -/
def minimization : Minimization :=
  let trimmed := d.trim
  let completed := trimmed.complete
  let found := completed.distinguish
  let cs := found.table.classes
  { completed
    unreachable := d.unreachableLabels
    trap := trimmed.trap?
    markings := found.markings
    passes := found.passes
    separated := found.table.markedPairs
    partition := cs
    dfa := completed.quotient cs }

/-- The least automaton that accepts the same words. -/
def minimize : Dfa := d.minimization.dfa

end Dfa

end Automata
