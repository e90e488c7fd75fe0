import Automata.Dfa

/-!
# Minimize/Completion — the reachable part of an automaton, made total

Before states are compared, those no word leads to are dropped (`Dfa.trim`, which keeps the order of
the others) and, if some state lacks a move, every missing move is led to a new state that is never
left and not final (`Dfa.complete`).
-/

namespace Automata

/-! ## A label for a new state -/

/-- The least `k`, from `n` on, for which `q<k>` is no label; with `fuel` labels, one of the first
`fuel + 1` numbers is such.  The numbers are not limited here; `Finds` counts on 64 bits. -/
def freshIndex (labels : List String) : Nat → Nat → Nat
  | 0, n => n
  | fuel + 1, n =>
    if StateId.canonicalLabel n ∈ labels then freshIndex labels fuel (n + 1) else n

/-- The first of `q<n>, q<n+1>, …` that is no label. -/
def freshLabel (labels : List String) (n : Nat) : String :=
  StateId.canonicalLabel (freshIndex labels labels.length n)

namespace Dfa

variable (d : Dfa)

/-! ## The reachable part -/

/-- The states some word leads to, by position. -/
def kept : List StateId :=
  let r := d.reachable
  d.states.filter fun s => decide (s ∈ r)

/-- The labels of the states no word leads to, by position. -/
def unreachableLabels : List String :=
  let r := d.reachable
  (d.states.filter fun s => !decide (s ∈ r)).map d.label

/-- The automaton of the states on a list, in the order of the list. -/
def restrict (kept : List StateId) : Dfa :=
  tabulate (kept.map d.label) d.alphabet (kept.idxOf d.initial)
    (fun i => (kept[i]?.map d.isFinal).getD false)
    (fun i a => kept[i]?.bind fun s => (d.next? s a).bind fun t => kept.idxOf? t)

/-- The automaton without the states no word leads to. -/
def trim : Dfa := d.restrict d.kept

/-! ## Making an automaton total -/

/-- The label of the state that missing moves are led to, if some move is missing. -/
def trap? : Option String :=
  if d.isTotal then none else some (freshLabel d.labels d.numStates)

/-- The automaton with a new last state that missing moves lead to. -/
def addTrap (label : String) : Dfa :=
  tabulate (d.labels ++ [label]) d.alphabet d.initial d.isFinal
    (fun p a => some ((d.next? p a).getD d.numStates))

/-- The automaton with every move defined. -/
def complete : Dfa :=
  match d.trap? with
  | none => d
  | some l => d.addTrap l

end Dfa

end Automata
