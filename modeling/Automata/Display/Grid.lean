import Automata.Display.Tuple

/-!
# Display/Grid — an automaton as a table

A row for each state and a column for each symbol show what they lead to; `->` marks the initial
state and `*` the final ones.  The columns of a deterministic automaton are as wide as its widest
label, those of a nondeterministic one as wide as their widest cell.  Widths are measured in bytes
of the labels and filled up by characters, and a wider column than `Grid.maxWidth` cannot be drawn.
-/

namespace Automata

/-- The widest column that can be drawn. -/
def Grid.maxWidth : Nat := 65535

/-- A character, repeated. -/
def repeated (n : Nat) (c : Char) : String := String.ofList (List.replicate n c)

/-- A text filled up with blanks to a number of characters. -/
def padded (width : Nat) (s : String) : String := s ++ repeated (width - s.length) ' '

namespace Machine

variable {τ : Type} (m : Machine τ)

/-- The bytes of the widest label. -/
def labelWidth : Nat := (m.labels.map String.utf8ByteSize).foldl max 0

/-- What stands before the label of a state. -/
def marker (s : StateId) : String :=
  if m.isInitial s then "->" else if m.isFinal s then " *" else "  "

/-- The lines of a table, given the width of each column and the text of each cell. -/
def gridLines (columns : List (Symbol × Nat)) (cell : StateId → Symbol → String) : List String :=
  let w := m.labelWidth
  let cells (text : Symbol → String) : String :=
    String.join (columns.map fun c => " " ++ padded c.2 (text c.1) ++ " ")
  [repeated (w + 3) ' ' ++ " ||" ++ cells Char.toString,
    repeated (w + 4) '-' ++ "++" ++ String.join (columns.map fun c => repeated (c.2 + 2) '-')] ++
  m.states.map fun s => m.marker s ++ " " ++ padded w (m.label s) ++ " ||" ++ cells (cell s)

/-- The table, unless a column is too wide. -/
def grid? (columns : List (Symbol × Nat)) (cell : StateId → Symbol → String) : Option String :=
  if ((m.labelWidth + 3) :: columns.map Prod.snd).all (· ≤ Grid.maxWidth) then
    some (String.join ((m.gridLines columns cell).map (· ++ "\n")))
  else none

end Machine

namespace Dfa

variable (d : Dfa)

/-- The label of the state that a state and a symbol lead to. -/
def cell (p : StateId) (a : Symbol) : String := ((d.next? p a).map d.label).getD ""

/-- All columns are as wide as the widest label. -/
def columns : List (Symbol × Nat) := d.alphabet.toList.map fun a => (a, d.labelWidth)

/-- The table of a deterministic automaton. -/
def display? : Option String := d.grid? d.columns d.cell

end Dfa

namespace Nfa

variable (n : Nfa)

/-- The labels of the states that a state and a symbol lead to, as a set. -/
def cell (p : StateId) (a : Symbol) : String :=
  let l := n.successors p a
  if l.isEmpty then "" else braced "," (l.map n.label)

/-- Each column is as wide as its widest cell, and at least one character wide. -/
def columns : List (Symbol × Nat) :=
  n.alphabet.toList.map fun a =>
    (a, (n.states.map fun p => (n.cell p a).utf8ByteSize).foldl max 1)

/-- The table of a nondeterministic automaton. -/
def display? : Option String := n.grid? n.columns n.cell

end Nfa

end Automata
