import Automata.Alphabet
import Automata.Sorted.Map
import Automata.State

/-!
# Machine — labels, alphabet, initial and final states, and a table of moves

Deterministic and nondeterministic automata differ in what a state and a symbol lead to, and in
nothing else, so both are a `Machine τ` for a `Target τ`: `Dfa` leads to one state, `Nfa` to a list
of them.  The table stores one row per state that has one; a missing row and a missing entry both
mean that there is no move.

`WellFormed` says that every position in a machine is one of its states and every symbol in the
table belongs to its alphabet.  Reading a payload of bytes can store repeated labels and empty
rows; these are no breach of it.
-/

namespace Automata

/-- What a state and a symbol lead to. -/
class Target (τ : Type) where
  /-- The states led to, in the order they are stored. -/
  states : τ → List StateId
  /-- Whether a state and a symbol may lead to several states. -/
  branching : Bool
  /-- What results when one more state is recorded beside what was stored so far. -/
  record : Option τ → StateId → τ

/-- One state; the first one recorded stays. -/
instance : Target StateId where
  states q := [q]
  branching := false
  record t q := t.getD q

/-- A list of states without repetition, in the order they were recorded. -/
instance : Target (List StateId) where
  states l := l
  branching := true
  record
    | none, q => [q]
    | some l, q => if q ∈ l then l else l ++ [q]

@[simp] theorem Target.states_stateId (q : StateId) : Target.states q = [q] := rfl

@[simp] theorem Target.states_list (l : List StateId) : Target.states l = l := rfl

/-- The moves of one state. -/
abbrev Row (τ : Type) := SortedMap Symbol τ

/-- The moves of all states. -/
abbrev Table (τ : Type) := SortedMap StateId (Row τ)

/-- A finite automaton whose moves lead to `τ`. -/
structure Machine (τ : Type) where
  /-- The labels of the states; a state is a position in this list. -/
  labels : List String
  alphabet : Alphabet
  initial : StateId
  finals : StateSet
  table : Table τ
deriving DecidableEq

namespace Machine

variable {τ : Type} (m : Machine τ)

/-! ## States -/

def numStates : Nat := m.labels.length

/-- The states, by position. -/
def states : List StateId := List.range m.numStates

/-- The label of a state, if there is such a state. -/
def label? (s : StateId) : Option String := m.labels[s]?

/-- The label of a state of the machine. -/
def label (s : StateId) : String := (m.label? s).getD ""

/-- The first state with a label. -/
def stateId? (l : String) : Option StateId := m.labels.idxOf? l

def isInitial (s : StateId) : Bool := s == m.initial

def isFinal (s : StateId) : Bool := decide (s ∈ m.finals)

/-- The labels of the final states, by position. -/
def finalLabels : List String := (m.states.filter m.isFinal).map m.label

theorem mem_states {s : StateId} : s ∈ m.states ↔ s < m.numStates := List.mem_range

theorem label?_of_lt {s : StateId} (h : s < m.numStates) : m.label? s = some (m.label s) := by
  have h' : s < m.labels.length := h
  simp [label, label?, h']

@[simp] theorem isFinal_iff {s : StateId} : m.isFinal s = true ↔ s ∈ m.finals := by simp [isFinal]

/-! ## Moves -/

/-- What the table stores for a state and a symbol. -/
def entry? (p : StateId) (a : Symbol) : Option τ := (m.table.find? p).bind (·.find? a)

variable [Target τ]

/-- The states that a state and a symbol lead to, in stored order. -/
def targets (p : StateId) (a : Symbol) : List StateId :=
  ((m.entry? p a).map Target.states).getD []

/-- The moves that lead somewhere, by state and then by symbol. -/
def transitions : List (StateId × Symbol × τ) :=
  m.states.flatMap fun p => m.alphabet.toList.filterMap fun a =>
    ((m.entry? p a).filter fun t => !(Target.states t).isEmpty).map fun t => (p, a, t)

/-- The number of stored moves, one for each state led to. -/
def transitionCount : Nat :=
  (m.table.entries.flatMap fun r => r.2.entries.flatMap fun e => Target.states e.2).length

/-! ## Well-formedness -/

/-- **Every position names a state and every symbol is known.** -/
structure WellFormed : Prop where
  initial_lt : m.initial < m.numStates
  finals_lt : ∀ q ∈ m.finals.toList, q < m.numStates
  table_ok : ∀ r ∈ m.table.entries, r.1 < m.numStates ∧ ∀ e ∈ r.2.entries,
    e.1 ∈ m.alphabet ∧ ∀ q ∈ Target.states e.2, q < m.numStates

theorem wellFormed_iff : m.WellFormed ↔ m.initial < m.numStates ∧
    (∀ q ∈ m.finals.toList, q < m.numStates) ∧
    ∀ r ∈ m.table.entries, r.1 < m.numStates ∧ ∀ e ∈ r.2.entries,
      e.1 ∈ m.alphabet ∧ ∀ q ∈ Target.states e.2, q < m.numStates :=
  ⟨fun ⟨h₁, h₂, h₃⟩ => ⟨h₁, h₂, h₃⟩, fun ⟨h₁, h₂, h₃⟩ => ⟨h₁, h₂, h₃⟩⟩

instance : Decidable m.WellFormed := decidable_of_iff' _ m.wellFormed_iff

/-- What a well-formed machine stores fits it. -/
theorem WellFormed.of_entry? {m : Machine τ} (h : m.WellFormed) {p : StateId} {a : Symbol} {t : τ}
    (ht : m.entry? p a = some t) :
    p < m.numStates ∧ a ∈ m.alphabet ∧ ∀ q ∈ Target.states t, q < m.numStates := by
  obtain ⟨row, hrow, ht⟩ := Option.bind_eq_some_iff.mp ht
  obtain ⟨hp, hr⟩ := h.table_ok (p, row) (SortedMap.mem_entries_iff.mpr hrow)
  obtain ⟨ha, hq⟩ := hr (a, t) (SortedMap.mem_entries_iff.mpr ht)
  exact ⟨hp, ha, hq⟩

end Machine

end Automata
