import Automata.Defect
import Automata.Machine

/-!
# Draft — declarations collected until they make an automaton

A draft takes declarations in any order and refers to states by label.  Nothing is repaired: the
`defects` of a draft are all references it does not resolve, and `Draft.build` makes a machine
exactly when there are none, and otherwise reports the first.

The kinds of declaration do not disturb one another, repeated states and final states count once,
and the last initial state counts.  Where a state and a symbol may lead to one state only, the
first transition declared for them counts and later ones leave no trace.
-/

namespace Automata

/-- A transition between labelled states. -/
structure Transition where
  source : String
  symbol : Symbol
  target : String
deriving DecidableEq

/-- One thing said about an automaton. -/
inductive Declaration where
  | state (label : String)
  | symbol (a : Symbol)
  | initial (label : String)
  | final (label : String)
  | transition (t : Transition)
deriving DecidableEq

/-- What was declared so far of a `Machine τ`. -/
structure Draft (τ : Type) where
  states : List String := []
  alphabet : Alphabet := ∅
  initial : Option String := none
  finals : List String := []
  transitions : List Transition := []
deriving DecidableEq

/-- Puts a label at the end of a list, unless it is on it. -/
def appendNew (labels : List String) (l : String) : List String :=
  if l ∈ labels then labels else labels ++ [l]

namespace Draft

variable {τ : Type}

instance : Inhabited (Draft τ) := ⟨{}⟩

/-! ## Declaring -/

/-- Whether a transition from a state on a symbol was recorded. -/
def defines (b : Draft τ) (source : String) (a : Symbol) : Bool :=
  b.transitions.any fun t => t.source == source && t.symbol == a

/-- Puts a label at the end of the states, unless it is one.  How many there are is not limited here;
that a state has a handle only below `StateId.limit` is said by `Register.ofDeclarations?`. -/
def insertState (b : Draft τ) (l : String) : Draft τ :=
  { b with states := appendNew b.states l }

def insertSymbol (b : Draft τ) (a : Symbol) : Draft τ :=
  { b with alphabet := b.alphabet.insert a }

def setInitial (b : Draft τ) (l : String) : Draft τ := { b with initial := some l }

def insertFinal (b : Draft τ) (l : String) : Draft τ :=
  { b with finals := appendNew b.finals l }

/-- Records a transition; without branching, only the first from a state on a symbol. -/
def insertTransition [Target τ] (b : Draft τ) (t : Transition) : Draft τ :=
  if !Target.branching τ && b.defines t.source t.symbol then b
  else { b with transitions := b.transitions ++ [t] }

def declare [Target τ] (b : Draft τ) : Declaration → Draft τ
  | .state l => b.insertState l
  | .symbol a => b.insertSymbol a
  | .initial l => b.setInitial l
  | .final l => b.insertFinal l
  | .transition t => b.insertTransition t

def declareAll [Target τ] (b : Draft τ) (l : List Declaration) : Draft τ := l.foldl declare b

/-- The draft that a list of declarations makes. -/
def ofDeclarations [Target τ] (l : List Declaration) : Draft τ := declareAll {} l

/-! ## Checking -/

/-- Whether a label was declared. -/
def knows (b : Draft τ) (l : String) : Bool := decide (l ∈ b.states)

def initialDefects (b : Draft τ) : List Defect :=
  match b.initial with
  | none => [.missingInitial]
  | some l => if b.knows l then [] else [.unknownInitial l]

def finalDefects (b : Draft τ) : List Defect :=
  (b.finals.filter fun l => !b.knows l).map .unknownFinal

/-- The defects of one transition: its source, its symbol, its target. -/
def transitionDefects (b : Draft τ) (t : Transition) : List Defect :=
  (if b.knows t.source then [] else [.unknownSource t.source]) ++
  (if t.symbol ∈ b.alphabet then [] else [.unknownSymbol t.source t.symbol]) ++
  (if b.knows t.target then [] else [.unknownTarget t.source t.symbol t.target])

/-- Every reference that is not resolved: the initial state, the final states, the transitions. -/
def defects (b : Draft τ) : List Defect :=
  b.initialDefects ++ b.finalDefects ++ b.transitions.flatMap b.transitionDefects

/-- Reports the first defect. -/
def verify (b : Draft τ) : Except Defect Unit :=
  match b.defects with
  | [] => .ok ()
  | e :: _ => .error e

def isValid (b : Draft τ) : Bool := b.defects.isEmpty

/-! ## Building -/

/-- The state with a declared label. -/
def stateId (b : Draft τ) (l : String) : StateId := b.states.idxOf l

/-- Records that a state and a symbol lead to a state. -/
def record [Target τ] (table : Table τ) (p : StateId) (a : Symbol) (q : StateId) : Table τ :=
  table.update p fun row => (row.getD ∅).update a fun t => Target.record t q

/-- The moves the transitions make. -/
def table [Target τ] (b : Draft τ) : Table τ :=
  b.transitions.foldl
    (fun table t => record table (b.stateId t.source) t.symbol (b.stateId t.target)) ∅

/-- The machine a draft without defects makes. -/
def machine [Target τ] (b : Draft τ) : Machine τ where
  labels := b.states
  alphabet := b.alphabet
  initial := b.stateId (b.initial.getD "")
  finals := SortedSet.ofList (b.finals.map b.stateId)
  table := b.table

/-- Makes a machine, or reports the first defect. -/
def build [Target τ] (b : Draft τ) : Except Defect (Machine τ) :=
  b.verify.map fun _ => b.machine

/-- A draft is valid exactly when it verifies. -/
theorem verify_eq_ok_iff (b : Draft τ) : b.verify = .ok () ↔ b.isValid = true := by
  rw [verify, isValid]
  cases b.defects <;> simp

end Draft

end Automata
