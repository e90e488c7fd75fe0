import Automata.Binary.Codec
import Automata.Defect
import Automata.Machine

/-!
# Binary/Payload — automata as bytes

A payload is an automaton as its bytes give it: labels, alphabet, initial state, final states and
table, in this order, where nothing is known to fit together.  `Payload.machine?` makes it a
machine exactly when it has no `inconsistencies`, and otherwise reports the first.
-/

namespace Automata

/-- The parts of an automaton, as they were decoded. -/
structure Payload (τ : Type) where
  labels : List String
  alphabet : List Symbol
  initial : StateId
  finals : StateSet
  table : Table τ
deriving DecidableEq

/-- A target that can be written to bytes. -/
class Coded (τ : Type) where
  codec : Codec τ

instance : Coded StateId := ⟨Codec.stateId⟩

instance : Coded (List StateId) := ⟨Codec.list Codec.stateId⟩

/-- The alphabet of a payload is a list of symbols in any order. -/
def Codec.symbols : Codec (List Symbol) := Codec.list Codec.symbol

namespace Payload

variable {τ : Type}

/-- The five parts in the order they are written. -/
def codec [Coded τ] : Codec (Payload τ) :=
  ((Codec.list Codec.text).pair <| Codec.symbols.pair <| Codec.stateId.pair <|
    (Codec.set Codec.stateId).pair <|
      Codec.map Codec.stateId (Codec.map Codec.symbol Coded.codec)).via
    (fun (labels, alphabet, initial, finals, table) => ⟨labels, alphabet, initial, finals, table⟩)
    (fun v => (v.labels, v.alphabet, v.initial, v.finals, v.table))

/-- The parts of a machine. -/
def ofMachine (m : Machine τ) : Payload τ :=
  ⟨m.labels, m.alphabet.toList, m.initial, m.finals, m.table⟩

/-! ## Checking -/

/-- Whether symbols are strictly ascending. -/
def isAscending (l : List Symbol) : Bool := (l.zip l.tail).all fun p => p.1.toNat < p.2.toNat

/-- A state out of range, in the part it plays. -/
def checkState (v : Payload τ) (role : Role) (s : StateId) : List Inconsistency :=
  if s < v.labels.length then [] else [.stateOutOfRange role s v.labels.length]

/-- What does not fit in an entry of a row: its symbol, its targets. -/
def checkEntry [Target τ] (v : Payload τ) (e : Symbol × τ) : List Inconsistency :=
  (if e.1 ∈ v.alphabet then [] else [.foreignSymbol e.1]) ++
    (Target.states e.2).flatMap (v.checkState .target)

/-- What does not fit in a row: its state, its entries. -/
def checkRow [Target τ] (v : Payload τ) (r : StateId × Row τ) : List Inconsistency :=
  v.checkState .source r.1 ++ r.2.entries.flatMap v.checkEntry

/-- Everything that does not fit: in the alphabet, the initial state, the final states, the
table. -/
def inconsistencies [Target τ] (v : Payload τ) : List Inconsistency :=
  (if isAscending v.alphabet then [] else [.unsortedAlphabet]) ++
    v.checkState .initial v.initial ++ v.finals.toList.flatMap (v.checkState .final) ++
    v.table.entries.flatMap v.checkRow

/-- The machine a payload without inconsistencies is. -/
def machine (v : Payload τ) : Machine τ :=
  ⟨v.labels, SortedSet.ofList v.alphabet, v.initial, v.finals, v.table⟩

/-- Makes a machine, or reports the first inconsistency. -/
def machine? [Target τ] (v : Payload τ) : Except Inconsistency (Machine τ) :=
  match v.inconsistencies with
  | [] => .ok v.machine
  | e :: _ => .error e

end Payload

/-- An automaton as bytes. -/
def Machine.toBytes {τ : Type} [Coded τ] (m : Machine τ) : List UInt8 :=
  Payload.codec.encode (Payload.ofMachine m)

end Automata
