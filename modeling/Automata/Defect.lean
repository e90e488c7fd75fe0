import Automata.State
import Automata.Text.Quoted

/-!
# Defect — what keeps parts from fitting together

A `Defect` is a label or symbol that a draft refers to and does not declare; an `Inconsistency` is
a position or symbol stored in a payload of bytes that does not fit the rest of it.
-/

namespace Automata

/-- A reference that a draft does not resolve. -/
inductive Defect where
  | missingInitial
  | unknownInitial (label : String)
  | unknownFinal (label : String)
  | unknownSource (label : String)
  | unknownSymbol (source : String) (symbol : Char)
  | unknownTarget (source : String) (symbol : Char) (target : String)
deriving DecidableEq

def Defect.message : Defect → String
  | missingInitial => "No initial state was set"
  | unknownInitial l => "Initial state " ++ l ++ " is not a known state"
  | unknownFinal l => "Final state " ++ l ++ " is not a known state"
  | unknownSource l => "Transition source " ++ l ++ " is not a known state"
  | unknownSymbol p a =>
    "Transition from " ++ p ++ " uses symbol " ++ Text.quoteSymbol a ++ " outside the alphabet"
  | unknownTarget p a q =>
    "Transition from " ++ p ++ " on " ++ Text.quoteSymbol a ++ " leads to unknown state " ++ q

/-- The part a state plays where its position is stored. -/
inductive Role where
  | initial
  | final
  | source
  | target
deriving DecidableEq

def Role.name : Role → String
  | initial => "initial state"
  | final => "final state"
  | source => "transition source"
  | target => "transition target"

/-- A stored value that does not fit the rest of a payload. -/
inductive Inconsistency where
  | unsortedAlphabet
  | stateOutOfRange (role : Role) (state : StateId) (numStates : Nat)
  | foreignSymbol (symbol : Char)
deriving DecidableEq

def Inconsistency.message : Inconsistency → String
  | unsortedAlphabet => "alphabet is not sorted and unique"
  | stateOutOfRange role s n => role.name ++ " " ++ s.render ++ " out of " ++ n.repr ++ " states"
  | foreignSymbol a => "transition symbol " ++ Text.quoteSymbol a ++ " outside the alphabet"

end Automata
