import Automata.Text.Quoted

/-!
# Listing/Error — what a listing can fail to read for

Reading stops at the first token that does not fit what is expected at its place.
-/

namespace Automata

/-- What is expected at a place of a listing. -/
inductive Item where
  | stateCount
  | state
  | symbolCount
  | symbol
  | transitionCount
  | source
  | target
  | targets
  | initial
  | finalCount
  | final
deriving DecidableEq

def Item.name : Item → String
  | stateCount => "number of states"
  | state => "state"
  | symbolCount => "number of symbols"
  | symbol => "symbol"
  | transitionCount => "number of transitions"
  | source => "transition source"
  | target => "transition target"
  | targets => "transition targets"
  | initial => "initial state"
  | finalCount => "number of final states"
  | final => "final state"

/-- Why a listing cannot be read. -/
inductive ListingError where
  /-- The tokens run out where an item is expected. -/
  | endOfInput (item : Item)
  /-- A token that is no count, or a count that the targets overrun. -/
  | invalidCount (token : String)
  /-- A token of more than one character where a symbol is expected. -/
  | invalidSymbol (token : String)
  /-- The first token behind a complete listing. -/
  | trailingInput (token : String)
deriving DecidableEq

def ListingError.message : ListingError → String
  | endOfInput i => "Unexpected end of input while reading " ++ i.name
  | invalidCount t => "Expected a count, found " ++ Text.quoteToken t
  | invalidSymbol t => "Expected a single-character symbol, found " ++ Text.quoteToken t
  | trailingInput t => "Unexpected trailing input " ++ Text.quoteToken t

end Automata
