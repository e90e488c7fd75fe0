import Automata.Binary.Payload
import Automata.Listing.Read

/-!
# Error — why an automaton cannot be made

An automaton comes from a draft, a listing or bytes.  `Error.isStructural` holds of the errors that
say its parts do not fit together, and `Error.isListing` of those that say a text is no listing.
-/

namespace Automata

/-- Why an automaton cannot be made. -/
inductive Error where
  | defect (e : Defect)
  | inconsistency (e : Inconsistency)
  | listing (e : ListingError)
  | decode (e : DecodeError)
deriving DecidableEq

namespace Error

def message : Error → String
  | defect e => e.message
  | inconsistency e => "Inconsistent automaton: " ++ e.message
  | listing e => e.message
  | decode e => "Deserialization failed: " ++ e.message

/-- Whether the parts of an automaton do not fit together. -/
def isStructural : Error → Bool
  | defect _ | inconsistency _ => true
  | listing _ | decode _ => false

/-- Whether a text is no listing. -/
def isListing : Error → Bool
  | listing _ => true
  | defect _ | inconsistency _ | decode _ => false

end Error

variable {τ : Type} [Target τ]

namespace Machine

/-- The automaton a draft declares. -/
def ofDraft (b : Draft τ) : Except Error (Machine τ) := b.build.mapError .defect

/-- The automaton a text lists. -/
def ofListing [Listing.Layout τ] (t : String) : Except Error (Machine τ) := do
  let b ← (Listing.readDraft τ t).mapError Error.listing
  ofDraft b

/-- The automaton at the front of some bytes; what follows it does not matter. -/
def ofBytes [Coded τ] (bs : List UInt8) : Except Error (Machine τ) := do
  let (v, _) ← (Payload.codec.decode bs).mapError Error.decode
  v.machine?.mapError Error.inconsistency

end Machine

end Automata
