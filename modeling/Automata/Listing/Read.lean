import Automata.Draft
import Automata.Listing.Error
import Automata.Text.Lines
import Automata.Text.Numeral

/-!
# Listing/Read — reading the listing of an automaton

A listing is a stream of tokens: the states, the symbols, the transitions, the initial state and
the final states, all but the initial state behind their number.  A transition of a deterministic
automaton is three tokens.  A group of transitions of a nondeterministic automaton is a source, a
symbol and every token left on the line of the symbol; the number of transitions counts targets,
and the groups end when it is used up.

Reading yields the declarations of the listing in the order they stand there, so a listing means
the draft that these declarations make.
-/

namespace Automata.Listing

open Text (Lines)

/-- What reading leads to.  A part of a listing yields a value and the lines that are left, where
the first of them is what is left of the line being read. -/
abbrev Outcome := Except ListingError

/-! ## Tokens -/

/-- The next token, on whichever line it is. -/
def next (item : Item) : Lines → Outcome (String × Lines)
  | [] => .error (.endOfInput item)
  | [] :: ls => next item ls
  | (t :: l) :: ls => .ok (t, l :: ls)

/-- The tokens left on the line being read, of which there must be one. -/
def restOfLine (item : Item) : Lines → Outcome ((String × List String) × Lines)
  | (t :: l) :: ls => .ok ((t, l), [] :: ls)
  | _ => .error (.endOfInput item)

/-- Checks that no token is left. -/
def finish : Lines → Outcome Unit
  | [] => .ok ()
  | [] :: ls => finish ls
  | (t :: _) :: _ => .error (.trailingInput t)

def readCount (item : Item) (ls : Lines) : Outcome (Nat × Lines) := do
  let (t, ls) ← next item ls
  match Text.Numeral.read? t with
  | some n => .ok (n, ls)
  | none => .error (.invalidCount t)

def readSymbol (ls : Lines) : Outcome (Symbol × Lines) := do
  let (t, ls) ← next .symbol ls
  match t.toList with
  | [a] => .ok (a, ls)
  | _ => .error (.invalidSymbol t)

/-- Reads a part of a listing a number of times. -/
def readMany {α : Type} (read : Lines → Outcome (α × Lines)) : Nat → Lines → Outcome (List α × Lines)
  | 0, ls => .ok ([], ls)
  | n + 1, ls => do
    let (x, ls) ← read ls
    let (xs, ls) ← readMany read n ls
    .ok (x :: xs, ls)

/-! ## Transitions -/

/-- One transition, three tokens. -/
def readTransition (ls : Lines) : Outcome (Transition × Lines) := do
  let (p, ls) ← next .source ls
  let (a, ls) ← readSymbol ls
  let (q, ls) ← next .target ls
  .ok (⟨p, a, q⟩, ls)

/-- Groups of transitions, until `remaining` targets are read; `declared` is the number there
should be in all. -/
def readGroups (declared remaining : Nat) (ls : Lines) : Outcome (List Transition × Lines) :=
  match remaining with
  | 0 => .ok ([], ls)
  | n + 1 => do
    let (p, ls) ← next .source ls
    let (a, ls) ← readSymbol ls
    let ((q, qs), ls) ← restOfLine .targets ls
    if n < qs.length then .error (.invalidCount (Text.Numeral.write declared))
    else
      let (ts, ls) ← readGroups declared (n - qs.length) ls
      .ok ((q :: qs).map (⟨p, a, ·⟩) ++ ts, ls)
termination_by remaining
decreasing_by exact Nat.lt_succ_of_le (Nat.sub_le n qs.length)

/-- How the transitions of a kind of automaton are listed. -/
class Layout (τ : Type) where
  /-- Reads a number of transitions. -/
  readTransitions : Nat → Lines → Outcome (List Transition × Lines)
  /-- What listing a transition declares. -/
  declarations : Transition → List Declaration

/-- A listed transition of a deterministic automaton declares its symbol. -/
instance : Layout StateId where
  readTransitions := readMany readTransition
  declarations t := [.symbol t.symbol, .transition t]

/-- A listed transition of a nondeterministic automaton declares no symbol. -/
instance : Layout (List StateId) where
  readTransitions n := readGroups n n
  declarations t := [.transition t]

/-! ## Listings -/

variable (τ : Type) [Layout τ]

/-- The declarations of a listing. -/
def readLines (ls : Lines) : Outcome (List Declaration) := do
  let (n, ls) ← readCount .stateCount ls
  let (states, ls) ← readMany (next .state) n ls
  let (n, ls) ← readCount .symbolCount ls
  let (symbols, ls) ← readMany readSymbol n ls
  let (n, ls) ← readCount .transitionCount ls
  let (transitions, ls) ← Layout.readTransitions τ n ls
  let (initial, ls) ← next .initial ls
  let (n, ls) ← readCount .finalCount ls
  let (finals, ls) ← readMany (next .final) n ls
  finish ls
  .ok (states.map .state ++ symbols.map .symbol ++ transitions.flatMap (Layout.declarations τ) ++
    .initial initial :: finals.map .final)

/-- The draft a text lists. -/
def readDraft [Target τ] (t : String) : Outcome (Draft τ) :=
  (readLines τ (Lines.ofText t)).map Draft.ofDeclarations

end Automata.Listing
