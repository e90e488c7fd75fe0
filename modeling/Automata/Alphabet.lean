import Automata.Sorted.Set

/-!
# Alphabet — symbols and the alphabet an automaton reads

A symbol is one character, and an alphabet is the ascending set of its symbols, so every algorithm
that walks over an alphabet meets the symbols by code point, whatever the order they were
declared in.
-/

namespace Automata

/-- What an automaton reads in one step. -/
abbrev Symbol := Char

/-- The symbols an automaton knows. -/
abbrev Alphabet := SortedSet Symbol

namespace Alphabet

/-- The alphabet of the characters of a text. -/
def ofString (s : String) : Alphabet := SortedSet.ofList s.toList

/-- The symbols, ascending, as one text. -/
def toString (A : Alphabet) : String := String.ofList A.toList

/-- Adds every character of a text. -/
def extend (A : Alphabet) (s : String) : Alphabet := A.insertAll s.toList

/-- Adds one symbol, and tells whether it is new. -/
def add (A : Alphabet) (a : Symbol) : Bool × Alphabet := (!decide (a ∈ A), A.insert a)

end Alphabet

end Automata
