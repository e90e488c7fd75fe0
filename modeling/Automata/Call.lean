import Automata.Draft

/-!
# Call — declarations made one at a time or several at once

A caller may declare one thing, or hand over several states, several symbols or several final states
at once.  Whatever is handed over at once is declared one after the other (`Draft.callAll_eq`), so
what a draft becomes depends on the declarations that were made and not on how they were grouped.
-/

namespace Automata

/-- One call on a draft: one declaration, or several of a kind that can be declared together. -/
inductive Call where
  | one (x : Declaration)
  | states (labels : List String)
  | symbols (l : List Symbol)
  | finals (labels : List String)
deriving DecidableEq

namespace Call

/-- What is declared by a call, in order. -/
def declarations : Call → List Declaration
  | one x => [x]
  | states ls => ls.map .state
  | symbols l => l.map .symbol
  | finals ls => ls.map .final

/-- What is declared by some calls, in order. -/
def allDeclarations (cs : List Call) : List Declaration := cs.flatMap declarations

end Call

namespace Draft

variable {τ : Type}

def insertStates (b : Draft τ) (ls : List String) : Draft τ := ls.foldl insertState b

/-- Adds all symbols to the alphabet in one go. -/
def insertSymbols (b : Draft τ) (l : List Symbol) : Draft τ :=
  { b with alphabet := b.alphabet.insertAll l }

def insertFinals (b : Draft τ) (ls : List String) : Draft τ := ls.foldl insertFinal b

theorem insertSymbols_eq : ∀ (l : List Symbol) (b : Draft τ),
    b.insertSymbols l = l.foldl insertSymbol b
  | [], _ => rfl
  | a :: l, b => insertSymbols_eq l (b.insertSymbol a)

variable [Target τ]

def call (b : Draft τ) : Call → Draft τ
  | .one x => b.declare x
  | .states ls => b.insertStates ls
  | .symbols l => b.insertSymbols l
  | .finals ls => b.insertFinals ls

def callAll (b : Draft τ) (cs : List Call) : Draft τ := cs.foldl call b

/-- The draft that some calls make. -/
def ofCalls (cs : List Call) : Draft τ := callAll {} cs

/-- What is handed over at once is declared one after the other. -/
theorem call_eq (b : Draft τ) (c : Call) : b.call c = b.declareAll c.declarations := by
  cases c with
  | one x => rfl
  | states ls | finals ls =>
      rw [Call.declarations, declareAll, List.foldl_map]
      rfl
  | symbols l =>
      rw [Call.declarations, declareAll, List.foldl_map]
      exact insertSymbols_eq l b

/-- **Only what was declared counts**, in its order. -/
theorem callAll_eq (cs : List Call) (b : Draft τ) :
    b.callAll cs = b.declareAll (Call.allDeclarations cs) := by
  rw [callAll, declareAll, Call.allDeclarations, List.foldl_flatMap]
  exact congrArg (List.foldl · b cs) (funext fun b => funext (call_eq b))

theorem ofCalls_eq (cs : List Call) :
    (ofCalls cs : Draft τ) = ofDeclarations (Call.allDeclarations cs) := callAll_eq cs {}

end Draft

end Automata
