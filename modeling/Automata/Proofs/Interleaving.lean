import Automata.Proofs.Indexed.Calls

/-!
# Proofs/Interleaving — declarations of different kinds do not disturb one another

A declaration changes one field of a draft and reads no other, so a draft depends on the declarations
of each kind apart, and not on how the kinds are interleaved; of the symbols the set counts, of the
initial states the last (`Draft.declareAll_eq_of_agree`).  The indexes of a register follow its
lists, so they do not depend on more (`ofCalls_eq_of_agree`).
-/

namespace Automata

attribute [ext] Draft

/-- **The same is declared of each kind** — the same states, final states and transitions in the
same order, the same initial state at last, and the same symbols in any order and number. -/
structure Declaration.AgreeByKind (l m : List Declaration) : Prop where
  states_eq : l.filterMap state? = m.filterMap state?
  finals_eq : l.filterMap final? = m.filterMap final?
  transitions_eq : l.filterMap transition? = m.filterMap transition?
  initial_eq : (l.filterMap initial?).getLast? = (m.filterMap initial?).getLast?
  mem_symbols_iff : ∀ a, symbol a ∈ l ↔ symbol a ∈ m

open Declaration (AgreeByKind)

variable {τ : Type} [Target τ] {l m : List Declaration}

/-- **From any draft on**, what is declared of each kind decides what becomes of it. -/
theorem Draft.declareAll_eq_of_agree (h : AgreeByKind l m) (b : Draft τ) :
    b.declareAll l = b.declareAll m := by
  refine Draft.ext ?states ?alphabet ?initial ?finals ?transitions
  case states => rw [states_declareAll, states_declareAll, h.states_eq]
  case alphabet =>
    have hsymbols : ∀ a, a ∈ l.filterMap Declaration.symbol? ↔ a ∈ m.filterMap Declaration.symbol? :=
      fun a => by
        rw [Declaration.mem_filterMap_iff Declaration.symbol?_eq_some_iff,
          Declaration.mem_filterMap_iff Declaration.symbol?_eq_some_iff, h.mem_symbols_iff]
    rw [alphabet_declareAll, alphabet_declareAll]
    exact SortedSet.ext_mem fun a => by
      rw [SortedSet.mem_insertAll, SortedSet.mem_insertAll, hsymbols]
  case initial =>
    rw [initial_declareAll, initial_declareAll, foldl_some_eq, foldl_some_eq, h.initial_eq]
  case finals => rw [finals_declareAll, finals_declareAll, h.finals_eq]
  case transitions => rw [transitions_declareAll, transitions_declareAll, h.transitions_eq]

/-- The indexes do not depend on more than the lists they follow. -/
theorem Register.ofDeclarations_eq_of_agree (h : AgreeByKind l m) :
    (ofDeclarations l : Register τ) = ofDeclarations m := by
  have hdrafts : (Draft.ofDeclarations l : Draft τ) = .ofDeclarations m :=
    Draft.declareAll_eq_of_agree h {}
  exact eq_of_mirrors (mirrors_ofDeclarations l) (hdrafts ▸ mirrors_ofDeclarations m)
    (indexed_ofDeclarations l) (indexed_ofDeclarations m)

/-- **Calls that declare the same of each kind make equal drafts and equal registers**, however they
are interleaved and grouped, and these are checked and built alike. -/
theorem ofCalls_eq_of_agree {cs ds : List Call}
    (h : AgreeByKind (Call.allDeclarations cs) (Call.allDeclarations ds)) :
    (Draft.ofCalls cs : Draft τ) = .ofCalls ds ∧ (Register.ofCalls cs : Register τ) = .ofCalls ds ∧
    (Draft.ofCalls cs : Draft τ).verify = (Draft.ofCalls ds : Draft τ).verify ∧
    (Draft.ofCalls cs : Draft τ).build = (Draft.ofCalls ds : Draft τ).build := by
  have hdrafts : (Draft.ofCalls cs : Draft τ) = .ofCalls ds := by
    rw [Draft.ofCalls_eq, Draft.ofCalls_eq]
    exact Draft.declareAll_eq_of_agree h {}
  have hregisters : (Register.ofCalls cs : Register τ) = .ofCalls ds := by
    rw [Register.ofCalls_eq, Register.ofCalls_eq, Register.ofDeclarations_eq_of_agree h]
  exact ⟨hdrafts, hregisters, by rw [hdrafts], by rw [hdrafts]⟩

/-- States first, and then what refers to them. -/
def forwards : List Call :=
  [.states ["A", "B"], .symbols ['a', 'b'], .one (.initial "A"), .one (.final "B"),
    .one (.transition ⟨"A", 'a', "B"⟩), .one (.transition ⟨"A", 'a', "A"⟩)]

/-- The same the other way round, and an initial state that is given up. -/
def backwards : List Call :=
  [.one (.initial "C"), .one (.transition ⟨"A", 'a', "B"⟩), .finals ["B"], .symbols ['b', 'a', 'b'],
    .one (.transition ⟨"A", 'a', "A"⟩), .one (.initial "A"), .one (.state "A"), .one (.state "B")]

theorem ofCalls_eq_of_agree_backwards :
    (Register.ofCalls forwards : Register StateId) = .ofCalls backwards ∧
    (Draft.ofCalls forwards : Draft (List StateId)).build = (Draft.ofCalls backwards).build := by
  have hto : ∀ x ∈ Call.allDeclarations forwards, x.symbol?.isSome →
      x ∈ Call.allDeclarations backwards := by decide
  have hfrom : ∀ x ∈ Call.allDeclarations backwards, x.symbol?.isSome →
      x ∈ Call.allDeclarations forwards := by decide
  have hagree : AgreeByKind (Call.allDeclarations forwards) (Call.allDeclarations backwards) :=
    ⟨rfl, rfl, rfl, rfl, fun a => ⟨fun h => hto _ h rfl, fun h => hfrom _ h rfl⟩⟩
  exact ⟨(ofCalls_eq_of_agree hagree).2.1, (ofCalls_eq_of_agree hagree).2.2.2⟩

end Automata
