import Automata.Proofs.Reachability

/-!
# Proofs/Separation — states that some word tells apart

A word separates two states if it leads just one of them to a final state.  Two states are
separated exactly when just one of them is final or some symbol leads them to separated states
(`separated_iff`), which is how separated pairs are computed.  In a total automaton not being
separated is an equivalence (`not_separated_trans`), and a word over the alphabet that is accepted
from just one of two states is all it takes to separate them (`separated_iff_acceptsFrom_ne`).
-/

namespace Automata.Dfa

variable {d : Dfa} {p q r p' q' r' : StateId} {a : Symbol} {w : List Symbol}

/-- **Some word leads just one of two states to a final state.** -/
def Separated (d : Dfa) (p q : StateId) : Prop :=
  ∃ w p' q', d.runFrom p w = some p' ∧ d.runFrom q w = some q' ∧ d.isFinal p' ≠ d.isFinal q'

/-- Whether a word is read from a state and leads to a final one. -/
def acceptsFrom (d : Dfa) (p : StateId) (w : List Symbol) : Bool := (d.runFrom p w).any d.isFinal

/-- No two states do the same on all words. -/
def Reduced (d : Dfa) : Prop :=
  ∀ p < d.numStates, ∀ q < d.numStates, p ≠ q → d.Separated p q

theorem Separated.symm (h : d.Separated p q) : d.Separated q p := by
  obtain ⟨w, p', q', hp, hq, hne⟩ := h
  exact ⟨w, q', p', hq, hp, hne.symm⟩

theorem not_separated_self : ¬ d.Separated p p := by
  rintro ⟨w, p', q', hp, hq, hne⟩
  exact hne (congrArg d.isFinal (Option.some.inj (hp.symm.trans hq)))

/-- The empty word separates two states of which just one is final. -/
theorem separated_of_isFinal_ne (h : d.isFinal p ≠ d.isFinal q) : d.Separated p q :=
  ⟨[], p, q, rfl, rfl, h⟩

/-- States that a symbol leads to separated states are separated. -/
theorem Separated.of_next? (hp : d.next? p a = some p') (hq : d.next? q a = some q')
    (h : d.Separated p' q') : d.Separated p q := by
  obtain ⟨w, p₂, q₂, hp₂, hq₂, hne⟩ := h
  refine ⟨a :: w, p₂, q₂, ?_, ?_, hne⟩
  · rw [runFrom_cons, hp, Option.bind_some, hp₂]
  · rw [runFrom_cons, hq, Option.bind_some, hq₂]

/-- **What a word tells apart, it tells apart at its first symbol or after it.** -/
theorem separated_iff : d.Separated p q ↔ d.isFinal p ≠ d.isFinal q ∨
    ∃ a p' q', d.next? p a = some p' ∧ d.next? q a = some q' ∧ d.Separated p' q' := by
  constructor
  · rintro ⟨w, p₂, q₂, hp, hq, hne⟩
    cases w with
    | nil => exact .inl (Option.some.inj hp ▸ Option.some.inj hq ▸ hne)
    | cons a w =>
        rw [runFrom_cons] at hp hq
        obtain ⟨p', hp', hp⟩ := Option.bind_eq_some_iff.mp hp
        obtain ⟨q', hq', hq⟩ := Option.bind_eq_some_iff.mp hq
        exact .inr ⟨a, p', q', hp', hq', w, p₂, q₂, hp, hq, hne⟩
  · rintro (h | ⟨a, p', q', hp, hq, h⟩)
    · exact separated_of_isFinal_ne h
    · exact h.of_next? hp hq

/-- **In a total automaton a word that tells two states apart can be read from a third**, and ends
there in a state that differs from one of the two ends. -/
theorem exists_run_isFinal_ne (h : d.WellFormed) (ht : d.isTotal = true) (hq : q < d.numStates)
    (hp : d.runFrom p w = some p') (hne : d.isFinal p' ≠ d.isFinal r') :
    ∃ q', d.runFrom q w = some q' ∧ (d.isFinal p' ≠ d.isFinal q' ∨ d.isFinal q' ≠ d.isFinal r') := by
  obtain ⟨q', hq'⟩ := exists_runFrom h ht hq (mem_alphabet_of_runFrom h hp)
  refine ⟨q', hq', ?_⟩
  by_cases hpq : d.isFinal p' = d.isFinal q'
  · exact .inr fun e => hne (hpq.trans e)
  · exact .inl hpq

/-- **In a total automaton not being separated is transitive.** -/
theorem not_separated_trans (h : d.WellFormed) (ht : d.isTotal = true) (hq : q < d.numStates)
    (hpq : ¬ d.Separated p q) (hqr : ¬ d.Separated q r) : ¬ d.Separated p r := by
  rintro ⟨w, p', r', hp, hr, hne⟩
  obtain ⟨q', hq', hpq' | hqr'⟩ := exists_run_isFinal_ne h ht hq hp hne
  · exact hpq ⟨w, p', q', hp, hq', hpq'⟩
  · exact hqr ⟨w, q', r', hq', hr, hqr'⟩

/-- **In a total automaton states are separated by the words accepted from just one of them.** -/
theorem separated_iff_acceptsFrom_ne (h : d.WellFormed) (ht : d.isTotal = true)
    (hp : p < d.numStates) (hq : q < d.numStates) : d.Separated p q ↔
      ∃ w, (∀ a ∈ w, a ∈ d.alphabet) ∧ d.acceptsFrom p w ≠ d.acceptsFrom q w := by
  constructor
  · rintro ⟨w, p', q', hp', hq', hne⟩
    refine ⟨w, mem_alphabet_of_runFrom h hp', ?_⟩
    rwa [acceptsFrom, acceptsFrom, hp', hq', Option.any_some, Option.any_some]
  · rintro ⟨w, hw, hne⟩
    obtain ⟨p', hp'⟩ := exists_runFrom h ht hp hw
    obtain ⟨q', hq'⟩ := exists_runFrom h ht hq hw
    rw [acceptsFrom, acceptsFrom, hp', hq', Option.any_some, Option.any_some] at hne
    exact ⟨w, p', q', hp', hq', hne⟩

end Automata.Dfa
