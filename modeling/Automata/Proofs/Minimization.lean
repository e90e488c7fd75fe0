import Automata.Minimization
import Automata.Proofs.Minimize.Completion
import Automata.Proofs.Minimize.Quotient
import Automata.Proofs.Nerode
import Automata.Proofs.Subset

/-!
# Proofs/Minimization — minimizing keeps the language, in as few states as can be

The reachable part is completed and merged, and each stage hands on what the next one relies on, so
the result is minimal (`minimal_minimize`).  Words over the alphabet that froze are rejected, and no
other outcome changes (`evaluate_minimize`).  No automaton for the same words is smaller
(`numStates_minimize_le`), and automata for the same words are minimized to the same one, up to the
numbers of the states (`accepts_eq_iff_exists_renumbering`).
-/

namespace Automata.Dfa

variable {d e : Dfa} {w : List Symbol}

/-! ## The stages -/

theorem minimize_eq (d : Dfa) :
    d.minimize = d.trim.complete.quotient d.trim.complete.stateClasses := rfl

theorem unreachable_minimization (d : Dfa) : d.minimization.unreachable = d.unreachableLabels := rfl

theorem trap_minimization (d : Dfa) : d.minimization.trap = d.trim.trap? := rfl

@[simp] theorem alphabet_minimize (d : Dfa) : d.minimize.alphabet = d.alphabet := by
  rw [minimize_eq, alphabet_quotient, alphabet_complete, alphabet_trim]

/-- **The result of minimizing is minimal.** -/
theorem minimal_minimize (h : d.WellFormed) : d.minimize.Minimal := by
  have hc := wellFormed_complete (wellFormed_trim h)
  have ht := d.trim.isTotal_complete
  have hacc := accessible_complete (wellFormed_trim h) (accessible_trim h)
  exact ⟨wellFormed_quotient hc, isTotal_quotient hc ht, accessible_quotient hc ht hacc,
    reduced_quotient hc ht⟩

/-- Merging states shows on no word. -/
theorem evaluate_minimize_eq_complete (h : d.WellFormed) (w : List Symbol) :
    d.minimize.evaluate w = d.trim.complete.evaluate w :=
  evaluate_quotient (wellFormed_complete (wellFormed_trim h)) d.trim.isTotal_complete w

/-- Over the alphabet only freezing is lost. -/
theorem evaluate_minimize_of_forall_mem (h : d.WellFormed) (hw : ∀ a ∈ w, a ∈ d.alphabet) :
    d.minimize.evaluate w = if d.evaluate w = .accept then .accept else .reject := by
  rw [evaluate_minimize_eq_complete h, evaluate_complete (wellFormed_trim h) hw, evaluate_trim h]

/-- A symbol outside the alphabet freezes every run. -/
theorem evaluate_eq_frozen (h : d.WellFormed) (hw : ∃ a ∈ w, a ∉ d.alphabet) :
    d.evaluate w = .frozen := by
  obtain ⟨a, ha, hmem⟩ := hw
  refine evaluate_of_run_eq_none (Option.eq_none_iff_forall_ne_some.mpr fun q hq => ?_)
  exact hmem (mem_alphabet_of_runFrom h hq a ha)

/-- **Minimizing keeps the language.** -/
theorem accepts_minimize (h : d.WellFormed) (w : List Symbol) :
    d.minimize.accepts w = d.accepts w := by
  by_cases hw : ∀ a ∈ w, a ∈ d.alphabet
  · rw [accepts, accepts, evaluate_minimize_of_forall_mem h hw]
    cases d.evaluate w <;> rfl
  · have hw' : ∃ a ∈ w, a ∉ d.alphabet := by simpa using hw
    rw [accepts, accepts, evaluate_eq_frozen h hw',
      evaluate_eq_frozen (minimal_minimize h).wellFormed (by rwa [alphabet_minimize])]

/-- **Where no move is missing, no trap is added** and every outcome is kept. -/
theorem evaluate_minimize_of_total (h : d.WellFormed)
    (ht : ∀ s, (∃ v, d.run v = some s) → ∀ a ∈ d.alphabet, ∃ q, d.next? s a = some q)
    (w : List Symbol) : d.minimize.evaluate w = d.evaluate w := by
  have htrap := trap?_eq_none_iff.mpr ((isTotal_trim_iff h).mpr ht)
  rw [evaluate_minimize_eq_complete h, complete, htrap]
  exact evaluate_trim h w

/-! ## Automata that can be had -/

/-- **An automaton from outside, or one that an algorithm made.** -/
inductive Obtainable : Dfa → Prop
  | loaded {d : Dfa} (h : Machine.Loaded d) : Obtainable d
  | determinized {n : Nfa} (h : n.Loaded) : Obtainable n.determinize
  | minimized {d : Dfa} (h : Obtainable d) : Obtainable d.minimize

theorem Obtainable.wellFormed (h : d.Obtainable) : d.WellFormed := by
  induction h with
  | loaded h => exact h.wellFormed
  | determinized h => exact Nfa.wellFormed_determinize _
  | minimized _ ih => exact (minimal_minimize ih).wellFormed

/-- A partial automaton of the one-symbol word `a`. -/
def letter : Dfa :=
  (Draft.ofDeclarations [.state "A", .state "B", .symbol 'a', .initial "A", .final "B",
    .transition ⟨"A", 'a', "B"⟩]).machine

theorem obtainable_letter : letter.Obtainable := .loaded (Machine.loaded_machine (by decide))

/-! ## Minimal automata -/

/-- **Foreign symbols still freeze, acceptance stays, and all else is rejected.**  The language is
kept in any case, and every outcome where no reachable state lacks a move. -/
theorem evaluate_minimize (hd : d.Obtainable) :
    (∀ w, (∃ a ∈ w, a ∉ d.alphabet) → d.minimize.evaluate w = .frozen) ∧
    (∀ w, d.evaluate w = .accept → d.minimize.evaluate w = .accept) ∧
    (∀ w, (∀ a ∈ w, a ∈ d.alphabet) → d.evaluate w ≠ .accept →
      d.minimize.evaluate w = .reject) ∧
    (∀ w, d.accepts w = d.minimize.accepts w) ∧
    ((∀ s, (∃ v, d.run v = some s) → ∀ a ∈ d.alphabet, ∃ q, d.next? s a = some q) →
      ∀ w, d.minimize.evaluate w = d.evaluate w) := by
  have h := hd.wellFormed
  refine ⟨fun w hw => ?foreign, fun w hw => ?accept, fun w hw hne => ?reject,
    fun w => (accepts_minimize h w).symm, evaluate_minimize_of_total h⟩
  case foreign =>
    refine evaluate_eq_frozen (minimal_minimize h).wellFormed ?_
    rwa [alphabet_minimize]
  case accept =>
    obtain ⟨q, hq, -⟩ := evaluate_eq_accept_iff.mp hw
    rw [evaluate_minimize_of_forall_mem h (mem_alphabet_of_runFrom h hq), if_pos hw]
  case reject => rw [evaluate_minimize_of_forall_mem h hw, if_neg hne]

/-- A word that `letter` gets stuck on is rejected. -/
theorem evaluate_minimize_letter :
    letter.evaluate ['a', 'a'] = .frozen ∧ letter.minimize.evaluate ['a', 'a'] = .reject :=
  have hmem : ∀ a ∈ ['a', 'a'], a ∈ letter.alphabet := by
    intro a ha
    obtain rfl : a = 'a' := by simpa using ha
    decide
  ⟨by decide, (evaluate_minimize obtainable_letter).2.2.1 ['a', 'a'] hmem (by decide)⟩

/-- **The result is total, all of it is reachable, and no two of its states do the same** — so no
total automaton for the same words is smaller, and no partial one by more than the trap. -/
theorem numStates_minimize_le (hd : d.Obtainable) :
    d.minimize.alphabet = d.alphabet ∧ d.minimize.isTotal = true ∧
    (∀ s < d.minimize.numStates, ∃ w, d.minimize.run w = some s) ∧
    (∀ p < d.minimize.numStates, ∀ q < d.minimize.numStates, p ≠ q → d.minimize.Separated p q) ∧
    ∀ e : Dfa, e.WellFormed → e.alphabet = d.alphabet → (∀ w, e.accepts w = d.accepts w) →
      d.minimize.numStates ≤ if e.isTotal then e.numStates else e.numStates + 1 := by
  have h := hd.wellFormed
  have hm := minimal_minimize h
  refine ⟨d.alphabet_minimize, hm.isTotal, hm.accessible, hm.reduced, fun e he ha hde => ?_⟩
  have hde' : ∀ w, e.accepts w = d.minimize.accepts w := fun w => by
    rw [hde, accepts_minimize h]
  split
  · exact hm.numStates_le he ‹_› (by rw [ha, alphabet_minimize]) hde'
  · exact hm.numStates_le_succ he hde'

/-- Two states and the trap. -/
theorem numStates_minimize_letter_le : letter.minimize.numStates ≤ 3 :=
  (numStates_minimize_le obtainable_letter).2.2.2.2 letter (by decide) rfl fun _ => rfl

/-- **Automata over one alphabet accept the same words exactly when they are minimized to the same
automaton**, up to the numbers of its states. -/
theorem accepts_eq_iff_exists_renumbering (hd : d.Obtainable) (he : e.Obtainable)
    (halphabet : e.alphabet = d.alphabet) :
    (∀ w, d.accepts w = e.accepts w) ↔ ∃ f, d.minimize.Renumbering e.minimize f := by
  have hdm := minimal_minimize hd.wellFormed
  have hem := minimal_minimize he.wellFormed
  have halphabet' : e.minimize.alphabet = d.minimize.alphabet := by
    rw [alphabet_minimize, alphabet_minimize, halphabet]
  constructor
  · intro hde
    refine hdm.exists_renumbering hem halphabet' fun w => ?_
    rw [accepts_minimize he.wellFormed, accepts_minimize hd.wellFormed, hde]
  · rintro ⟨f, hf⟩ w
    have heval := hf.evaluate_eq hdm.wellFormed hem.wellFormed halphabet' w
    rw [← accepts_minimize hd.wellFormed, ← accepts_minimize he.wellFormed, accepts, accepts, heval]

/-- Minimizing once more changes numbers only. -/
theorem exists_renumbering_minimize_letter :
    ∃ f, letter.minimize.Renumbering letter.minimize.minimize f :=
  (accepts_eq_iff_exists_renumbering obtainable_letter (.minimized obtainable_letter)
    letter.alphabet_minimize).mp fun w => (accepts_minimize obtainable_letter.wellFormed w).symm

end Automata.Dfa
