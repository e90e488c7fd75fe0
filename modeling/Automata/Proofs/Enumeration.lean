import Automata.Proofs.Minimization
import Automata.Proofs.Moves
import Mathlib.Algebra.Ring.Nat

/-!
# Proofs/Enumeration — every state and symbol is listed once, with its moves or without

The pairs of a state and a symbol are the places of a table (`Machine.places`).  A well-formed
automaton stores nothing anywhere else, so its transitions stand at the places that hold some move
(`Machine.mem_transitions_iff`), and the places of a deterministic one are shared out between its
transitions and its undefined transitions (`Dfa.length_transitions_add`).  So the moves stored are
as many as those listed, and an automaton is total exactly when there is one for each place:
`transitions_enumerate_moves`.
-/

namespace Automata

namespace Machine

variable {τ : Type} {m : Machine τ} {p : StateId} {a : Symbol}

/-! ## Places -/

/-- The pairs of a state and a symbol, by state and then by symbol. -/
def places (m : Machine τ) : List (StateId × Symbol) :=
  m.states.flatMap fun p => m.alphabet.toList.map (p, ·)

theorem mem_places : (p, a) ∈ m.places ↔ p < m.numStates ∧ a ∈ m.alphabet := by
  rw [← mem_states, ← SortedSet.mem_toList]
  exact List.mem_product

theorem length_places (m : Machine τ) : m.places.length = m.numStates * m.alphabet.size :=
  (List.length_product ..).trans (by rw [states, List.length_range, SortedSet.size])

/-- **Places come by state**, and then by symbol. -/
theorem pairwise_places (m : Machine τ) : m.places.Pairwise fun s t =>
    s.1 < t.1 ∨ s.1 = t.1 ∧ s.2.toNat < t.2.toNat := by
  refine List.pairwise_flatMap.mpr ⟨fun p _ => ?row, List.pairwise_lt_range.imp fun hpq => ?rows⟩
  case row => exact List.pairwise_map.mpr (m.alphabet.ascending.imp fun hab => .inr ⟨rfl, hab⟩)
  case rows =>
    intro s hs t ht
    obtain ⟨_, -, rfl⟩ := List.mem_map.mp hs
    obtain ⟨_, -, rfl⟩ := List.mem_map.mp ht
    exact .inl hpq

/-! ## Moves listed -/

variable [Target τ]

/-- **Exactly the entries that lead somewhere are listed.** -/
theorem mem_transitions_iff (h : m.WellFormed) {t : τ} :
    (p, a, t) ∈ m.transitions ↔ m.entry? p a = some t ∧ Target.states t ≠ [] := by
  simp only [transitions, List.mem_flatMap, List.mem_filterMap, Option.map_eq_some_iff,
    Option.filter_eq_some_iff, Prod.mk.injEq, mem_states, SortedSet.mem_toList]
  constructor
  · rintro ⟨_, -, _, -, _, ⟨ht, hne⟩, rfl, rfl, rfl⟩
    exact ⟨ht, by simpa using hne⟩
  · rintro ⟨ht, hne⟩
    obtain ⟨hp, ha, -⟩ := h.of_entry? ht
    exact ⟨p, hp, a, ha, t, ⟨ht, by simpa using hne⟩, rfl, rfl, rfl⟩

/-- **The number of stored moves adds up over what is listed.** -/
theorem transitionCount_eq_sum (h : m.WellFormed) :
    m.transitionCount = (m.transitions.map fun t => (Target.states t.2.2).length).sum := by
  rw [← length_moves h, moves, List.length_flatMap]
  simp only [List.length_map]

end Machine

namespace Dfa

variable {d : Dfa} {p q : StateId} {a : Symbol}

theorem mem_transitions_iff_next? (h : d.WellFormed) :
    (p, a, q) ∈ d.transitions ↔ d.next? p a = some q :=
  (Machine.mem_transitions_iff h).trans (and_iff_left (List.cons_ne_nil q []))

/-- **Transitions stand at the places that have a move.** -/
theorem map_place_transitions (d : Dfa) : (d.transitions.map fun t => (t.1, t.2.1)) =
    d.places.filter fun k => (d.next? k.1 k.2).isSome := by
  have hrow : ∀ p, (d.alphabet.toList.filterMap fun a =>
      (((d.next? p a).filter fun t => !(Target.states t).isEmpty).map fun t => (p, a, t)).map
        fun t => (t.1, t.2.1)) =
      (d.alphabet.toList.map (p, ·)).filter fun k => (d.next? k.1 k.2).isSome := by
    intro p
    induction d.alphabet.toList with
    | nil => rfl
    | cons a l ih =>
        rw [List.filterMap_cons, ih, List.map_cons, List.filter_cons]
        cases d.next? p a <;> simp [Option.filter_some]
  rw [Machine.transitions, List.map_flatMap, Machine.places, List.filter_flatMap]
  refine List.flatMap_congr fun p _ => ?_
  rw [List.map_filterMap]
  exact hrow p

/-- **Undefined transitions are the places without one.** -/
theorem undefinedTransitions_eq_filter (d : Dfa) :
    d.undefinedTransitions = d.places.filter fun k => !(d.next? k.1 k.2).isSome := by
  rw [undefinedTransitions, Machine.places, List.filter_flatMap]
  refine List.flatMap_congr fun p _ => ?_
  rw [List.filter_map]
  simp only [Function.comp_def, Option.not_isSome]

/-- **Each place has a transition or lacks one.** -/
theorem length_transitions_add (d : Dfa) :
    d.transitions.length + d.undefinedTransitions.length = d.numStates * d.alphabet.size := by
  have hsplit := d.places.length_eq_length_filter_add fun k => (d.next? k.1 k.2).isSome
  rwa [d.length_places, ← map_place_transitions, ← undefinedTransitions_eq_filter, List.length_map,
    eq_comm] at hsplit

theorem mem_undefinedTransitions_iff : (p, a) ∈ d.undefinedTransitions ↔
    p < d.numStates ∧ a ∈ d.alphabet ∧ d.next? p a = none := by
  rw [undefinedTransitions_eq_filter, List.mem_filter, Machine.mem_places, and_assoc,
    Option.not_isSome, Option.isNone_iff_eq_none]

theorem transitionCount_eq_length (h : d.WellFormed) :
    d.transitionCount = d.transitions.length := by
  rw [← Machine.length_moves h, moves_eq_transitions]

end Dfa

/-- A state and a symbol stand at a place exactly when they lead to the states listed there. -/
theorem Nfa.mem_transitions_iff_successors {n : Nfa} (h : n.WellFormed) {p : StateId} {a : Symbol}
    {l : List StateId} : (p, a, l) ∈ n.transitions ↔ n.successors p a = l ∧ l ≠ [] := by
  rw [Machine.mem_transitions_iff h, successors, Machine.targets]
  cases n.entry? p a with
  | none => simp [eq_comm]
  | some t => simp

/-- **Transitions are listed completely, each once and in order, and their number is known.**  In a
deterministic automaton a state and a symbol are listed either with the state they lead to or as
undefined, so the two lists share out all states and symbols, and none is undefined exactly when
there are as many moves as states times symbols.  In a nondeterministic one they are listed if they
lead anywhere, and each state led to counts. -/
theorem transitions_enumerate_moves :
    (∀ d : Dfa, d.WellFormed →
      (∀ p a q, (p, a, q) ∈ d.transitions ↔ d.next? p a = some q) ∧
      (d.transitions.Pairwise fun s t => s.1 < t.1 ∨ s.1 = t.1 ∧ s.2.1.toNat < t.2.1.toNat) ∧
      (∀ p a, (p, a) ∈ d.undefinedTransitions ↔
        p < d.numStates ∧ a ∈ d.alphabet ∧ d.next? p a = none) ∧
      (d.undefinedTransitions.Pairwise fun s t =>
        s.1 < t.1 ∨ s.1 = t.1 ∧ s.2.toNat < t.2.toNat) ∧
      d.transitionCount = d.transitions.length ∧
      d.transitions.length + d.undefinedTransitions.length = d.numStates * d.alphabet.size ∧
      (d.isTotal = true ↔ d.transitionCount = d.numStates * d.alphabet.size)) ∧
    ∀ n : Nfa, n.WellFormed →
      (∀ p a l, (p, a, l) ∈ n.transitions ↔ n.successors p a = l ∧ l ≠ []) ∧
      (n.transitions.Pairwise fun s t => s.1 < t.1 ∨ s.1 = t.1 ∧ s.2.1.toNat < t.2.1.toNat) ∧
      n.transitionCount = (n.transitions.map fun t => t.2.2.length).sum := by
  refine ⟨fun d h => ⟨fun p a q => Dfa.mem_transitions_iff_next? h, Machine.pairwise_transitions,
    fun p a => Dfa.mem_undefinedTransitions_iff, ?ordered, Dfa.transitionCount_eq_length h,
    d.length_transitions_add, ?total⟩, fun n h =>
    ⟨fun p a l => Nfa.mem_transitions_iff_successors h, Machine.pairwise_transitions,
      Machine.transitionCount_eq_sum h⟩⟩
  case ordered =>
    rw [Dfa.undefinedTransitions_eq_filter]
    exact d.pairwise_places.filter _
  case total =>
    have hlength := d.length_transitions_add
    rw [Dfa.isTotal, List.isEmpty_iff_length_eq_zero, Dfa.transitionCount_eq_length h]
    omega

/-- On `a` the first state leads to the second twice, on `b` nowhere, and the second state has a row
without entries. -/
def Nfa.stuttering : Nfa :=
  ⟨["A", "B"], SortedSet.ofList ['a', 'b'], 0, ∅,
    SortedMap.ofEntries [(0, SortedMap.ofEntries [('a', [1, 1]), ('b', [])]), (1, ∅)]⟩

/-- `stuttering` is decoded from bytes: both targets of its one transition count.  Of the two places
of `letter` one has a move. -/
theorem transitions_enumerate_moves_stuttering :
    Machine.ofBytes [2, 1, 65, 1, 66, 2, 97, 98, 0, 0, 2, 0, 2, 97, 2, 1, 1, 98, 0, 1, 0] =
      .ok Nfa.stuttering ∧
    (0, 'a', [1, 1]) ∈ Nfa.stuttering.transitions ∧ Nfa.stuttering.transitionCount = 2 ∧
    (0, 'a', 1) ∈ Dfa.letter.transitions ∧ (1, 'a') ∈ Dfa.letter.undefinedTransitions ∧
    Dfa.letter.transitions.length + Dfa.letter.undefinedTransitions.length = 2 := by
  obtain ⟨hlisted, -, hsum⟩ := transitions_enumerate_moves.2 Nfa.stuttering (by decide)
  obtain ⟨hmove, -, hundefined, -, -, hlength, -⟩ :=
    transitions_enumerate_moves.1 Dfa.letter (by decide)
  exact ⟨by decide, (hlisted _ _ _).mpr ⟨by decide, by decide⟩, hsum.trans (by decide),
    (hmove _ _ _).mpr (by decide), (hundefined _ _).mpr (by decide), hlength⟩

end Automata
