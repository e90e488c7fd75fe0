import Automata.Proofs.Branching
import Automata.Proofs.Listing.Groups

/-!
# Proofs/Listing/Singletons — a deterministic automaton read as one that branches

A line of the listing of a deterministic automaton is a group with one target, so an automaton that
branches is read from it whose lists of targets have one member each (`Dfa.ofListing_listing_toNfa`).
Reading a word it is in one state or in none (`Dfa.read_toNfa`), and what follows a singleton are
the singletons of what follows its member (`Dfa.successorSets_toNfa`).  So the subset construction
searches as the search for reachable states does, and numbers these in the order they are found:
`Dfa.stateSets_ofListing_listing`.
-/

namespace Automata

open Text Listing

/-- The set of one state. -/
def StateSet.single (p : StateId) : StateSet := SortedSet.ofList [p]

namespace StateSet

@[simp] theorem mem_single {p q : StateId} : q ∈ single p ↔ q = p := by simp [single]

theorem single_injective : Function.Injective single := fun _ _ h =>
  mem_single.mp (h ▸ mem_single.mpr rfl)

theorem single_ne_empty (p : StateId) : single p ≠ ∅ := fun h =>
  SortedSet.not_mem_empty p (h ▸ mem_single.mpr rfl)

end StateSet

open StateSet

namespace Dfa

variable {d : Dfa} {p q s : StateId} {a : Symbol} {w : List Symbol} {i : Nat}

/-! ## One target for each move -/

/-- **The same moves, each to a list of one state.** -/
def toNfa (d : Dfa) : Nfa :=
  ⟨d.labels, d.alphabet, d.initial, d.finals, Table.ofMoves d.moves⟩

theorem entry?_toNfa (h : d.WellFormed) :
    d.toNfa.entry? p a = (d.next? p a).map fun q => [q] := by
  have hentry : d.toNfa.entry? p a = recordAll none (d.targets p a) := by
    rw [← Machine.targetsOf_moves h]
    exact Table.entry?_ofMoves d.moves p a
  rw [hentry, Machine.targets, next?]
  cases d.entry? p a <;> rfl

theorem successors_toNfa (h : d.WellFormed) :
    d.toNfa.successors p a = (d.next? p a).toList := by
  rw [Nfa.successors, Machine.targets, entry?_toNfa h]
  cases d.next? p a <;> rfl

theorem wellFormed_toNfa (h : d.WellFormed) : d.toNfa.WellFormed := by
  refine .of_full (Table.full_ofMoves _) h.initial_lt h.finals_lt fun p a t ht => ?_
  rw [entry?_toNfa h] at ht
  obtain ⟨q, hq, rfl⟩ := Option.map_eq_some_iff.mp ht
  exact h.of_entry? hq

/-! ## The listing -/

theorem transitions_toNfa (h : d.WellFormed) :
    d.toNfa.transitions = d.transitions.map fun t => (t.1, t.2.1, [t.2.2]) := by
  rw [Machine.transitions, Machine.transitions, List.map_flatMap]
  refine congrArg d.states.flatMap (funext fun p => ?_)
  rw [List.map_filterMap]
  refine congrArg (List.filterMap · _) (funext fun a => ?_)
  rw [entry?_toNfa h, next?]
  cases d.entry? p a <;> rfl

theorem moves_toNfa (h : d.WellFormed) : d.toNfa.moves = d.moves := by
  rw [Machine.moves, transitions_toNfa h, List.flatMap_map]
  rfl

theorem transitionCount_toNfa (h : d.WellFormed) :
    d.toNfa.transitionCount = d.transitionCount := by
  rw [← Machine.length_moves (wellFormed_toNfa h), ← Machine.length_moves h, moves_toNfa h]

/-- **Written line by line it is the same automaton.** -/
theorem listing_toNfa (h : d.WellFormed) : d.toNfa.listing = d.listing := by
  have hlines : d.toNfa.transitions.map d.toNfa.transitionLine =
      d.transitions.map d.transitionLine := by
    rw [transitions_toNfa h, List.map_map]
    rfl
  rw [Machine.listing, Machine.listing, Machine.listingLines, Machine.listingLines, hlines,
    transitionCount_toNfa h]
  rfl

/-- **What is read from the listing of a deterministic automaton by one that branches.** -/
theorem ofListing_listing_toNfa (h : d.WellFormed) (hn : d.numStates ≤ StateId.limit)
    (hlabels : d.labels.Nodup)
    (htokens : ∀ l ∈ d.labels, l ≠ "" ∧ ∀ c ∈ l.toList, isBlank c = false)
    (halphabet : ∀ a ∈ d.alphabet, isBlank a = false) :
    Machine.ofListing d.listing = .ok d.toNfa := by
  rw [← listing_toNfa h]
  refine Machine.ofListing_listing (wellFormed_toNfa h) ⟨hlabels, htokens, halphabet,
    Table.full_ofMoves _, fun p a t ht => ?recorded⟩ (numStates_lt_limit hn) ?count
  case recorded =>
    rw [entry?_toNfa h] at ht
    obtain ⟨q, -, rfl⟩ := Option.map_eq_some_iff.mp ht
    rfl
  case count =>
    rw [transitionCount_toNfa h]
    exact transitionCount_lt_limit h hn

/-! ## Reading words -/

/-- A singleton is followed by a singleton or by no state. -/
theorem nextStates_toNfa (h : d.WellFormed) :
    d.toNfa.nextStates (single p) a = ((d.next? p a).map single).getD ∅ := by
  refine SortedSet.ext_mem fun q => ?_
  rw [Nfa.mem_nextStates]
  simp only [mem_single, exists_eq_left, successors_toNfa h]
  cases d.next? p a <;> simp

/-- **Of one branch there is one state to be in**, as long as it is not stuck. -/
theorem readFrom_toNfa (h : d.WellFormed) : ∀ {p : StateId} {w : List Symbol},
    d.toNfa.readFrom (single p) w = ((d.runFrom p w).map single).getD ∅
  | _, [] => rfl
  | p, a :: w => by
      rw [Nfa.readFrom_cons, nextStates_toNfa h, runFrom_cons]
      cases d.next? p a with
      | none => exact Nfa.readFrom_empty w
      | some q => exact readFrom_toNfa h

theorem read_toNfa (h : d.WellFormed) (w : List Symbol) :
    d.toNfa.read w = ((d.run w).map single).getD ∅ := readFrom_toNfa h

theorem containsFinal_toNfa (d : Dfa) (p : StateId) :
    d.toNfa.containsFinal (single p) = d.isFinal p := by
  rw [Bool.eq_iff_iff, Nfa.containsFinal_iff, d.isFinal_iff]
  simp only [mem_single, exists_eq_left]
  rfl

/-- **The same words are accepted, rejected and frozen.** -/
theorem evaluate_toNfa (h : d.WellFormed) (w : List Symbol) :
    d.toNfa.evaluate w = d.evaluate w := by
  have hread := read_toNfa h w
  cases hw : d.run w with
  | none =>
      rw [hw] at hread
      rw [evaluate_of_run_eq_none hw, Nfa.evaluate_of_read_eq_empty hread]
  | some q =>
      rw [hw] at hread
      have hread : d.toNfa.read w = single q := hread
      rw [evaluate_of_run hw, Nfa.evaluate_of_read_ne_empty (hread ▸ single_ne_empty q), hread,
        containsFinal_toNfa]

/-! ## The sets found -/

/-- **Singletons are followed by singletons.** -/
theorem successorSets_toNfa (h : d.WellFormed) (p : StateId) :
    d.toNfa.successorSets (single p) = (d.successors p).map single := by
  rw [Nfa.successorSets_eq, nextValues, successors, List.map_filterMap]
  refine congrArg (List.filterMap · _) (funext fun a => ?_)
  rw [Nfa.nextSet?, nextStates_toNfa h]
  cases d.next? p a with
  | none => rfl
  | some q => exact if_neg (single_ne_empty q)

/-- **The sets found are the singletons of the reachable states**, in the same order. -/
theorem reachableSets_toNfa (h : d.WellFormed) :
    d.toNfa.reachableSets = d.reachable.map single := by
  have hrounds : search d.successors (Nat.pow 2 d.numStates) d.initial = d.reachable :=
    search_eq_of_le (lt_of_mem_successors h) (Finset.mem_range.mpr h.initial_lt)
      (Finset.card_range _).le Nat.lt_two_pow_self.le
  rw [← hrounds]
  exact search_map single_injective (successorSets_toNfa h) _ _

theorem getElem?_reachableSets_toNfa (h : d.WellFormed) (hi : d.reachable[i]? = some s) :
    d.toNfa.reachableSets[i]? = some (single s) := by
  rw [reachableSets_toNfa h, List.getElem?_map, hi, Option.map_some]

/-- A state stands where its singleton stands. -/
theorem idxOf?_map_single (l : List StateId) (p : StateId) :
    (l.map single).idxOf? (single p) = l.idxOf? p := by
  rw [List.idxOf?, List.findIdx?_map, List.idxOf?]
  refine congrArg (List.findIdx? · l) (funext fun q => ?_)
  rw [Function.comp_apply, Bool.eq_iff_iff, beq_iff_eq, beq_iff_eq, single_injective.eq_iff]

/-- **Determinized, the reachable part is numbered in the order it is found.** -/
theorem next?_determinize_toNfa (h : d.WellFormed) (hi : d.reachable[i]? = some s) :
    d.toNfa.determinize.next? i a = (d.next? s a).map d.reachable.idxOf := by
  have hn := wellFormed_toNfa h
  have hempty := Nfa.empty_not_mem_reachableSets hn
  rw [Nfa.determinize, Nfa.subsetConstruction, Nfa.next?_ofSets hn hempty
    (getElem?_reachableSets_toNfa h hi), nextStates_toNfa h]
  cases hq : d.next? s a with
  | none => exact List.idxOf?_eq_none_iff.mpr hempty
  | some q =>
      have hmem := mem_reachable_of_next? h (List.mem_of_getElem? hi) hq
      rw [Option.map_some, Option.getD_some, Option.map_some, reachableSets_toNfa h,
        idxOf?_map_single, idxOf?_of_mem hmem]

theorem isFinal_determinize_toNfa (h : d.WellFormed) (hi : d.reachable[i]? = some s) :
    d.toNfa.determinize.isFinal i = d.isFinal s := by
  rw [Nfa.isFinal_determinize (getElem?_reachableSets_toNfa h hi), containsFinal_toNfa]

/-- **Read as one that branches, a deterministic automaton behaves the same.**  Its listing is
accepted if its labels and symbols can stand in one, no outcome changes, and the subset construction
finds the singletons of the reachable states in the order these are found, so that determinizing
leaves the reachable part, numbered in that order.  States are 32-bit handles, so no automaton has
more of them than there are handles. -/
theorem stateSets_ofListing_listing (h : d.WellFormed) (hn : d.numStates ≤ StateId.limit)
    (hlabels : d.labels.Nodup)
    (htokens : ∀ l ∈ d.labels, l ≠ "" ∧ ∀ c ∈ l.toList, isBlank c = false)
    (halphabet : ∀ a ∈ d.alphabet, isBlank a = false) :
    ∃ n : Nfa, Machine.ofListing d.listing = .ok n ∧ (∀ w, n.evaluate w = d.evaluate w) ∧
      n.subsetConstruction.stateSets = d.reachable.map (fun r => SortedSet.ofList [r]) ∧
      n.determinize.labels = (List.range d.reachable.length).map StateId.canonicalLabel ∧
      n.determinize.alphabet = d.alphabet ∧
      d.reachable[n.determinize.initial]? = some d.initial ∧
      ∀ i s, d.reachable[i]? = some s → n.determinize.isFinal i = d.isFinal s ∧
        ∀ a, n.determinize.next? i a = (d.next? s a).map d.reachable.idxOf := by
  refine ⟨d.toNfa, ofListing_listing_toNfa h hn hlabels htokens halphabet, evaluate_toNfa h,
    reachableSets_toNfa h, ?labels, rfl, ?initial, fun i s hi => ⟨isFinal_determinize_toNfa h hi,
    fun _ => next?_determinize_toNfa h hi⟩⟩
  case labels =>
    have hlength : d.toNfa.reachableSets.length = d.reachable.length := by
      rw [reachableSets_toNfa h, List.length_map]
    rw [← hlength]
    rfl
  case initial =>
    obtain ⟨l, hl⟩ : ∃ l, d.reachable = [d.initial] ++ l := searchFrom_eq_append _ _ _
    rw [hl]
    rfl

/-- A partial automaton whose states are found from the last to the first, but for one. -/
def backwards : Dfa :=
  (Draft.ofDeclarations [.state "C", .state "X", .state "B", .state "A", .symbol 'a', .symbol 'b',
    .initial "A", .final "C", .transition ⟨"A", 'a', "B"⟩, .transition ⟨"B", 'b', "C"⟩,
    .transition ⟨"X", 'a', "A"⟩]).machine

/-- The last state comes first, and the one that no word leads to has no set. -/
theorem stateSets_ofListing_listing_backwards :
    ∃ n : Nfa, Machine.ofListing backwards.listing = .ok n ∧ n.evaluate ['a', 'b'] = .accept ∧
      n.evaluate ['b'] = .frozen ∧ n.subsetConstruction.stateSets =
        [SortedSet.ofList [3], SortedSet.ofList [2], SortedSet.ofList [0]] ∧
      n.determinize.next? 1 'b' = some 2 := by
  have hlabels : ∀ l ∈ backwards.labels, IsToken l := by decide
  have hblank : backwards.alphabet.toList.all (fun a => !isBlank a) = true := by decide
  obtain ⟨n, hread, heval, hsets, -, -, -, hstates⟩ := stateSets_ofListing_listing
    (d := backwards) (by decide) (by decide) (by decide) hlabels
    fun a ha => by simpa using List.all_eq_true.mp hblank a ha
  refine ⟨n, hread, (heval _).trans (by decide), (heval _).trans (by decide),
    hsets.trans (by decide), ?_⟩
  exact ((hstates 1 2 (by decide)).2 'b').trans (by decide)

end Dfa

end Automata
