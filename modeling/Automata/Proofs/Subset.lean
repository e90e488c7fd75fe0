import Automata.Proofs.Loaded
import Automata.Proofs.Runs
import Automata.Proofs.Search
import Automata.Subset
import Mathlib.Data.Finset.Powerset

/-!
# Proofs/Subset — the subset construction keeps every outcome

The sets found are the non-empty ones some word leads to (`mem_reachableSets_iff`), so a set one
symbol away from a set that was found is empty or was found too.  Hence a run of the constructed
automaton follows the set of states the given one can be in, and is stuck exactly where that set is
empty (`run_determinize`); accepting, rejecting and freezing agree on every word
(`evaluate_determinize`).
-/

namespace Automata

@[simp] theorem SortedSet.isEmpty_eq_true_iff {α : Type} [Ranked α] {S : SortedSet α} :
    S.isEmpty = true ↔ S = ∅ := by
  refine ⟨fun h => SortedSet.ext_mem fun a => ?_, fun h => h ▸ rfl⟩
  change a ∈ S.toList ↔ a ∈ []
  rw [List.isEmpty_iff.mp h]

namespace Nfa

variable {n : Nfa} {S T : StateSet} {a : Symbol} {w : List Symbol} {p q : StateId}

/-! ## Reading sets of states -/

/-- A state leads to states of the automaton, on symbols of its alphabet. -/
theorem of_mem_successors (h : n.WellFormed) (hq : q ∈ n.successors p a) :
    a ∈ n.alphabet ∧ q < n.numStates := by
  obtain ⟨t, ht, hq⟩ := Machine.mem_targets_iff.mp hq
  obtain ⟨-, ha, hstates⟩ := h.of_entry? ht
  exact ⟨ha, hstates q hq⟩

theorem lt_of_mem_nextStates (h : n.WellFormed) (hq : q ∈ n.nextStates S a) : q < n.numStates := by
  obtain ⟨p, -, hq⟩ := n.mem_nextStates.mp hq
  exact (of_mem_successors h hq).2

@[simp] theorem nextStates_empty : n.nextStates ∅ a = ∅ :=
  SortedSet.ext_mem fun q => by simp

/-- No branch reads a symbol outside the alphabet. -/
theorem nextStates_eq_empty (h : n.WellFormed) (ha : a ∉ n.alphabet) : n.nextStates S a = ∅ := by
  refine SortedSet.ext_mem fun q => iff_of_false (fun hq => ?_) (SortedSet.not_mem_empty q)
  obtain ⟨p, -, hq⟩ := n.mem_nextStates.mp hq
  exact ha (of_mem_successors h hq).1

/-- **No branch comes back** once there is none. -/
theorem readFrom_empty : ∀ w : List Symbol, n.readFrom ∅ w = ∅
  | [] => rfl
  | a :: w => by
      rw [readFrom, List.foldl_cons, nextStates_empty]
      exact readFrom_empty w

theorem readFrom_cons : n.readFrom S (a :: w) = n.readFrom (n.nextStates S a) w := rfl

theorem read_concat : n.read (w ++ [a]) = n.nextStates (n.read w) a := by
  rw [read, readFrom, List.foldl_concat]
  rfl

/-- A word leads to states of the automaton. -/
theorem lt_of_mem_read (h : n.WellFormed) (hq : q ∈ n.read w) : q < n.numStates := by
  induction w using List.reverseRecOn with
  | nil =>
      rw [List.mem_singleton.mp (SortedSet.mem_ofList.mp hq)]
      exact h.initial_lt
  | append_singleton w a _ =>
      rw [read_concat] at hq
      exact lt_of_mem_nextStates h hq

theorem start_ne_empty : n.start ≠ ∅ := fun h =>
  SortedSet.not_mem_empty n.initial (h ▸ SortedSet.mem_ofList.mpr (List.mem_singleton_self _))

/-! ## The sets found -/

/-- The sets of numbers below `k`. -/
noncomputable def setsBelow (k : Nat) : Finset StateSet :=
  (Finset.range k).powerset.image fun F => SortedSet.ofList F.toList

theorem mem_setsBelow {k : Nat} (h : ∀ q ∈ S, q < k) : S ∈ setsBelow k := by
  refine Finset.mem_image.mpr ⟨S.toList.toFinset, ?_, SortedSet.ext_mem fun q => by simp⟩
  refine Finset.mem_powerset.mpr fun q hq => Finset.mem_range.mpr (h q ?_)
  exact List.mem_toFinset.mp hq

/-- There are rounds enough to expand all sets of states. -/
theorem card_setsBelow_le (k : Nat) : (setsBelow k).card ≤ Nat.pow 2 k := by
  refine Finset.card_image_le.trans (Nat.le_of_eq ?_)
  rw [Finset.card_powerset, Finset.card_range]
  rfl

theorem mem_successorSets_iff :
    T ∈ n.successorSets S ↔ T ≠ ∅ ∧ ∃ a ∈ n.alphabet, n.nextStates S a = T := by
  rw [successorSets, List.mem_filter, List.mem_map, and_comm, Bool.not_eq_true', ← Bool.not_eq_true,
    SortedSet.isEmpty_eq_true_iff]
  rfl

theorem mem_setsBelow_of_mem_successorSets (h : n.WellFormed) :
    ∀ S ∈ setsBelow n.numStates, ∀ T ∈ n.successorSets S, T ∈ setsBelow n.numStates := by
  intro S _ T hT
  obtain ⟨-, a, -, rfl⟩ := mem_successorSets_iff.mp hT
  exact mem_setsBelow fun q hq => lt_of_mem_nextStates h hq

theorem start_mem_setsBelow (h : n.WellFormed) : n.start ∈ setsBelow n.numStates :=
  mem_setsBelow fun q hq => by
    rw [List.mem_singleton.mp (SortedSet.mem_ofList.mp hq)]
    exact h.initial_lt

theorem mem_reachableSets_iff_leads (h : n.WellFormed) :
    S ∈ n.reachableSets ↔ Leads n.successorSets n.start S :=
  mem_search_iff (mem_setsBelow_of_mem_successorSets h) (start_mem_setsBelow h)
    (card_setsBelow_le _)

/-- **A set one symbol away from a set that was found is empty or was found.** -/
theorem nextStates_mem_reachableSets (h : n.WellFormed) (hS : S ∈ n.reachableSets)
    (hne : n.nextStates S a ≠ ∅) : n.nextStates S a ∈ n.reachableSets := by
  rw [mem_reachableSets_iff_leads h] at hS ⊢
  have ha : a ∈ n.alphabet := not_not.mp fun ha => hne (nextStates_eq_empty h ha)
  exact hS.tail (mem_successorSets_iff.mpr ⟨hne, a, ha, rfl⟩)

/-- **The sets found are the non-empty ones some word leads to.** -/
theorem mem_reachableSets_iff (h : n.WellFormed) :
    S ∈ n.reachableSets ↔ S ≠ ∅ ∧ ∃ w, n.read w = S := by
  constructor
  · intro hS
    rw [mem_reachableSets_iff_leads h] at hS
    induction hS with
    | refl => exact ⟨start_ne_empty, [], rfl⟩
    | tail _ hT ih =>
        obtain ⟨hne, a, -, rfl⟩ := mem_successorSets_iff.mp hT
        obtain ⟨-, w, rfl⟩ := ih
        exact ⟨hne, w ++ [a], read_concat⟩
  · rintro ⟨hne, w, rfl⟩
    induction w using List.reverseRecOn with
    | nil => exact mem_search_self
    | append_singleton w a ih =>
        rw [read_concat] at hne ⊢
        have hw : n.read w ≠ ∅ := fun h => hne (by rw [h, nextStates_empty])
        exact nextStates_mem_reachableSets h (ih hw) hne

theorem empty_not_mem_reachableSets (h : n.WellFormed) : ∅ ∉ n.reachableSets := fun hS =>
  ((mem_reachableSets_iff h).mp hS).1 rfl

/-- The set of the initial state comes first. -/
theorem reachableSets_eq_cons (n : Nfa) : ∃ l, n.reachableSets = n.start :: l :=
  searchFrom_eq_append _ _ _

/-! ## Runs of the constructed automaton -/

theorem wellFormed_ofSets {sets : List StateSet} (h : sets ≠ []) : (n.ofSets sets).WellFormed := by
  refine Dfa.wellFormed_tabulate ?initial fun i _ a _ j hj => ?next
  case initial =>
    rw [Dfa.length_canonicalLabels]
    exact List.length_pos_iff.mpr h
  case next =>
    rw [Dfa.length_canonicalLabels]
    obtain ⟨S, -, hj⟩ := Option.bind_eq_some_iff.mp hj
    exact lt_length_of_idxOf?_eq_some hj

theorem wellFormed_determinize (n : Nfa) : n.determinize.WellFormed := by
  obtain ⟨l, hl⟩ := n.reachableSets_eq_cons
  exact wellFormed_ofSets (by rw [hl]; exact List.cons_ne_nil _ _)

/-- There is a state for each set. -/
theorem numStates_determinize (n : Nfa) : n.determinize.numStates = n.reachableSets.length :=
  Dfa.length_canonicalLabels _

/-- A state moves to where the set behind it goes. -/
theorem next?_ofSets (h : n.WellFormed) {sets : List StateSet} (hempty : ∅ ∉ sets) {i : StateId}
    (hi : sets[i]? = some S) : (n.ofSets sets).next? i a = sets.idxOf? (n.nextStates S a) := by
  obtain ⟨hlt, -⟩ := List.getElem?_eq_some_iff.mp hi
  by_cases ha : a ∈ n.alphabet
  · rw [ofSets, Dfa.next?_tabulate (by simpa using hlt) ha, nextIndex?, hi, Option.bind_some]
  · rw [ofSets, Dfa.next?_tabulate_eq_none ha, nextStates_eq_empty h ha]
    exact (List.idxOf?_eq_none_iff.mpr hempty).symm

/-- **A run goes from set to set**, and is stuck where no branch is left. -/
theorem runFrom_determinize (h : n.WellFormed) : ∀ {w : List Symbol} {S : StateSet} {i : StateId},
    n.reachableSets.idxOf? S = some i →
      n.determinize.runFrom i w = n.reachableSets.idxOf? (n.readFrom S w)
  | [], _, _, hi => hi.symm
  | a :: w, S, i, hi => by
      have hempty := empty_not_mem_reachableSets h
      rw [Dfa.runFrom_cons, determinize, subsetConstruction,
        next?_ofSets h hempty (getElem?_of_idxOf?_eq_some hi), readFrom_cons]
      cases hj : n.reachableSets.idxOf? (n.nextStates S a) with
      | some j => exact runFrom_determinize h hj
      | none =>
          have hnext : n.nextStates S a = ∅ := not_not.mp fun hne =>
            List.idxOf?_eq_none_iff.mp hj
              (nextStates_mem_reachableSets h (mem_of_idxOf?_eq_some hi) hne)
          rw [hnext, readFrom_empty]
          exact (List.idxOf?_eq_none_iff.mpr hempty).symm

/-- **A word leads to the position of the set it leads to.** -/
theorem run_determinize (h : n.WellFormed) (w : List Symbol) :
    n.determinize.run w = n.reachableSets.idxOf? (n.read w) := by
  obtain ⟨l, hl⟩ := n.reachableSets_eq_cons
  exact runFrom_determinize h (by rw [hl, List.idxOf?_cons, if_pos (beq_self_eq_true _)]; rfl)

theorem isFinal_determinize {i : StateId} (hi : n.reachableSets[i]? = some S) :
    n.determinize.isFinal i = n.containsFinal S := by
  obtain ⟨hlt, -⟩ := List.getElem?_eq_some_iff.mp hi
  rw [determinize, subsetConstruction, ofSets, Dfa.isFinal_tabulate (by simpa using hlt), hi]
  rfl

end Nfa

/-- An automaton of the words over `a` and `b` that end with `a`. -/
def Nfa.endsWithA : Nfa :=
  (Draft.ofDeclarations [.state "A", .state "B", .symbol 'a', .symbol 'b', .initial "A", .final "B",
    .transition ⟨"A", 'a', "A"⟩, .transition ⟨"A", 'a', "B"⟩, .transition ⟨"A", 'b', "A"⟩]).machine

theorem Nfa.loaded_endsWithA : Nfa.endsWithA.Loaded := Machine.loaded_machine (by decide)

/-- **The subset construction keeps every outcome** — acceptance, rejection and freezing, on words
over the alphabet and on all others. -/
theorem evaluate_determinize {n : Nfa} (hn : n.Loaded) (w : List Symbol) :
    n.determinize.evaluate w = n.evaluate w := by
  have h := hn.wellFormed
  have hrun := Nfa.run_determinize h w
  rw [Nfa.evaluate]
  cases hi : n.reachableSets.idxOf? (n.read w) with
  | none =>
      have hread : n.read w = ∅ := not_not.mp fun hne =>
        List.idxOf?_eq_none_iff.mp hi ((Nfa.mem_reachableSets_iff h).mpr ⟨hne, w, rfl⟩)
      rw [Dfa.evaluate_of_run_eq_none (hrun.trans hi), hread]
      rfl
  | some i =>
      have hread : n.read w ≠ ∅ := fun he =>
        Nfa.empty_not_mem_reachableSets h (he ▸ mem_of_idxOf?_eq_some hi)
      rw [Dfa.evaluate_of_run (hrun.trans hi),
        Nfa.isFinal_determinize (getElem?_of_idxOf?_eq_some hi)]
      simp only [SortedSet.isEmpty_eq_true_iff, hread, if_false]

/-- One branch is left after `b`, two after the next `a`, and none after a foreign symbol. -/
theorem evaluate_determinize_endsWithA :
    Nfa.endsWithA.determinize.evaluate ['b', 'a'] = .accept ∧
    Nfa.endsWithA.determinize.evaluate ['a', 'b'] = .reject ∧
    Nfa.endsWithA.determinize.evaluate ['a', 'c'] = .frozen :=
  ⟨(evaluate_determinize Nfa.loaded_endsWithA ['b', 'a']).trans (by decide),
    (evaluate_determinize Nfa.loaded_endsWithA ['a', 'b']).trans (by decide),
    (evaluate_determinize Nfa.loaded_endsWithA ['a', 'c']).trans (by decide)⟩

end Automata
