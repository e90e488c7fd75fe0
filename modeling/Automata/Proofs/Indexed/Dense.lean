import Automata.Proofs.Indexed.Labels
import Automata.Proofs.Minimize.Completion

/-!
# Proofs/Indexed/Dense — an automaton copied to lists of rows

Before states are compared, those that are reachable are copied: labels, finality and moves stand on
lists by position, and a row has one entry for each symbol, by its position in the alphabet.  The
labels of the reachable states and the position of the initial state are looked up, and none of the
look-ups fails (`Dfa.part?_eq`).  Made total, the copy says of every state and symbol what the
completed automaton does (`Dense.Holds`, `Dfa.holds_complete`).
-/

namespace Automata

/-- On a list made by position, the entry at a position is what the position gives. -/
theorem getElem?_map_range {β : Type} {n i : Nat} (f : Nat → β) (hi : i < n) :
    ((List.range n).map f)[i]? = some (f i) := by
  rw [List.getElem?_map, List.getElem?_range hi, Option.map_some]

/-- On two lists with one entry for each member of a third, entries agree if they do by position. -/
theorem map_range_eq_map {α β : Type} {l : List α} {f : Nat → β} {g : α → β}
    (h : ∀ i x, l[i]? = some x → f i = g x) : (List.range l.length).map f = l.map g := by
  refine List.ext_getElem (by simp) fun i hi _ => ?_
  have hi : i < l.length := by simpa using hi
  rw [List.getElem_map, List.getElem_range, List.getElem_map]
  exact h i l[i] (List.getElem?_eq_getElem hi)

/-- An automaton as lists: what is known of a state stands at its position, and what it leads to on
a symbol at the position of the symbol in its row. -/
structure Dense (κ : Type) where
  labels : List String
  finals : List Bool
  initial : StateId
  alphabet : Alphabet
  delta : List (List κ)

namespace Dense

/-- Leads every missing move to a new last state, if some move is missing; with the label of that
state. -/
def complete (c : Dense (Option StateId)) : Dense StateId × Option String :=
  let rows := c.delta.map fun row => row.map (·.getD c.labels.length)
  if c.delta.all fun row => row.all Option.isSome then
    (⟨c.labels, c.finals, c.initial, c.alphabet, rows⟩, none)
  else
    let l := freshLabel c.labels c.labels.length
    (⟨c.labels ++ [l], c.finals ++ [false], c.initial, c.alphabet,
      rows ++ [List.replicate c.alphabet.size c.labels.length]⟩, some l)

/-- What a state leads to on the symbol with a position, looked up. -/
def target? (c : Dense StateId) (p i : Nat) : Option StateId := c.delta[p]?.bind (·[i]?)

/-- **A copy holds an automaton**: it lists its parts, and looking up a state and the position of a
symbol finds what they lead to. -/
structure Holds (c : Dense StateId) (d : Dfa) : Prop where
  labels : c.labels = d.labels
  finals : c.finals = d.states.map d.isFinal
  initial : c.initial = d.initial
  alphabet : c.alphabet = d.alphabet
  target?_eq : ∀ p < d.numStates, ∀ i a, d.alphabet.toList[i]? = some a →
    c.target? p i = d.next? p a

end Dense

namespace Dfa

variable (d : Dfa)

/-- The copy of a whole automaton. -/
def dense : Dense (Option StateId) where
  labels := d.labels
  finals := d.states.map d.isFinal
  initial := d.initial
  alphabet := d.alphabet
  delta := d.states.map fun p => d.alphabet.toList.map (d.next? p)

/-- The copy of the reachable part: the states found by the search, by number, with their labels and
the position of the initial state looked up. -/
def part? : Option (Dense (Option StateId)) := do
  let kept := d.reachable.mergeSort
  let labels ← d.labelsOf? kept
  let initial ← kept.idxOf? d.initial
  return {
    labels
    finals := kept.map d.isFinal
    initial
    alphabet := d.alphabet
    delta := kept.map fun s => d.alphabet.toList.map fun a => (d.next? s a).bind kept.idxOf? }

/-- The labels of the states that are not reachable, looked up. -/
def unreachableLabels? : Option (List String) :=
  d.labelsOf? (d.states.filter fun s => !decide (s ∈ d.reachable))

variable {d} {l : String}

/-! ## The reachable part -/

/-- **Copying the reachable part looks nothing up in vain.** -/
theorem part?_eq (h : d.WellFormed) : d.part? = some d.trim.dense := by
  have hlt : ∀ s ∈ d.kept, s < d.numStates := fun s hs => lt_of_mem_kept hs
  have hfinals : d.trim.states.map d.trim.isFinal = d.kept.map d.isFinal := by
    rw [Machine.states, numStates_trim]
    exact map_range_eq_map fun i s hs => isFinal_trim hs
  have hdelta : d.trim.states.map (fun p => d.alphabet.toList.map (d.trim.next? p)) =
      d.kept.map fun s => d.alphabet.toList.map fun a => (d.next? s a).bind d.kept.idxOf? := by
    rw [Machine.states, numStates_trim]
    refine map_range_eq_map fun i s hs => List.map_congr_left fun a _ => ?_
    rw [next?_trim h hs]
    cases hq : d.next? s a with
    | none => rfl
    | some q => exact (idxOf?_of_mem (mem_kept_of_next? h (List.mem_of_getElem? hs) hq)).symm
  rw [part?, mergeSort_reachable h, Machine.labelsOf?_eq hlt, idxOf?_of_mem (initial_mem_kept h),
    ← hfinals, ← hdelta]
  rfl

theorem unreachableLabels?_eq : d.unreachableLabels? = some d.unreachableLabels :=
  Machine.labelsOf?_eq fun _ hs => d.mem_states.mp (List.mem_of_mem_filter hs)

/-! ## Completion -/

/-- No entry of the copy is missing exactly when no move is. -/
theorem all_isSome_dense : (d.dense.delta.all fun row => row.all Option.isSome) = d.isTotal := by
  rw [Bool.eq_iff_iff, isTotal_iff]
  simp [dense, Machine.states, Option.isSome_iff_exists]

/-- Looking up a row and a position in it finds what a function gives for both. -/
theorem getElem?_rows {f : StateId → Symbol → StateId} {p i : Nat} {a : Symbol}
    (hp : p < d.numStates) (ha : d.alphabet.toList[i]? = some a) :
    (d.states.map fun p => d.alphabet.toList.map (f p))[p]?.bind (·[i]?) = some (f p a) := by
  rw [Machine.states, getElem?_map_range _ hp, Option.bind_some, List.getElem?_map, ha,
    Option.map_some]

/-- The rows of the copy with every missing move led to a new state. -/
theorem map_delta_dense : (d.dense.delta.map fun row => row.map (·.getD d.numStates)) =
    d.states.map fun p => d.alphabet.toList.map fun a => (d.next? p a).getD d.numStates := by
  simp [dense, Function.comp_def]

theorem holds_addTrap (h : d.WellFormed) : Dense.Holds
    ⟨d.labels ++ [l], d.states.map d.isFinal ++ [false], d.initial, d.alphabet,
      (d.dense.delta.map fun row => row.map (·.getD d.numStates)) ++
        [List.replicate d.alphabet.size d.numStates]⟩ (d.addTrap l) where
  labels := rfl
  finals := by
    have hold : d.states.map (d.addTrap l).isFinal = d.states.map d.isFinal :=
      List.map_congr_left fun p hp => isFinal_addTrap (Nat.le_of_lt (d.mem_states.mp hp))
    have hnew : (d.addTrap l).isFinal d.numStates = false := by
      rw [isFinal_addTrap (Nat.le_refl _), isFinal_numStates h]
    have hstates : (d.addTrap l).states = d.states ++ [d.numStates] := by
      rw [Machine.states, numStates_addTrap, List.range_succ, Machine.states]
    rw [hstates, List.map_append, hold, List.map_singleton, hnew]
  initial := rfl
  alphabet := rfl
  target?_eq p hp i a ha := by
    have ha' : a ∈ d.alphabet := List.mem_of_getElem? ha
    rw [numStates_addTrap] at hp
    rw [next?_addTrap ha' (Nat.le_of_lt_succ hp), Dense.target?, map_delta_dense]
    obtain hp | rfl := Nat.lt_or_eq_of_le (Nat.le_of_lt_succ hp)
    · rw [List.getElem?_append_left (by simpa [Machine.states] using hp)]
      exact getElem?_rows hp ha
    · have hi : i < d.alphabet.size := (List.getElem?_eq_some_iff.mp ha).1
      rw [List.getElem?_append_right (by simp [Machine.states]), next?_eq_none h (Nat.le_refl _)]
      simp [Machine.states, hi]

/-- **Made total, the copy holds the completed automaton**, and the state that was added has the
label of the trap. -/
theorem holds_complete (h : d.WellFormed) :
    d.dense.complete.1.Holds d.complete ∧ d.dense.complete.2 = d.trap? := by
  rw [Dense.complete, all_isSome_dense, complete, trap?]
  by_cases ht : d.isTotal = true
  · rw [if_pos ht, if_pos ht]
    refine ⟨⟨rfl, rfl, rfl, rfl, fun p hp i a ha => ?_⟩, rfl⟩
    obtain ⟨q, hq⟩ := isTotal_iff.mp ht p hp a (List.mem_of_getElem? ha)
    rw [Dense.target?]
    refine (congrArg (·[p]?.bind (·[i]?)) map_delta_dense).trans ?_
    dsimp only
    rw [getElem?_rows hp ha, hq, Option.getD_some]
  · rw [if_neg ht, if_neg ht]
    exact ⟨holds_addTrap h, rfl⟩

end Dfa

end Automata
