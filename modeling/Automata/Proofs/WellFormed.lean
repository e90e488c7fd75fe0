import Automata.Dfa

/-!
# Proofs/WellFormed — when the parts of an automaton fit together

The table is judged by its look-ups (`Machine.WellFormed.of_find?`).  An automaton made from a
function has exactly the moves of that function between its own states, on symbols of its alphabet
(`next?_tabulate_eq_some_iff`), so it is well formed once that function stays among the states
(`wellFormed_tabulate`).

The algorithms number what they find by its position in a list, so looking a member up and taking
its position undo each other.  States are positions in the list of labels, which tell them apart if
none is repeated (`Machine.label_inj`).
-/

namespace Automata

/-! ## Positions in a list -/

section

variable {α : Type} [DecidableEq α] {l : List α} {x : α} {i : Nat}

theorem getElem?_of_idxOf?_eq_some (h : l.idxOf? x = some i) : l[i]? = some x := by
  obtain ⟨hi, hx, _⟩ := List.idxOf?_eq_some_iff.mp h
  rw [List.getElem?_eq_getElem hi, hx]

theorem mem_of_idxOf?_eq_some (h : l.idxOf? x = some i) : x ∈ l :=
  List.isSome_idxOf?.mp (by rw [h]; rfl)

theorem lt_length_of_idxOf?_eq_some (h : l.idxOf? x = some i) : i < l.length :=
  (List.idxOf?_eq_some_iff.mp h).1

theorem idxOf?_of_mem (h : x ∈ l) : l.idxOf? x = some (l.idxOf x) :=
  List.findIdx?_eq_some_of_exists ⟨x, h, beq_self_eq_true x⟩

theorem getElem?_idxOf (h : x ∈ l) : l[l.idxOf x]? = some x :=
  getElem?_of_idxOf?_eq_some (idxOf?_of_mem h)

end

namespace Machine

variable {τ : Type} {m : Machine τ}

/-! ## Labels -/

theorem label_mem {s : StateId} (hs : s < m.numStates) : m.label s ∈ m.labels :=
  List.mem_of_getElem? (m.label?_of_lt hs)

/-- **Labels without repetition tell the states apart.** -/
theorem idxOf_label (h : m.labels.Nodup) {s : StateId} (hs : s < m.numStates) :
    m.labels.idxOf (m.label s) = s := by
  obtain ⟨hlt, hlabel⟩ := List.getElem?_eq_some_iff.mp (m.label?_of_lt hs)
  rw [← hlabel, h.idxOf_getElem]

theorem label_inj (h : m.labels.Nodup) {p q : StateId} (hp : p < m.numStates)
    (hq : q < m.numStates) (hpq : m.label p = m.label q) : p = q := by
  rw [← idxOf_label h hp, hpq, idxOf_label h hq]

/-! ## Tables -/

variable [Target τ]

theorem mem_targets_iff {p q : StateId} {a : Symbol} :
    q ∈ m.targets p a ↔ ∃ t, m.entry? p a = some t ∧ q ∈ Target.states t := by
  rw [targets]
  cases m.entry? p a <;> simp

/-- **A table is judged by its look-ups.** -/
theorem WellFormed.of_find? (hinitial : m.initial < m.numStates)
    (hfinals : ∀ q ∈ m.finals, q < m.numStates)
    (hrow : ∀ p row, m.table.find? p = some row → p < m.numStates)
    (hentry : ∀ p row a t, m.table.find? p = some row → row.find? a = some t →
      a ∈ m.alphabet ∧ ∀ q ∈ Target.states t, q < m.numStates) : m.WellFormed where
  initial_lt := hinitial
  finals_lt := hfinals
  table_ok := by
    rintro ⟨p, row⟩ hr
    have hp := SortedMap.mem_entries_iff.mp hr
    refine ⟨hrow p row hp, ?_⟩
    rintro ⟨a, t⟩ he
    exact hentry p row a t hp (SortedMap.mem_entries_iff.mp he)

end Machine

namespace Dfa

@[simp] theorem length_canonicalLabels (k : Nat) :
    ((List.range k).map StateId.canonicalLabel).length = k := by simp

variable {labels : List String} {alphabet : Alphabet} {initial : StateId}
  {isFinal : StateId → Bool} {next : StateId → Symbol → Option StateId} {p q : StateId} {a : Symbol}

private theorem find?_table_tabulate {row : Row StateId}
    (h : (tabulate labels alphabet initial isFinal next).table.find? p = some row) :
    p < labels.length ∧ row = SortedMap.collect alphabet (next p) := by
  by_cases hp : p ∈ SortedSet.range labels.length
  · rw [tabulate, SortedMap.find?_collect hp] at h
    dsimp only at h
    split at h
    · exact absurd h (by simp)
    · exact ⟨SortedSet.mem_range.mp hp, (Option.some.inj h).symm⟩
  · rw [tabulate, SortedMap.find?_collect_of_not_mem hp] at h
    exact absurd h (by simp)

/-- A state without a move gets no row. -/
theorem ne_empty_of_find?_tabulate {row : Row StateId}
    (h : (tabulate labels alphabet initial isFinal next).table.find? p = some row) : row ≠ ∅ := by
  obtain ⟨hp, rfl⟩ := find?_table_tabulate h
  rw [tabulate, SortedMap.find?_collect (SortedSet.mem_range.mpr hp)] at h
  intro hempty
  rw [hempty] at h
  exact Option.some_ne_none _ h.symm

/-- **The moves are those of the function**, between states and on symbols of the alphabet. -/
theorem next?_tabulate_eq_some_iff :
    (tabulate labels alphabet initial isFinal next).next? p a = some q ↔
      p < labels.length ∧ a ∈ alphabet ∧ next p a = some q := by
  constructor
  · intro h
    obtain ⟨row, hrow, ha⟩ := Option.bind_eq_some_iff.mp h
    obtain ⟨hp, rfl⟩ := find?_table_tabulate hrow
    by_cases hmem : a ∈ alphabet
    · exact ⟨hp, hmem, by rwa [SortedMap.find?_collect hmem] at ha⟩
    · rw [SortedMap.find?_collect_of_not_mem hmem] at ha
      exact absurd ha (by simp)
  · rintro ⟨hp, ha, hq⟩
    rw [next?_tabulate hp ha, hq]

theorem next?_tabulate_eq_none (h : a ∉ alphabet) :
    (tabulate labels alphabet initial isFinal next).next? p a = none :=
  Option.eq_none_iff_forall_ne_some.mpr fun _ hq => h (next?_tabulate_eq_some_iff.mp hq).2.1

/-- **An automaton whose moves stay among its states is well formed.** -/
theorem wellFormed_tabulate (hinitial : initial < labels.length)
    (hnext : ∀ p < labels.length, ∀ a ∈ alphabet, ∀ q, next p a = some q → q < labels.length) :
    (tabulate labels alphabet initial isFinal next).WellFormed := by
  refine Machine.WellFormed.of_find? hinitial (fun q hq => ?finals)
    (fun p row h => (find?_table_tabulate h).1) (fun p row a q h ha => ?entry)
  case finals =>
    rw [tabulate, SortedSet.mem_filter, SortedSet.mem_range] at hq
    exact hq.1
  case entry =>
    have hq : (tabulate labels alphabet initial isFinal next).next? p a = some q :=
      Option.bind_eq_some_iff.mpr ⟨row, h, ha⟩
    obtain ⟨hp, ha, hq⟩ := next?_tabulate_eq_some_iff.mp hq
    exact ⟨ha, by simpa using hnext p hp a ha q hq⟩

end Dfa

end Automata
