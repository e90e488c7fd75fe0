import Automata.Proofs.Listing.Groups

/-!
# Proofs/Binary/Buildable — which decoded automata could have been built

What is decoded is checked for positions and symbols only.  Declarations make more sure: they never
give two states one label, and they store no row and no entry without a move
(`Machine.exists_build_iff`).  So a decoded automaton is one that declarations make exactly when its
labels are pairwise distinct and its table holds nothing but what moves record
(`exists_build_iff_of_ofBytes`), and only distinct labels are looked up to their states.
-/

namespace Automata

namespace Machine

variable {τ : Type} {m : Machine τ} {s : StateId}

/-- **Labels tell the states apart exactly when each state is found by its label.** -/
theorem stateId?_label_iff :
    (∀ s < m.numStates, m.stateId? (m.label s) = some s) ↔ m.labels.Nodup := by
  constructor
  · intro h
    refine List.pairwise_iff_getElem.mpr fun i j hi hj hij heq => ?_
    have hlabel : ∀ k (hk : k < m.labels.length), m.label k = m.labels[k] := fun k hk =>
      (List.getElem?_eq_some_iff.mp (m.label?_of_lt hk)).2.symm
    have hfound := h j hj
    rw [hlabel j hj, ← heq, ← hlabel i hi, h i hi] at hfound
    exact absurd (Option.some.inj hfound) (Nat.ne_of_lt hij)
  · intro h s hs
    rw [stateId?, idxOf?_of_mem (label_mem hs), idxOf_label h hs]

variable [Target τ] [FaithfulTarget τ] [Listing.Layout τ] [Listing.LawfulLayout τ]

/-- **A well-formed machine is built by some declarations exactly when it is buildable.** -/
theorem exists_build_iff (h : m.WellFormed) :
    (∃ l, (Draft.ofDeclarations l : Draft τ).build = .ok m) ↔ m.Buildable :=
  ⟨fun ⟨_, hbuild⟩ => buildable_of_build hbuild, fun hm => ⟨_, build_draft_contents h hm⟩⟩

end Machine

theorem Dfa.buildable_iff {d : Dfa} :
    d.Buildable ↔ d.labels.Nodup ∧ ∀ r ∈ d.table.entries, r.2 ≠ ∅ :=
  ⟨fun h => ⟨h.nodup_labels, Table.full_iff.mp h.full⟩,
    fun ⟨hlabels, hrows⟩ => ⟨hlabels, Table.full_iff.mpr hrows, fun _ _ _ _ => rfl⟩⟩

/-- **A decoded automaton could have been built exactly when** its labels are pairwise distinct, no
row is empty and, where it may branch, each entry lists some state and none twice.  Its states are
found by their labels exactly when these are pairwise distinct. -/
theorem exists_build_iff_of_ofBytes (bs : List UInt8) :
    (∀ d : Dfa, Machine.ofBytes bs = .ok d →
      ((∃ l, (Draft.ofDeclarations l).build = .ok d) ↔
        d.labels.Nodup ∧ ∀ r ∈ d.table.entries, r.2 ≠ ∅) ∧
      ((∀ s < d.numStates, d.stateId? (d.label s) = some s) ↔ d.labels.Nodup)) ∧
    (∀ n : Nfa, Machine.ofBytes bs = .ok n →
      ((∃ l, (Draft.ofDeclarations l).build = .ok n) ↔ n.labels.Nodup ∧
        ∀ r ∈ n.table.entries, r.2 ≠ ∅ ∧ ∀ e ∈ r.2.entries, e.2 ≠ [] ∧ e.2.Nodup) ∧
      ((∀ s < n.numStates, n.stateId? (n.label s) = some s) ↔ n.labels.Nodup)) := by
  refine ⟨fun d hd => ⟨?_, Machine.stateId?_label_iff⟩, fun n hn => ⟨?_, Machine.stateId?_label_iff⟩⟩
  · have h : d.WellFormed := (Machine.Loaded.decoded bs hd).wellFormed
    rw [Machine.exists_build_iff h, Dfa.buildable_iff]
  · have h : n.WellFormed := (Machine.Loaded.decoded bs hn).wellFormed
    rw [Machine.exists_build_iff h, Nfa.buildable_iff_forall]

/-- One state `A` with a row that has no entry: it is decoded, and no declarations make it. -/
theorem exists_build_iff_of_ofBytes_emptyRow : ∃ d : Dfa,
    Machine.ofBytes [1, 1, 65, 0, 0, 0, 1, 0, 0] = .ok d ∧
    (∀ s < d.numStates, d.stateId? (d.label s) = some s) ∧
    ¬ ∃ l, (Draft.ofDeclarations l).build = .ok d := by
  have hdecoded : Machine.ofBytes [1, 1, 65, 0, 0, 0, 1, 0, 0] =
      .ok (⟨["A"], ∅, 0, ∅, SortedMap.ofEntries [(0, ∅)]⟩ : Dfa) := by decide
  obtain ⟨hbuild, hlabels⟩ := (exists_build_iff_of_ofBytes _).1 _ hdecoded
  refine ⟨_, hdecoded, hlabels.mpr (by decide), fun h => ?_⟩
  exact (hbuild.mp h).2 (0, ∅) (by decide) rfl

/-- Two states `A`: both are decoded, and only the first is found by its label. -/
theorem ofBytes_repeatedLabel : ∃ d : Dfa,
    Machine.ofBytes [2, 1, 65, 1, 65, 0, 0, 0, 0] = .ok d ∧
    d.label 1 = "A" ∧ d.stateId? "A" = some 0 ∧ ¬ d.labels.Nodup ∧
    ¬ ∃ l, (Draft.ofDeclarations l).build = .ok d := by
  refine ⟨⟨["A", "A"], ∅, 0, ∅, ∅⟩, by decide, by decide, by decide, by decide, ?_⟩
  rintro ⟨l, hl⟩
  exact absurd (Machine.buildable_of_build hl).nodup_labels (by decide)

end Automata
