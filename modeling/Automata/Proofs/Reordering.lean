import Automata.Proofs.Building
import Automata.Proofs.Indexed.Exploration

/-!
# Proofs/Reordering — the order in which moves were declared leaves no trace in what is computed

Automata that branch store the targets of a state and a symbol in the order they were declared, and
are told apart by it.  Reading a symbol collects targets in sets, where their order is lost
(`Nfa.Rearranges.nextStates_eq`); so automata whose targets differ in order only go through the same
sets on every word, and the subset construction comes upon the same sets in the same order
(`subsetConstruction_eq_of_rearranges`).
-/

namespace Automata

/-- **Two drafts that declare the same**, but for the order and the number of times of their final
states and transitions. -/
structure Draft.Rearranges {τ : Type} (b c : Draft τ) : Prop where
  states_eq : b.states = c.states
  alphabet_eq : b.alphabet = c.alphabet
  initial_eq : b.initial = c.initial
  mem_finals_iff : ∀ k, k ∈ b.finals ↔ k ∈ c.finals
  mem_transitions_iff : ∀ t, t ∈ b.transitions ↔ t ∈ c.transitions

/-- What a draft refers to does not depend on the order, nor whether it was declared. -/
theorem Draft.Rearranges.defects_eq_nil {τ : Type} {b c : Draft τ} (h : b.Rearranges c)
    (hb : b.defects = []) : c.defects = [] := by
  rw [defects_eq_nil_iff] at hb ⊢
  obtain ⟨hinitial, hfinals, htransitions⟩ := hb
  rw [← h.states_eq, ← h.alphabet_eq, ← h.initial_eq]
  exact ⟨hinitial, fun k hk => hfinals k ((h.mem_finals_iff k).mpr hk),
    fun t ht => htransitions t ((h.mem_transitions_iff t).mpr ht)⟩

namespace Nfa

/-- **Two automata that are the same** but for the order in which targets are stored. -/
structure Rearranges (m n : Nfa) : Prop where
  labels_eq : m.labels = n.labels
  alphabet_eq : m.alphabet = n.alphabet
  initial_eq : m.initial = n.initial
  finals_eq : m.finals = n.finals
  successors_perm : ∀ p a, (m.successors p a).Perm (n.successors p a)

namespace Rearranges

variable {m n : Nfa} (h : m.Rearranges n)

include h

/-- **A set does not tell the order its members were put in.** -/
theorem nextStates_eq : m.nextStates = n.nextStates := by
  funext S a
  refine SortedSet.ext_mem fun q => ?_
  rw [mem_nextStates, mem_nextStates]
  simp only [(h.successors_perm _ a).mem_iff]

theorem start_eq : m.start = n.start := by rw [start, start, h.initial_eq]

theorem containsFinal_eq : m.containsFinal = n.containsFinal := by
  funext S
  rw [Bool.eq_iff_iff, containsFinal_iff, containsFinal_iff, h.finals_eq]

/-- The same sets are gone through on every word. -/
theorem read_eq : m.read = n.read := by
  funext w
  rw [read, read, readFrom, readFrom, h.nextStates_eq, h.start_eq]

theorem evaluate_eq (w : List Symbol) : m.evaluate w = n.evaluate w := by
  rw [evaluate, evaluate, h.read_eq, h.containsFinal_eq]

/-- **A search comes upon the same sets in the same order.** -/
theorem reachableSets_eq : m.reachableSets = n.reachableSets := by
  have hnext : m.successorSets = n.successorSets := by
    funext S
    rw [successorSets, successorSets, h.alphabet_eq, h.nextStates_eq]
  rw [reachableSets, reachableSets, hnext, h.start_eq, Machine.numStates, Machine.numStates,
    h.labels_eq]

theorem subsetConstruction_eq : m.subsetConstruction = n.subsetConstruction := by
  have hindex : m.nextIndex? = n.nextIndex? := by
    funext sets i a
    rw [nextIndex?, nextIndex?, h.nextStates_eq]
  have hsets : m.ofSets = n.ofSets := by
    funext sets
    rw [ofSets, ofSets, h.alphabet_eq, h.containsFinal_eq, hindex]
  rw [subsetConstruction, subsetConstruction, h.reachableSets_eq, hsets]

theorem determinizeLog_eq : m.determinizeLog = n.determinizeLog := by
  have hlabel : m.label = n.label := by
    funext s
    rw [Machine.label, Machine.label, Machine.label?, Machine.label?, h.labels_eq]
  rw [determinizeLog, determinizeLog, h.reachableSets_eq, hlabel, Machine.numStates,
    Machine.numStates, h.labels_eq]

end Rearranges

end Nfa

/-- **What is built from the same transitions in another order is rearranged.** -/
theorem Draft.Rearranges.machine {b c : Draft (List StateId)} (h : b.Rearranges c) :
    Nfa.Rearranges b.machine c.machine := by
  have hid : b.stateId = c.stateId := by
    funext k
    rw [stateId, stateId, h.states_eq]
  refine ⟨h.states_eq, h.alphabet_eq, ?initial, SortedSet.ext_mem fun q => ?finals,
    fun p a => ?targets⟩
  case initial => rw [Draft.machine, Draft.machine, hid, h.initial_eq]
  case finals =>
    rw [Draft.machine, Draft.machine, SortedSet.mem_ofList, SortedSet.mem_ofList, List.mem_map,
      List.mem_map, hid]
    simp only [h.mem_finals_iff]
  case targets =>
    rw [successors_machine, successors_machine]
    refine (List.perm_ext_iff_of_nodup (nodup_eraseDups _) (nodup_eraseDups _)).mpr fun q => ?_
    rw [List.mem_eraseDups, List.mem_eraseDups, mem_targetsOf, mem_targetsOf, moves, moves,
      List.mem_map, List.mem_map, hid]
    simp only [h.mem_transitions_iff]

/-- **The order of nondeterministic transitions does not matter** — drafts that declare the same
transitions in any order and number verify together, the automata built of them come to the same
outcome on every word, and their subset constructions are equal, numbers and sets, also when the
sets found are looked up by number, with the log. -/
theorem subsetConstruction_eq_of_rearranges {b c : Draft (List StateId)} (h : b.Rearranges c)
    (hb : b.verify = .ok ()) :
    c.verify = .ok () ∧ ∃ m n : Nfa, b.build = .ok m ∧ c.build = .ok n ∧
      (∀ p a, (m.successors p a).Perm (n.successors p a)) ∧
      (∀ w, m.evaluate w = n.evaluate w) ∧
      m.subsetConstruction = n.subsetConstruction ∧
      m.subsetConstruction? = n.subsetConstruction? := by
  obtain ⟨m, hm⟩ := Draft.exists_build_eq_ok_iff.mpr hb
  obtain ⟨hdefects, rfl⟩ := Draft.build_eq_ok_iff.mp hm
  have hc : c.build = .ok c.machine := Draft.build_eq_ok_iff.mpr ⟨h.defects_eq_nil hdefects, rfl⟩
  have hmachines := h.machine
  have hloops : Nfa.subsetConstruction? b.machine = Nfa.subsetConstruction? c.machine := by
    rw [Nfa.subsetConstruction?_eq (Draft.wellFormed_of_build hm),
      Nfa.subsetConstruction?_eq (Draft.wellFormed_of_build hc), hmachines.subsetConstruction_eq,
      hmachines.determinizeLog_eq]
  exact ⟨Draft.exists_build_eq_ok_iff.mp ⟨_, hc⟩, _, _, hm, hc, hmachines.successors_perm,
    hmachines.evaluate_eq, hmachines.subsetConstruction_eq, hloops⟩

/-- Two states and the symbol `a`, with some transitions between them. -/
def fork (transitions : List Transition) : Draft (List StateId) where
  states := ["A", "B"]
  alphabet := SortedSet.ofList ['a']
  initial := some "A"
  finals := ["B"]
  transitions := transitions

/-- Two automata that are told apart have one subset construction. -/
theorem subsetConstruction_eq_of_rearranges_fork : ∃ m n : Nfa,
    (fork [⟨"A", 'a', "A"⟩, ⟨"A", 'a', "B"⟩]).build = .ok m ∧
    (fork [⟨"A", 'a', "B"⟩, ⟨"A", 'a', "A"⟩, ⟨"A", 'a', "B"⟩]).build = .ok n ∧ m ≠ n ∧
    m.subsetConstruction = n.subsetConstruction := by
  obtain ⟨-, m, n, hm, hn, -, -, hsubset, -⟩ := subsetConstruction_eq_of_rearranges
    (b := fork [⟨"A", 'a', "A"⟩, ⟨"A", 'a', "B"⟩])
    (c := fork [⟨"A", 'a', "B"⟩, ⟨"A", 'a', "A"⟩, ⟨"A", 'a', "B"⟩])
    ⟨rfl, rfl, rfl, fun _ => Iff.rfl, fun t => by simp only [fork, List.mem_cons]; tauto⟩
    (by decide)
  refine ⟨m, n, hm, hn, fun h => ?_, hsubset⟩
  exact absurd (hm.trans (h ▸ hn.symm)) (by decide)

end Automata
