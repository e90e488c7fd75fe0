import Automata.Proofs.Runs
import Automata.Proofs.Search

/-!
# Proofs/Reachability — the states some word leads to

`mem_reachable_iff`: the breadth-first search of a well-formed automaton lists a state exactly when
some word leads to it.  So automata are compared on the states listed only (`evaluate_eq_of_map`).
An automaton is `Accessible` if some word leads to each of its states.
-/

namespace Automata.Dfa

variable {d : Dfa} {p q : StateId}

theorem mem_successors_iff (h : d.WellFormed) :
    q ∈ d.successors p ↔ ∃ a, d.next? p a = some q := by
  rw [successors, List.mem_filterMap]
  constructor
  · rintro ⟨a, _, ha⟩
    exact ⟨a, ha⟩
  · rintro ⟨a, ha⟩
    exact ⟨a, mem_alphabet_of_next? h ha, ha⟩

/-- Moves lead to a state exactly when a word does. -/
theorem leads_successors_iff (h : d.WellFormed) :
    Leads d.successors p q ↔ ∃ w, d.runFrom p w = some q := by
  constructor
  · intro hpq
    induction hpq with
    | refl => exact ⟨[], rfl⟩
    | tail _ hr ih =>
        obtain ⟨w, hw⟩ := ih
        obtain ⟨a, ha⟩ := (mem_successors_iff h).mp hr
        exact ⟨w ++ [a], by rw [runFrom_append, hw, Option.bind_some, runFrom_cons, ha]; rfl⟩
  · rintro ⟨w, hw⟩
    induction w generalizing p with
    | nil => exact Option.some.inj hw ▸ .refl
    | cons a w ih =>
        rw [runFrom_cons] at hw
        obtain ⟨r, hr, hw⟩ := Option.bind_eq_some_iff.mp hw
        exact .head ((mem_successors_iff h).mpr ⟨a, hr⟩) (ih hw)

theorem lt_of_mem_successors (h : d.WellFormed) :
    ∀ s ∈ Finset.range d.numStates, ∀ t ∈ d.successors s, t ∈ Finset.range d.numStates := by
  intro s _ t ht
  obtain ⟨a, ha⟩ := (mem_successors_iff h).mp ht
  exact Finset.mem_range.mpr (next?_lt h ha)

/-- The initial state comes first. -/
theorem reachable_eq_cons (d : Dfa) : ∃ l, d.reachable = d.initial :: l :=
  searchFrom_eq_append _ _ _

/-- **The search lists the states some word leads to, and no others.** -/
theorem mem_reachable_iff (h : d.WellFormed) : q ∈ d.reachable ↔ ∃ w, d.run w = some q := by
  rw [reachable, mem_search_iff (lt_of_mem_successors h) (Finset.mem_range.mpr h.initial_lt)
    (Finset.card_range _).le]
  exact leads_successors_iff h

theorem nodup_reachable (h : d.WellFormed) : d.reachable.Nodup :=
  nodup_search (lt_of_mem_successors h) (Finset.mem_range.mpr h.initial_lt)
    (Finset.card_range _).le

theorem mem_reachable_of_next? (h : d.WellFormed) {a : Symbol} (hp : p ∈ d.reachable)
    (hq : d.next? p a = some q) : q ∈ d.reachable := by
  obtain ⟨w, hw⟩ := (mem_reachable_iff h).mp hp
  exact (mem_reachable_iff h).mpr ⟨w ++ [a], by rw [run_concat, hw, Option.bind_some, hq]⟩

/-- In a total automaton no state a search lists lacks a move. -/
theorem exists_next?_of_isTotal (h : d.WellFormed) (ht : d.isTotal = true) :
    ∀ s ∈ d.reachable, ∀ a ∈ d.alphabet, ∃ q, d.next? s a = some q := by
  intro s hs
  obtain ⟨w, hw⟩ := (mem_reachable_iff h).mp hs
  exact isTotal_iff.mp ht s (run_lt h hw)

/-- **A map of the states a search lists that carries moves to moves keeps every outcome.** -/
theorem evaluate_eq_of_map {e : Dfa} {f : StateId → StateId} (hd : d.WellFormed)
    (he : e.WellFormed) (halphabet : e.alphabet = d.alphabet) (hinitial : f d.initial = e.initial)
    (hfinal : ∀ s ∈ d.reachable, e.isFinal (f s) = d.isFinal s)
    (hnext : ∀ s ∈ d.reachable, ∀ a ∈ d.alphabet, e.next? (f s) a = (d.next? s a).map f)
    (w : List Symbol) : e.evaluate w = d.evaluate w := by
  have hrun : e.run w = (d.run w).map f := by
    rw [run, ← hinitial]
    exact runFrom_map (P := (· ∈ d.reachable)) (fun _ _ _ hp hq => mem_reachable_of_next? hd hp hq)
      (fun p _ hp => next?_map hd he halphabet (hnext p hp)) ((mem_reachable_iff hd).mpr ⟨[], rfl⟩)
  exact evaluate_eq_of_run_eq_map hrun fun s hs => hfinal s ((mem_reachable_iff hd).mpr ⟨w, hs⟩)

/-- **Some word leads to every state.** -/
def Accessible (d : Dfa) : Prop := ∀ s < d.numStates, ∃ w, d.run w = some s

end Automata.Dfa
