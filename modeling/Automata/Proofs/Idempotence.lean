import Automata.Proofs.Minimization
import Automata.Proofs.Minimize.Classes
import Automata.Proofs.Renumbering

/-!
# Proofs/Idempotence — a minimal automaton is minimized to itself

Each stage of minimizing leaves a minimal automaton with its states where they are: all are kept
(`renumbering_trim`), no trap is added, and every class has one member, numbered as that is
(`strictMonoOn_classOf`).  So only labels change (`Minimal.renumbering_minimize`), and as the result
of minimizing is minimal and labelled by number, minimizing once more changes nothing:
`minimize_of_minimal`.
-/

namespace Automata.Dfa

variable {d e : Dfa} {s : StateId}

/-! ## Nothing to drop -/

/-- Where every state is led to, all are kept. -/
theorem kept_eq_range (h : d.WellFormed) (hacc : d.Accessible) :
    d.kept = List.range d.numStates := by
  refine List.filter_eq_self.mpr fun s hs => decide_eq_true ?_
  exact (mem_reachable_iff h).mpr (hacc s (d.mem_states.mp hs))

theorem unreachableLabels_eq_nil (h : d.WellFormed) (hacc : d.Accessible) :
    d.unreachableLabels = [] := by
  rw [unreachableLabels, List.map_eq_nil_iff, List.filter_eq_nil_iff]
  intro s hs
  simpa using (mem_reachable_iff h).mpr (hacc s (d.mem_states.mp hs))

/-- **Dropping nothing moves no state.** -/
theorem renumbering_trim (h : d.WellFormed) (hacc : d.Accessible) : d.Renumbering d.trim id := by
  have hkept := kept_eq_range h hacc
  have hget : ∀ s < d.numStates, d.kept[s]? = some s := fun s hs => by simp [hkept, hs]
  have hidx : ∀ s < d.numStates, s = d.kept.idxOf s := fun s hs => by
    obtain ⟨hlt, heq⟩ := List.getElem?_eq_some_iff.mp (hget s hs)
    rw [← heq, d.nodup_kept.idxOf_getElem, heq]
  refine ⟨?bijOn, hidx _ h.initial_lt, fun s hs => isFinal_trim (hget s hs), fun s hs a _ => ?next⟩
  case bijOn =>
    rw [numStates_trim, hkept, List.length_range]
    exact Set.bijOn_id _
  case next =>
    rw [id, next?_trim h (hget s hs)]
    cases hq : d.next? s a with
    | none => rfl
    | some q => rw [Option.map_some, Option.map_some, id, ← hidx q (next?_lt h hq)]

/-! ## Nothing to add -/

theorem isTotal_trim (h : d.WellFormed) (ht : d.isTotal = true) : d.trim.isTotal = true :=
  (isTotal_trim_iff h).mpr fun s ⟨_, hw⟩ => isTotal_iff.mp ht s (run_lt h hw)

theorem complete_eq_self (ht : d.isTotal = true) : d.complete = d := by
  rw [complete, trap?_eq_none_iff.mpr ht]

/-! ## Nothing to merge -/

/-- Where any two states are told apart, each is the least member of its class. -/
theorem leastOf_classOf (h : d.WellFormed) (ht : d.isTotal = true) (hred : d.Reduced)
    (hs : s < d.numStates) : d.leastOf (d.classOf s) = s := by
  have hlt := classOf_lt hs
  by_contra hne
  exact (classOf_eq_iff h ht (leastOf_lt hlt) hs).mp (classOf_leastOf h hlt)
    (hred _ (leastOf_lt hlt) s hs hne)

/-- **…so classes are numbered as their members are.** -/
theorem strictMonoOn_classOf (h : d.WellFormed) (ht : d.isTotal = true) (hred : d.Reduced) :
    StrictMonoOn d.classOf (Set.Iio d.numStates) := by
  intro p hp q hq hpq
  obtain hlt | heq | hgt := Nat.lt_trichotomy (d.classOf p) (d.classOf q)
  · exact hlt
  · rw [← leastOf_classOf h ht hred hp, heq, leastOf_classOf h ht hred hq] at hpq
    exact absurd hpq (Nat.lt_irrefl q)
  · have hqp := leastOf_lt_leastOf hgt (classOf_lt hp)
    rw [leastOf_classOf h ht hred hp, leastOf_classOf h ht hred hq] at hqp
    exact absurd hpq (Nat.lt_asymm hqp)

/-- Where no two states do the same, merging is a renumbering. -/
theorem renumbering_quotient (h : d.WellFormed) (ht : d.isTotal = true) (hred : d.Reduced) :
    d.Renumbering (d.quotient d.stateClasses) d.classOf := by
  refine ⟨⟨fun s hs => ?mapsTo, (strictMonoOn_classOf h ht hred).injOn, fun i hi => ?surjOn⟩, rfl,
    fun s hs => isFinal_quotient h hs, fun s hs a _ => next?_quotient h ht hs⟩
  case mapsTo =>
    rw [numStates_quotient]
    exact classOf_lt hs
  case surjOn =>
    rw [numStates_quotient] at hi
    exact exists_classOf_eq h hi

/-! ## Minimal automata -/

/-- **A minimal automaton is minimized to the same states.** -/
theorem Minimal.renumbering_minimize (hd : d.Minimal) : d.Renumbering d.minimize id := by
  have h := hd.wellFormed
  have hwf := wellFormed_trim h
  have ht := isTotal_trim h hd.isTotal
  have htrim := renumbering_trim h hd.accessible
  have hred := htrim.reduced h hwf d.alphabet_trim hd.reduced
  have hquotient : d.trim.Renumbering (d.trim.quotient d.trim.stateClasses) id :=
    (renumbering_quotient hwf ht hred).id_of_strictMonoOn hwf (strictMonoOn_classOf hwf ht hred)
  rw [minimize_eq, complete_eq_self ht]
  exact htrim.trans hquotient d.alphabet_trim

theorem labels_minimize (d : Dfa) :
    d.minimize.labels = (List.range d.minimize.numStates).map StateId.canonicalLabel := by
  rw [minimize_eq, numStates_quotient]
  rfl

/-- **Minimized automata with the same states are equal.** -/
theorem minimize_eq_minimize_of_id (hd : d.WellFormed) (he : e.WellFormed)
    (halphabet : e.alphabet = d.alphabet) (h : d.minimize.Renumbering e.minimize id) :
    e.minimize = d.minimize := by
  refine h.eq_of_id (minimal_minimize hd).wellFormed (minimal_minimize he).wellFormed ?_ ?_
    (fun _ _ => ne_empty_of_find?_tabulate) fun _ _ => ne_empty_of_find?_tabulate
  · rw [alphabet_minimize, alphabet_minimize, halphabet]
  · rw [labels_minimize, labels_minimize, h.numStates_eq_of_id]

/-- **A minimal automaton is minimized to itself, up to the labels of its states.**  So minimizing
what was minimized changes nothing at all, drops no state and adds no trap. -/
theorem minimize_of_minimal :
    (∀ d : Dfa, d.WellFormed → d.isTotal = true →
      (∀ s < d.numStates, ∃ w, d.run w = some s) →
      (∀ p < d.numStates, ∀ q < d.numStates, p ≠ q → d.Separated p q) →
      d.minimize.numStates = d.numStates ∧
      d.minimize.labels = (List.range d.numStates).map StateId.canonicalLabel ∧
      d.minimize.alphabet = d.alphabet ∧ d.minimize.initial = d.initial ∧
      d.minimize.finals = d.finals ∧ ∀ p a, d.minimize.next? p a = d.next? p a) ∧
    ∀ e : Dfa, e.Obtainable → e.minimize.minimize = e.minimize ∧
      e.minimize.minimization.unreachable = [] ∧ e.minimize.minimization.trap = none := by
  refine ⟨fun d h ht hacc hred => ?_, fun e he => ?_⟩
  · have hsame : d.Renumbering d.minimize id := Minimal.renumbering_minimize ⟨h, ht, hacc, hred⟩
    have hmin := (minimal_minimize h).wellFormed
    refine ⟨hsame.numStates_eq_of_id, ?_, d.alphabet_minimize, hsame.initial.symm,
      hsame.finals_eq_of_id h hmin, hsame.next?_eq_of_id h hmin d.alphabet_minimize⟩
    rw [labels_minimize, hsame.numStates_eq_of_id]
  · have hmin := minimal_minimize he.wellFormed
    rw [unreachable_minimization, trap_minimization]
    refine ⟨?_, unreachableLabels_eq_nil hmin.wellFormed hmin.accessible,
      trap?_eq_none_iff.mpr (isTotal_trim hmin.wellFormed hmin.isTotal)⟩
    exact minimize_eq_minimize_of_id he.wellFormed hmin.wellFormed e.alphabet_minimize
      hmin.renumbering_minimize

/-- The words over `a` of even length; the initial state is not the first one. -/
def evenLength : Dfa :=
  (Draft.ofDeclarations [.state "odd", .state "even", .symbol 'a', .initial "even", .final "even",
    .transition ⟨"even", 'a', "odd"⟩, .transition ⟨"odd", 'a', "even"⟩]).machine

/-- The states of `evenLength` keep their numbers, and so do those of any minimized automaton. -/
theorem minimize_of_minimal_evenLength :
    evenLength.minimize.labels = ["q0", "q1"] ∧ evenLength.minimize.initial = 1 ∧
    evenLength.minimize.next? 1 'a' = some 0 ∧ letter.minimize.minimize = letter.minimize := by
  have hreached : ∀ s < evenLength.numStates, ∃ w, evenLength.run w = some s := by
    intro s hs
    obtain rfl | rfl : s = 0 ∨ s = 1 := Nat.le_one_iff_eq_zero_or_eq_one.mp (Nat.le_of_lt_succ hs)
    · exact ⟨['a'], by decide⟩
    · exact ⟨[], by decide⟩
  have hfinal : ∀ p < evenLength.numStates, ∀ q < evenLength.numStates, p ≠ q →
      evenLength.isFinal p ≠ evenLength.isFinal q := by decide
  obtain ⟨-, hlabels, -, hinitial, -, hnext⟩ := minimize_of_minimal.1 evenLength (by decide)
    (by decide) hreached fun p hp q hq hpq => separated_of_isFinal_ne (hfinal p hp q hq hpq)
  refine ⟨hlabels.trans (by decide), hinitial.trans (by decide), (hnext 1 'a').trans (by decide), ?_⟩
  exact (minimize_of_minimal.2 letter obtainable_letter).1

end Automata.Dfa
