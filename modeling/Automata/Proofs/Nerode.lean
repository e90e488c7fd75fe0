import Automata.Proofs.Separation
import Mathlib.Data.Finset.Option
import Mathlib.Data.Set.Function

/-!
# Proofs/Nerode — a minimal automaton is the smallest, and the only one

Words that lead to one state can only be continued alike, so where no two states do the same on all
words the state is known from what a word's continuations are worth (`Reduced.eq_of_run_eq`).  Hence
a reduced automaton injects its states into those of any automaton that accepts the same words
(`Minimal.numStates_le`), up to one state for the words that one cannot read.  Between two minimal
automata this is a bijection that respects moves (`Minimal.exists_renumbering`).
-/

namespace Automata.Dfa

variable {d e : Dfa} {p q s : StateId} {a : Symbol} {u v w : List Symbol} {f : StateId → StateId}

/-- **Every move is there, every state is led to, and any two are told apart.** -/
structure Minimal (d : Dfa) : Prop where
  wellFormed : d.WellFormed
  isTotal : d.isTotal = true
  accessible : d.Accessible
  reduced : d.Reduced

/-! ## Continuations -/

/-- What a word can be continued with depends on the state it leads to. -/
theorem accepts_append_eq (h : d.run u = d.run v) (w : List Symbol) :
    d.accepts (u ++ w) = d.accepts (v ++ w) := by
  have hrun : d.run (u ++ w) = d.run (v ++ w) := by rw [run_append, run_append, h]
  rw [accepts, accepts, evaluate, evaluate, hrun]

/-- **Words with the same continuations lead to one state.** -/
theorem Reduced.eq_of_accepts_append (hd : d.WellFormed) (hred : d.Reduced) (hu : d.run u = some p)
    (hv : d.run v = some q) (h : ∀ w, d.accepts (u ++ w) = d.accepts (v ++ w)) : p = q := by
  by_contra hne
  obtain ⟨w, p', q', hp, hq, hfinal⟩ := hred p (run_lt hd hu) q (run_lt hd hv) hne
  refine hfinal ?_
  have hu' : d.run (u ++ w) = some p' := by rw [run_append, hu, Option.bind_some, hp]
  have hv' : d.run (v ++ w) = some q' := by rw [run_append, hv, Option.bind_some, hq]
  rw [← accepts_of_run hu', ← accepts_of_run hv', h]

/-- **What another automaton for the same words does not tell apart, a reduced one does not.** -/
theorem Reduced.eq_of_run_eq (hd : d.WellFormed) (hred : d.Reduced)
    (hde : ∀ w, e.accepts w = d.accepts w) (hu : d.run u = some p) (hv : d.run v = some q)
    (huv : e.run u = e.run v) : p = q := by
  refine hred.eq_of_accepts_append hd hu hv fun w => ?_
  rw [← hde, ← hde]
  exact accepts_append_eq huv w

/-! ## The number of states -/

/-- **A minimal automaton has at most as many states as there are outcomes of runs** of another
automaton for the same words — states to be in, or none. -/
theorem Minimal.numStates_le_card (hd : d.Minimal) (hde : ∀ w, e.accepts w = d.accepts w)
    {U : Finset (Option StateId)} (hU : ∀ w, (∀ a ∈ w, a ∈ d.alphabet) → e.run w ∈ U) :
    d.numStates ≤ U.card := by
  choose! word hword using hd.accessible
  have hinj : Set.InjOn (fun s => e.run (word s)) (Finset.range d.numStates) := by
    intro p hp q hq hpq
    rw [Finset.coe_range, Set.mem_Iio] at hp hq
    exact hd.reduced.eq_of_run_eq hd.wellFormed hde (hword p hp) (hword q hq) hpq
  rw [← Finset.card_range d.numStates]
  refine Finset.card_le_card_of_injOn _ (fun s hs => ?_) hinj
  rw [Finset.coe_range, Set.mem_Iio] at hs
  exact hU _ (mem_alphabet_of_runFrom hd.wellFormed (hword s hs))

/-- **No total automaton for the same words is smaller.** -/
theorem Minimal.numStates_le (hd : d.Minimal) (he : e.WellFormed) (ht : e.isTotal = true)
    (halphabet : e.alphabet = d.alphabet) (hde : ∀ w, e.accepts w = d.accepts w) :
    d.numStates ≤ e.numStates := by
  have hle := hd.numStates_le_card hde (U := (Finset.range e.numStates).map .some) fun w hw => by
    obtain ⟨q, hq⟩ := exists_run he ht (halphabet ▸ hw)
    rw [hq, Finset.mem_map]
    exact ⟨q, Finset.mem_range.mpr (run_lt he hq), rfl⟩
  rwa [Finset.card_map, Finset.card_range] at hle

/-- **No automaton for the same words is smaller by more than one state.** -/
theorem Minimal.numStates_le_succ (hd : d.Minimal) (he : e.WellFormed)
    (hde : ∀ w, e.accepts w = d.accepts w) : d.numStates ≤ e.numStates + 1 := by
  have hle := hd.numStates_le_card hde (U := Finset.insertNone (Finset.range e.numStates))
    fun w _ => Finset.mem_insertNone.mpr fun q hq => Finset.mem_range.mpr (run_lt he hq)
  rwa [Finset.card_insertNone, Finset.card_range] at hle

/-! ## Renumbering -/

/-- **A bijection between states that respects all that words are judged by.** -/
structure Renumbering (d e : Dfa) (f : StateId → StateId) : Prop where
  bijOn : Set.BijOn f (Set.Iio d.numStates) (Set.Iio e.numStates)
  initial : f d.initial = e.initial
  isFinal : ∀ s < d.numStates, e.isFinal (f s) = d.isFinal s
  next? : ∀ s < d.numStates, ∀ a ∈ d.alphabet, e.next? (f s) a = (d.next? s a).map f

/-- A renumbered state moves as before, on foreign symbols too. -/
theorem Renumbering.next?_eq (h : d.Renumbering e f) (hd : d.WellFormed) (he : e.WellFormed)
    (halphabet : e.alphabet = d.alphabet) (hs : s < d.numStates) :
    e.next? (f s) a = (d.next? s a).map f :=
  next?_map hd he halphabet (h.next? s hs)

/-- **Runs are renumbered state by state.** -/
theorem Renumbering.runFrom_eq (h : d.Renumbering e f) (hd : d.WellFormed) (he : e.WellFormed)
    (halphabet : e.alphabet = d.alphabet) (hs : s < d.numStates) :
    e.runFrom (f s) w = (d.runFrom s w).map f :=
  runFrom_map (fun _ _ _ _ hq => next?_lt hd hq) (fun _ _ => h.next?_eq hd he halphabet) hs

theorem Renumbering.run_eq (h : d.Renumbering e f) (hd : d.WellFormed) (he : e.WellFormed)
    (halphabet : e.alphabet = d.alphabet) (w : List Symbol) : e.run w = (d.run w).map f := by
  rw [run, ← h.initial]
  exact h.runFrom_eq hd he halphabet hd.initial_lt

/-- **Renumbering the states changes no outcome.** -/
theorem Renumbering.evaluate_eq (h : d.Renumbering e f) (hd : d.WellFormed) (he : e.WellFormed)
    (halphabet : e.alphabet = d.alphabet) (w : List Symbol) : e.evaluate w = d.evaluate w :=
  evaluate_eq_of_run_eq_map (h.run_eq hd he halphabet w) fun s hs => h.isFinal s (run_lt hd hs)

/-- **Where a word leads in one minimal automaton tells where it leads in any other.** -/
theorem Minimal.exists_run_map (hd : d.Minimal) (he : e.Minimal)
    (halphabet : e.alphabet = d.alphabet) (hde : ∀ w, e.accepts w = d.accepts w) :
    ∃ f : StateId → StateId, ∀ w s, d.run w = some s → e.run w = some (f s) := by
  choose! word hword using hd.accessible
  refine ⟨fun s => (e.run (word s)).getD 0, fun w s hs => ?_⟩
  have hsw := hword s (run_lt hd.wellFormed hs)
  have hread : ∀ {w}, d.run w = some s → ∃ q, e.run w = some q := fun hs =>
    exists_run he.wellFormed he.isTotal (halphabet ▸ mem_alphabet_of_runFrom hd.wellFormed hs)
  obtain ⟨q, hq⟩ := hread hs
  obtain ⟨r, hr⟩ := hread hsw
  refine hq.trans (congrArg some ?_)
  change q = (e.run (word s)).getD 0
  rw [hr, Option.getD_some]
  exact he.reduced.eq_of_run_eq he.wellFormed (fun w => (hde w).symm) hq hr (hs.trans hsw.symm)

/-- **Minimal automata for the same words differ in the numbers of their states only.** -/
theorem Minimal.exists_renumbering (hd : d.Minimal) (he : e.Minimal)
    (halphabet : e.alphabet = d.alphabet) (hde : ∀ w, e.accepts w = d.accepts w) :
    ∃ f, d.Renumbering e f := by
  obtain ⟨f, hf⟩ := hd.exists_run_map he halphabet hde
  refine ⟨f, ⟨fun s hs => ?mapsTo, fun s hs t ht hst => ?injOn, fun q hq => ?surjOn⟩,
    ?initial, fun s hs => ?isFinal, fun s hs a ha => ?next⟩
  case mapsTo =>
    obtain ⟨u, hu⟩ := hd.accessible s hs
    exact run_lt he.wellFormed (hf u s hu)
  case injOn =>
    obtain ⟨u, hu⟩ := hd.accessible s hs
    obtain ⟨v, hv⟩ := hd.accessible t ht
    refine hd.reduced.eq_of_run_eq hd.wellFormed hde hu hv ?_
    rw [hf u s hu, hf v t hv, hst]
  case surjOn =>
    obtain ⟨w, hw⟩ := he.accessible q hq
    obtain ⟨s, hs⟩ := exists_run hd.wellFormed hd.isTotal
      (halphabet ▸ mem_alphabet_of_runFrom he.wellFormed hw)
    exact ⟨s, run_lt hd.wellFormed hs, Option.some.inj ((hf w s hs).symm.trans hw)⟩
  case initial => exact Option.some.inj (hf [] d.initial rfl).symm
  case isFinal =>
    obtain ⟨u, hu⟩ := hd.accessible s hs
    rw [← accepts_of_run hu, ← accepts_of_run (hf u s hu), hde]
  case next =>
    obtain ⟨u, hu⟩ := hd.accessible s hs
    obtain ⟨t, ht⟩ := isTotal_iff.mp hd.isTotal s hs a ha
    have hua : d.run (u ++ [a]) = some t := by rw [run_concat, hu, Option.bind_some, ht]
    have hfa := hf _ t hua
    rw [run_concat, hf u s hu, Option.bind_some] at hfa
    rw [hfa, ht, Option.map_some]

end Automata.Dfa
