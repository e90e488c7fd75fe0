import Automata.Proofs.Minimization

/-!
# Proofs/Report — what the report of a minimization says

The pairs marked are those that some word tells apart, so being unmarked is an equivalence, its
classes are those of the partition, and the report lists the labels of the pairs outside it
(`isMarked_completed_iff`).
-/

namespace Automata.Dfa

variable {d : Dfa} {p q r : StateId}

/-! ## Unmarked pairs -/

/-- Being equal or unmarked is the same as not being separated. -/
theorem eq_or_isMarked_eq_false_iff (h : d.WellFormed) (hp : p < d.numStates)
    (hq : q < d.numStates) :
    p = q ∨ d.distinguish.table.isMarked p q = false ↔ ¬ d.Separated p q := by
  rw [← isMarked_distinguish_iff h hp hq, Bool.not_eq_true]
  refine or_iff_right_of_imp ?_
  rintro rfl
  exact PairTable.isMarked_self _ p

/-- **In a total automaton being equal or unmarked is an equivalence of states.** -/
theorem equivalence_unmarked (h : d.WellFormed) (ht : d.isTotal = true) :
    Equivalence fun p q : Fin d.numStates =>
      p.val = q.val ∨ d.distinguish.table.isMarked p q = false where
  refl p := .inl rfl
  symm {p q} hpq := hpq.imp Eq.symm fun hpq => by rwa [PairTable.isMarked_comm]
  trans {p q r} hpq hqr := by
    rw [eq_or_isMarked_eq_false_iff h p.isLt q.isLt] at hpq
    rw [eq_or_isMarked_eq_false_iff h q.isLt r.isLt] at hqr
    rw [eq_or_isMarked_eq_false_iff h p.isLt r.isLt]
    exact not_separated_trans h ht q.isLt hpq hqr

/-- **A pair is marked exactly when some word over the alphabet is accepted from just one of its
states.**  So being equal or unmarked is an equivalence, the partition numbers its classes, and the
report lists the labels of the marked pairs, the lower state first, by the higher state and then by
the lower. -/
theorem isMarked_completed_iff (hd : d.Obtainable) :
    let c := d.minimization.completed
    let marks := c.distinguish.table
    let classes := d.minimization.partition
    (∀ p < c.numStates, ∀ q < c.numStates, p ≠ q → (marks.isMarked p q = true ↔
      ∃ w, (∀ a ∈ w, a ∈ c.alphabet) ∧ c.acceptsFrom p w ≠ c.acceptsFrom q w)) ∧
    (Equivalence fun p q : Fin c.numStates => p.val = q.val ∨ marks.isMarked p q = false) ∧
    (∀ p < c.numStates, ∀ q < c.numStates, ∃ i j,
      classIndex? classes p = some i ∧ classIndex? classes q = some j ∧
        (i = j ↔ p = q ∨ marks.isMarked p q = false)) ∧
    ∃ l : List (StateId × StateId),
      d.minimization.distinguishable = l.map (fun s => (c.label s.1, c.label s.2)) ∧
      (∀ p q, (p, q) ∈ l ↔ p < q ∧ q < c.numStates ∧ marks.isMarked p q = true) ∧
      l.Pairwise fun s t => s.2 < t.2 ∨ s.2 = t.2 ∧ s.1 < t.1 := by
  intro c marks classes
  have h : c.WellFormed := wellFormed_complete (wellFormed_trim hd.wellFormed)
  have ht : c.isTotal = true := d.trim.isTotal_complete
  refine ⟨fun p hp q hq _ => ?marked, equivalence_unmarked h ht, fun p hp q hq => ?classes,
    marks.markedPairs, rfl, fun p q => PairTable.mem_markedPairs, marks.pairwise_markedPairs⟩
  case marked =>
    rw [isMarked_distinguish_iff h hp hq, separated_iff_acceptsFrom_ne h ht hp hq]
  case classes =>
    refine ⟨c.classOf p, c.classOf q, classIndex?_stateClasses hp, classIndex?_stateClasses hq, ?_⟩
    rw [classOf_eq_iff h ht hp hq, eq_or_isMarked_eq_false_iff h hp hq]

/-- The word `a` is accepted from the initial state of `letter` and not from the trap. -/
theorem isMarked_completed_letter :
    letter.minimization.completed.distinguish.table.isMarked 0 2 = true :=
  ((isMarked_completed_iff obtainable_letter).1 0 (by decide) 2 (by decide) (by decide)).mpr
    ⟨['a'], fun a ha => by rw [List.mem_singleton.mp ha]; decide, by decide⟩

end Automata.Dfa
