import Automata.Proofs.Indexed.Exploration
import Automata.Proofs.Indexed.Quotient
import Automata.Proofs.Minimization

/-!
# Proofs/Indexed/Minimization — no algorithm looks up what is not there

The stages of minimizing an automaton follow on one another, each with look-ups that may fail, and
the report they make is the report of the minimization (`Dfa.report?_eq`).  So on automata that can
be obtained none of the look-ups fails: not in the texts, not in the subset construction and not in
the minimization.
-/

namespace Automata

/-- What is told of a minimization. -/
structure Report where
  dfa : Dfa
  unreachable : List String
  trap : Option String
  passes : Nat
  distinguishable : List (String × String)
  classes : List (List String)

/-- The report, in terms of labels alone. -/
def Minimization.report (r : Minimization) : Report :=
  ⟨r.dfa, r.unreachable, r.trap, r.passes, r.distinguishable, r.classes⟩

namespace Dense

variable (c : Dense StateId)

/-- The labels of a pair of states if it is marked, mark and labels looked up. -/
def distinguished? {n : Nat} (t : PairTable n) (r : StateId × StateId) :
    Option (Option (String × String)) := do
  if ← t.isMarked? r.1 r.2 then
    let p ← c.labels[r.1]?
    let q ← c.labels[r.2]?
    return some (p, q)
  else
    return none

/-- The line of a pair that was marked because of a symbol, the labels looked up. -/
def markingLine? (k : Marking) : Option LogLine := do
  let p ← c.labels[k.lower]?
  let q ← c.labels[k.upper]?
  return ⟨.trace, "marking (" ++ p ++ ", " ++ q ++ ") on " ++ Text.quoteSymbol k.symbol⟩

end Dense

/-- The report and the log of a minimization, all that is read by position looked up. -/
def Dfa.report? (d : Dfa) : Option (Report × List LogLine) := do
  let unreachable ← d.unreachableLabels?
  let part ← d.part?
  let (c, trap) := part.complete
  let found ← c.distinguish? c.labels.length
  let markings ← found.markings.mapM c.markingLine?
  let numbers ← found.table.partition?
  let distinguishable ← (pairs c.labels.length).filterMapM (c.distinguished? found.table)
  let (dfa, classes) ← c.quotient? numbers
  return (⟨dfa, unreachable, trap, found.passes, distinguishable, classes⟩,
    (if unreachable.isEmpty then []
      else [⟨.debug, "removing unreachable states: " ++ ", ".intercalate unreachable⟩]) ++
    (trap.toList.map fun l => ⟨.debug, "adding trap state " ++ l⟩) ++ markings ++
    [⟨.debug, "minimization: " ++ classes.length.repr ++ " classes after " ++
      found.passes.repr ++ " passes"⟩])

namespace Dense.Holds

variable {c : Dense StateId} {d : Dfa}

/-! ## Marked pairs have labels -/

theorem mapM_markingLine?_eq (hc : c.Holds d) :
    d.distinguish.markings.mapM c.markingLine? = some (d.distinguish.markings.map fun k =>
      ⟨.trace, "marking (" ++ d.label k.lower ++ ", " ++ d.label k.upper ++ ") on " ++
        Text.quoteSymbol k.symbol⟩) := by
  refine mapM_eq_some fun k hk => ?_
  obtain ⟨hlt, hupper⟩ := mem_pairs.mp (Dfa.mem_pairs_of_mem_markings hk)
  rw [markingLine?, hc.labels_getElem? (Nat.lt_trans hlt hupper), hc.labels_getElem? hupper]
  rfl

theorem filterMapM_distinguished?_eq (hc : c.Holds d) :
    (pairs d.numStates).filterMapM (c.distinguished? d.distinguish.table) =
      some (d.distinguish.table.markedPairs.map fun r => (d.label r.1, d.label r.2)) := by
  rw [PairTable.markedPairs, ← List.filterMap_eq_map, List.filterMap_filter]
  refine filterMapM_eq_some fun r hr => ?_
  obtain ⟨hlt, hq⟩ := mem_pairs.mp hr
  have hp : r.1 < d.numStates := Nat.lt_trans hlt hq
  rw [distinguished?, PairTable.isMarked?_eq hp hq, hc.labels_getElem? hp, hc.labels_getElem? hq,
    Option.bind_eq_bind, Option.bind_some]
  split <;> rfl

end Dense.Holds

/-- **Minimizing looks nothing up in vain.** -/
theorem Dfa.report?_eq {d : Dfa} (h : d.WellFormed) :
    d.report? = some (d.minimization.report, d.minimization.log) := by
  obtain ⟨hc, htrap⟩ := holds_complete (wellFormed_trim h)
  have hw : d.trim.complete.WellFormed := wellFormed_complete (wellFormed_trim h)
  have ht : d.trim.complete.isTotal = true := d.trim.isTotal_complete
  have hlength : d.trim.dense.complete.1.labels.length = d.trim.complete.numStates := by
    rw [hc.labels]
    rfl
  rw [report?, unreachableLabels?_eq, part?_eq h]
  simp only [Option.bind_eq_bind, Option.bind_some]
  rw [hlength, hc.distinguish?_eq hw ht]
  simp only [Option.bind_some]
  rw [hc.mapM_markingLine?_eq, partition?_eq hw ht, hc.filterMapM_distinguished?_eq]
  simp only [Option.bind_some]
  rw [hc.quotient?_eq hw ht, htrap, Option.bind_some, List.length_map]
  rfl

/-! ## Automata that can be obtained -/

/-- A word is read through states of the automaton. -/
theorem Dfa.lt_of_mem_visitFrom {d : Dfa} (h : d.WellFormed) :
    ∀ {w : List Symbol} {p s : StateId} {l : List StateId}, p < d.numStates →
      d.visitFrom [] p w = some l → s ∈ l → s < d.numStates
  | [], p, s, l, hp, hl, hs => by
      obtain rfl := Option.some.inj hl
      exact List.mem_singleton.mp hs ▸ hp
  | a :: w, p, s, l, hp, hl, hs => by
      rw [visitFrom_cons] at hl
      obtain ⟨q, hq, hl⟩ := Option.bind_eq_some_iff.mp hl
      obtain ⟨l, hl', rfl⟩ := Option.map_eq_some_iff.mp hl
      obtain rfl | hs := List.mem_cons.mp hs
      · exact hp
      · exact lt_of_mem_visitFrom h (next?_lt h hq) hl' hs

/-- A state that is numbered by the subset construction stands for a set of states. -/
theorem Nfa.exists_stateSet? {n : Nfa} {i : StateId} (hi : i < n.determinize.numStates) :
    ∃ S, n.subsetConstruction.stateSet? i = some S := by
  have hlength : i < n.reachableSets.length := by
    rw [determinize, subsetConstruction, ofSets, Dfa.numStates_tabulate,
      Dfa.length_canonicalLabels] at hi
    exact hi
  exact ⟨_, List.getElem?_eq_getElem hlength⟩

/-- **No look-up fails on an automaton that can be obtained.**  Every label is found of a state that
is listed, shown, searched, led to or read to.  The subset construction finds each set of states by
its number; the minimization finds every state, mark, move and class by its place, and leaves no
state without a class. -/
theorem lookups_eq_some :
    (∀ d : Dfa, d.Obtainable →
      d.listing? = some d.listing ∧ d.formal? = some d.formal ∧
      d.table? = some (d.gridLines d.columns d.cell) ∧
      d.labelsOf? d.reachable = some (d.reachable.map d.label) ∧
      (∀ t ∈ d.transitions, d.labelled? t = some (d.label t.1, t.2.1, [d.label t.2.2])) ∧
      (∀ w l, d.stateSequence w = some l → d.labelsOf? l = some (l.map d.label)) ∧
      d.report? = some (d.minimization.report, d.minimization.log)) ∧
    ∀ n : Nfa, n.Loaded →
      n.listing? = some n.listing ∧ n.formal? = some n.formal ∧
      n.table? = some (n.gridLines n.columns n.cell) ∧
      (∀ t ∈ n.transitions, n.labelled? t = some (n.label t.1, t.2.1, t.2.2.map n.label)) ∧
      (∀ w, n.labelsOf? (n.read w).toList = some ((n.read w).toList.map n.label)) ∧
      n.subsetConstruction? = some (n.subsetConstruction, n.determinizeLog) ∧
      ∀ i < n.determinize.numStates, ∃ S, n.subsetConstruction.stateSet? i = some S := by
  refine ⟨fun d hd => ?dfa, fun n hn => ?nfa⟩
  case dfa =>
    have h := hd.wellFormed
    refine ⟨Machine.listing?_eq h, Machine.tuple?_eq h _, Dfa.table?_eq h,
      Machine.labelsOf?_eq fun s hs => ?reachable, fun t ht => Machine.labelled?_eq h ht,
      fun w l hl => Machine.labelsOf?_eq fun s hs => ?sequence, Dfa.report?_eq h⟩
    case reachable =>
      obtain ⟨w, hw⟩ := (Dfa.mem_reachable_iff h).mp hs
      exact Dfa.run_lt h hw
    case sequence => exact Dfa.lt_of_mem_visitFrom h h.initial_lt hl hs
  case nfa =>
    have h := hn.wellFormed
    exact ⟨Machine.listing?_eq h, Machine.tuple?_eq h _, Nfa.table?_eq h,
      fun t ht => Machine.labelled?_eq h ht,
      fun w => Machine.labelsOf?_eq fun q hq => Nfa.lt_of_mem_read h hq,
      Nfa.subsetConstruction?_eq h, fun i hi => Nfa.exists_stateSet? hi⟩

/-- A partial automaton is minimized with a trap, and a branching one is made deterministic. -/
theorem lookups_eq_some_letter :
    Dfa.letter.listing? = some "2\nA B\n1\na\n1\nA a B\nA\n1\nB\n" ∧
    (∃ r l, Dfa.letter.report? = some (r, l) ∧ r.unreachable = [] ∧ r.trap = some "q2") ∧
    ∃ c l, Nfa.endsWithA.subsetConstruction? = some (c, l) ∧
      c.stateSets = [SortedSet.ofList [0], SortedSet.ofList [0, 1]] := by
  obtain ⟨hlisting, -, -, -, -, -, hreport⟩ := lookups_eq_some.1 Dfa.letter Dfa.obtainable_letter
  obtain ⟨-, -, -, -, -, hsubset, -⟩ := lookups_eq_some.2 Nfa.endsWithA Nfa.loaded_endsWithA
  exact ⟨hlisting.trans (by decide), ⟨_, _, hreport, by decide, by decide⟩, _, _, hsubset, by decide⟩

end Automata
