import Automata.Proofs.Minimization

/-!
# Proofs/Noninterference — minimizing sees only what words lead to

The reachable states of two automata, each list by number, may correspond by position: in being
initial, in finality and in every move, missing ones too (`Dfa.Corresponds`).  The reachable parts
then differ in labels alone (`Corresponds.trim_eq`).  Labels name a trap and are handed on, but no
stage compares states by them (`withLabels`), so the least automata are the same one, found in
equally many passes and with a trap in the same cases: `minimize_eq_of_corresponds`.
-/

namespace Automata.Dfa

variable {d e : Dfa} {n : Nat} {labels : List String} {l m : List StateId}

/-! ## Other labels -/

/-- The automaton with other labels. -/
def withLabels (d : Dfa) (labels : List String) : Dfa := { d with labels }

theorem tabulate_eq_withLabels {names : List String} (hlength : names.length = labels.length)
    (alphabet : Alphabet) (initial : StateId) (isFinal : StateId → Bool)
    (next : StateId → Symbol → Option StateId) :
    tabulate names alphabet initial isFinal next =
      (tabulate labels alphabet initial isFinal next).withLabels names := by
  rw [tabulate, tabulate, withLabels, hlength]

theorem numStates_withLabels (hlength : labels.length = d.numStates) :
    (d.withLabels labels).numStates = d.numStates := hlength

theorem isTotal_withLabels (hlength : labels.length = d.numStates) :
    (d.withLabels labels).isTotal = d.isTotal := by
  rw [isTotal, isTotal, undefinedTransitions, undefinedTransitions, Machine.states, Machine.states,
    numStates_withLabels hlength]
  rfl

/-- **A trap is added whatever the labels**, though they name it. -/
theorem isSome_trap?_withLabels (hlength : labels.length = d.numStates) :
    (d.withLabels labels).trap?.isSome = d.trap?.isSome := by
  rw [trap?, trap?, isTotal_withLabels hlength]
  split <;> rfl

theorem addTrap_withLabels (hlength : labels.length = d.numStates) (name name' : String) :
    (d.withLabels labels).addTrap name = (d.addTrap name').withLabels (labels ++ [name]) := by
  have hlength' : (labels ++ [name]).length = (d.labels ++ [name']).length := by
    rw [List.length_append, List.length_append, hlength, Machine.numStates]
    rfl
  rw [addTrap, numStates_withLabels hlength]
  exact tabulate_eq_withLabels hlength' _ _ _ _

/-- **Automata that differ in labels alone are completed to such**, one label for each state. -/
theorem complete_withLabels (hlength : labels.length = d.numStates) :
    ∃ names, names.length = d.complete.numStates ∧
      (d.withLabels labels).complete = d.complete.withLabels names := by
  rw [complete, complete, trap?, trap?, isTotal_withLabels hlength]
  cases d.isTotal with
  | true => exact ⟨labels, hlength, rfl⟩
  | false =>
      refine ⟨_, ?_, addTrap_withLabels hlength _ _⟩
      rw [List.length_append, hlength]
      exact numStates_addTrap.symm

/-! ## Marks and classes -/

/-- A pass does not look at labels. -/
theorem pass_withLabels : ∀ (k : List (StateId × StateId)) (u : PairTable n),
    (d.withLabels labels).pass k u = d.pass k u
  | [], _ => rfl
  | (p, q) :: k, u => by
      have hsplitter : (d.withLabels labels).splitter? u p q = d.splitter? u p q := rfl
      rw [pass, pass, hsplitter, pass_withLabels k]
      simp only [pass_withLabels k]

theorem propagate_withLabels (u : PairTable n) :
    (d.withLabels labels).propagate u = d.propagate u := by
  induction u using pass_induction (d := d) with
  | last u h =>
      rw [propagate_of_pass_eq_nil h, propagate_of_pass_eq_nil (by rwa [pass_withLabels]),
        pass_withLabels]
  | more u h ih =>
      rw [propagate_of_pass_ne_nil h, propagate_of_pass_ne_nil (by rwa [pass_withLabels]),
        pass_withLabels, ih]

/-- **Passes and classes do not depend on labels.** -/
theorem distinguish_withLabels (hlength : labels.length = d.numStates) :
    (d.withLabels labels).distinguish.passes = d.distinguish.passes ∧
      (d.withLabels labels).stateClasses = d.stateClasses := by
  have hpropagate : (d.withLabels labels).distinguish =
      d.propagate (d.finalityTable (d.withLabels labels).numStates) := propagate_withLabels _
  rw [stateClasses, hpropagate, numStates_withLabels hlength]
  exact ⟨rfl, rfl⟩

/-! ## Corresponding states -/

/-- **The states on two lists behave the same, position by position.** -/
structure Corresponds (d e : Dfa) (l m : List StateId) : Prop where
  /-- The initial states stand at the same position. -/
  initial : m.idxOf e.initial = l.idxOf d.initial
  /-- Both states at a position are final or none is, and each symbol leads both to the same
  position or none to any. -/
  states : List.Forall₂ (fun s t => e.isFinal t = d.isFinal s ∧
    ∀ a ∈ d.alphabet, (e.next? t a).map m.idxOf = (d.next? s a).map l.idxOf) l m

/-- Beyond the end of both lists nothing stands, and before it what corresponds. -/
theorem Corresponds.getElem?_cases (h : Corresponds d e l m) (i : Nat) :
    l[i]? = none ∧ m[i]? = none ∨ ∃ s t, l[i]? = some s ∧ m[i]? = some t ∧
      e.isFinal t = d.isFinal s ∧
      ∀ a ∈ d.alphabet, (e.next? t a).map m.idxOf = (d.next? s a).map l.idxOf := by
  obtain ⟨hlength, hall⟩ := List.forall₂_iff_get.mp h.states
  by_cases hi : i < l.length
  · exact .inr ⟨_, _, List.getElem?_eq_getElem hi, List.getElem?_eq_getElem (hlength ▸ hi),
      hall i hi (hlength ▸ hi)⟩
  · have hi : l.length ≤ i := Nat.le_of_not_lt hi
    exact .inl ⟨List.getElem?_eq_none hi, List.getElem?_eq_none (hlength ▸ hi)⟩

/-- **Where the reachable states correspond, the reachable parts differ in labels alone.** -/
theorem Corresponds.trim_eq (hd : d.WellFormed) (he : e.WellFormed)
    (halphabet : e.alphabet = d.alphabet) (h : Corresponds d e d.kept e.kept) :
    e.trim = d.trim.withLabels (e.kept.map e.label) := by
  have hlabels : (e.kept.map e.label).length = (d.kept.map d.label).length := by
    rw [List.length_map, List.length_map, h.states.length_eq]
  have hfinal : (fun i : StateId => (e.kept[i]?.map e.isFinal).getD false) =
      fun i => (d.kept[i]?.map d.isFinal).getD false := by
    funext i
    obtain ⟨hs, ht⟩ | ⟨s, t, hs, ht, hst, -⟩ := h.getElem?_cases i <;> rw [hs, ht]
    · rfl
    · rw [Option.map_some, Option.map_some, hst]
  have hnext : (fun (i : StateId) a => e.kept[i]?.bind fun t => (e.next? t a).bind e.kept.idxOf?) =
      fun i a => d.kept[i]?.bind fun s => (d.next? s a).bind d.kept.idxOf? := by
    funext i a
    obtain ⟨hs, ht⟩ | ⟨s, t, hs, ht, -, hst⟩ := h.getElem?_cases i <;> rw [hs, ht]
    · rfl
    rw [Option.bind_some, Option.bind_some, bind_idxOf?_kept he (List.mem_of_getElem? ht),
      bind_idxOf?_kept hd (List.mem_of_getElem? hs)]
    by_cases ha : a ∈ d.alphabet
    · exact hst a ha
    · rw [next?_eq_none_of_not_mem he (halphabet ▸ ha), next?_eq_none_of_not_mem hd ha]
      rfl
  rw [trim, restrict, trim, restrict, halphabet, h.initial, hfinal, hnext]
  exact tabulate_eq_withLabels hlabels _ _ _ _

/-! ## Minimizing -/

/-- **Minimizing sees only what words lead to.**  Where the reachable states of two automata over
one alphabet, each list by number, correspond by position, the least automata are the same one,
found in equally many passes, and a trap is added to both or to none. -/
theorem minimize_eq_of_corresponds (hd : d.Obtainable) (he : e.Obtainable)
    (halphabet : e.alphabet = d.alphabet)
    (h : Corresponds d e d.reachable.mergeSort e.reachable.mergeSort) :
    d.minimize = e.minimize ∧ d.minimization.passes = e.minimization.passes ∧
      d.minimization.trap.isSome = e.minimization.trap.isSome := by
  rw [mergeSort_reachable hd.wellFormed, mergeSort_reachable he.wellFormed] at h
  have htrim := h.trim_eq hd.wellFormed he.wellFormed halphabet
  have hlength : (e.kept.map e.label).length = d.trim.numStates := by
    rw [List.length_map, numStates_trim, h.states.length_eq]
  obtain ⟨names, hnames, hcomplete⟩ := complete_withLabels hlength
  obtain ⟨hpasses, hclasses⟩ := distinguish_withLabels hnames
  refine ⟨?dfa, ?passes, ?trap⟩
  case dfa =>
    rw [minimize_eq, minimize_eq, htrim, hcomplete, hclasses]
    rfl
  case passes =>
    have hpasses' : e.minimization.passes = e.trim.complete.distinguish.passes := rfl
    rw [hpasses', htrim, hcomplete, hpasses]
    rfl
  case trap => rw [trap_minimization, trap_minimization, htrim, isSome_trap?_withLabels hlength]

/-- `letter` among states no word leads to, one final and one that leads to the initial state, and
with a label that a trap could have had. -/
def hiddenLetter : Dfa :=
  (Draft.ofDeclarations [.state "X", .state "S", .state "Y", .state "q2", .symbol 'a',
    .initial "S", .final "X", .final "q2", .transition ⟨"X", 'a', "S"⟩,
    .transition ⟨"Y", 'a', "X"⟩, .transition ⟨"S", 'a', "q2"⟩]).machine

/-- The trap is called otherwise and two states are dropped, but the result is that of `letter`. -/
theorem minimize_eq_of_corresponds_letter :
    hiddenLetter.minimization.unreachable = ["X", "Y"] ∧
    letter.minimization.trap = some "q2" ∧ hiddenLetter.minimization.trap = some "q3" ∧
    letter.minimize = hiddenLetter.minimize := by
  have h : Corresponds letter hiddenLetter letter.reachable.mergeSort
      hiddenLetter.reachable.mergeSort := by
    have hsymbol : ∀ a ∈ letter.alphabet, a = 'a' := fun a ha => List.mem_singleton.mp ha
    have hkept : letter.kept = [0, 1] := by decide
    have hkept' : hiddenLetter.kept = [1, 3] := by decide
    rw [mergeSort_reachable (by decide), mergeSort_reachable (by decide), hkept, hkept']
    exact ⟨by decide, .cons ⟨by decide, fun a ha => hsymbol a ha ▸ by decide⟩
      (.cons ⟨by decide, fun a ha => hsymbol a ha ▸ by decide⟩ .nil)⟩
  exact ⟨by decide, by decide, by decide, (minimize_eq_of_corresponds obtainable_letter
    (.loaded (Machine.loaded_machine (by decide))) (by decide) h).1⟩

end Automata.Dfa
