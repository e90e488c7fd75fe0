import Automata.Minimize.Quotient
import Automata.Proofs.Minimize.Marking
import Automata.Proofs.WellFormed

/-!
# Proofs/Minimize/Quotient — the classes are those of not being separated

Placing one more state keeps what a partition is (`PairTable.Partitions.step`): each state is in a
class, no member is marked with the least member of its class, and least members are marked with
each other.  In a total automaton, where the marked pairs are the separated ones, two states share a
class exactly when no word separates them (`classOf_eq_iff`).  So the quotient moves from class to
class (`run_quotient`), every outcome is kept (`evaluate_quotient`), and no two classes do the same
on all words (`reduced_quotient`).
-/

namespace Automata

variable {n k i j : Nat} {t : PairTable n} {cs : List StateClass} {c c' : StateClass}
  {p q s : StateId}

/-! ## Placing states -/

/-- **A state joins the first class it is not marked with**, or makes a new class. -/
theorem placeState_cases (t : PairTable n) (q : StateId) : ∀ cs : List StateClass,
    (∃ l c r, cs = l ++ c :: r ∧ t.isMarked c.first q = false ∧
      placeState t q cs = l ++ ⟨c.first, c.others ++ [q]⟩ :: r) ∨
    ((∀ c ∈ cs, t.isMarked c.first q = true) ∧ placeState t q cs = cs ++ [⟨q, []⟩])
  | [] => .inr ⟨fun _ hc => absurd hc List.not_mem_nil, rfl⟩
  | c :: cs => by
      rw [placeState]
      split
      · rename_i hmarked
        obtain ⟨l, c', r, rfl, hc', heq⟩ | ⟨hall, heq⟩ := placeState_cases t q cs <;> rw [heq]
        · exact .inl ⟨c :: l, c', r, rfl, hc', rfl⟩
        · exact .inr ⟨List.forall_mem_cons.mpr ⟨hmarked, hall⟩, rfl⟩
      · rename_i hunmarked
        exact .inl ⟨[], c, cs, rfl, Bool.eq_false_iff.mpr hunmarked, rfl⟩

/-- Just the state placed is new in the classes. -/
theorem exists_mem_placeState_iff (t : PairTable n) (q : StateId) : ∀ cs : List StateClass,
    (∃ c ∈ placeState t q cs, s ∈ c.members) ↔ (∃ c ∈ cs, s ∈ c.members) ∨ s = q
  | [] => by simp [placeState, StateClass.members]
  | c :: cs => by
      have ih := exists_mem_placeState_iff t q cs
      have hmem : s ∈ StateClass.members ⟨c.first, c.others ++ [q]⟩ ↔ s ∈ c.members ∨ s = q := by
        simp [StateClass.members, or_assoc]
      rw [placeState]
      split
      · rw [List.exists_mem_cons_iff, List.exists_mem_cons_iff, ih, or_assoc]
      · rw [List.exists_mem_cons_iff, List.exists_mem_cons_iff, hmem, or_right_comm]

/-- **The states below `k`, put into classes.** -/
structure PairTable.Partitions (t : PairTable n) (k : Nat) (cs : List StateClass) : Prop where
  /-- Exactly the states below `k` are in a class. -/
  covers : ∀ s, (∃ c ∈ cs, s ∈ c.members) ↔ s < k
  /-- No member is marked with the least member of its class. -/
  unmarked : ∀ c ∈ cs, ∀ s ∈ c.members, t.isMarked c.first s = false
  /-- Least members are marked with each other. -/
  apart : (cs.map StateClass.first).Pairwise fun p q => t.isMarked p q = true

namespace PairTable.Partitions

theorem start (t : PairTable n) : t.Partitions 0 [] where
  covers s := by simp
  unmarked _ hc := absurd hc List.not_mem_nil
  apart := .nil

/-- **Placing the next state makes a partition of one state more.** -/
theorem step (h : t.Partitions k cs) : t.Partitions (k + 1) (placeState t k cs) := by
  have hcovers : ∀ s, (∃ c ∈ placeState t k cs, s ∈ c.members) ↔ s < k + 1 := fun s => by
    rw [exists_mem_placeState_iff, h.covers, Nat.lt_succ_iff_lt_or_eq]
  have hunmarked := h.unmarked
  have hapart := h.apart
  obtain ⟨l, c, r, rfl, hc, heq⟩ | ⟨hall, heq⟩ := placeState_cases t k cs <;>
    rw [heq] at hcovers ⊢
  · -- a class that grows keeps its least member
    have hgrown : ∀ s ∈ StateClass.members ⟨c.first, c.others ++ [k]⟩,
        t.isMarked c.first s = false := by
      intro s hs
      obtain hs | rfl : s ∈ c.members ∨ s = k := by
        simpa [StateClass.members, or_assoc] using hs
      · exact hunmarked c (List.mem_append_right l List.mem_cons_self) s hs
      · exact hc
    rw [List.forall_mem_append, List.forall_mem_cons] at hunmarked
    rw [List.map_append, List.map_cons] at hapart
    refine ⟨hcovers, ?_, ?_⟩
    · rw [List.forall_mem_append, List.forall_mem_cons]
      exact ⟨hunmarked.1, hgrown, hunmarked.2.2⟩
    · rw [List.map_append, List.map_cons]
      exact hapart
  · refine ⟨hcovers, ?_, ?_⟩
    · rw [List.forall_mem_append, List.forall_mem_singleton]
      refine ⟨hunmarked, fun s hs => ?_⟩
      obtain rfl : s = k := List.mem_singleton.mp hs
      exact t.isMarked_self s
    · rw [List.map_append, List.pairwise_append]
      refine ⟨hapart, List.pairwise_singleton _ _, fun p hp q hq => ?_⟩
      obtain ⟨c, hc, rfl⟩ := List.mem_map.mp hp
      obtain rfl := List.mem_singleton.mp hq
      exact hall c hc

/-- **The classes of a table are a partition of all states.** -/
theorem classes (t : PairTable n) : t.Partitions n t.classes := by
  have key : ∀ k, t.Partitions k ((List.range k).foldl (fun cs q => placeState t q cs) []) := by
    intro k
    induction k with
    | zero => exact start t
    | succ k ih =>
        rw [List.range_succ, List.foldl_concat]
        exact ih.step
  exact key n

/-- Classes with unmarked least members are the same class. -/
theorem eq_of_isMarked_eq_false (h : t.Partitions k cs) (hi : cs[i]? = some c)
    (hj : cs[j]? = some c') (hcc : t.isMarked c.first c'.first = false) : i = j := by
  obtain ⟨hilt, rfl⟩ := List.getElem?_eq_some_iff.mp hi
  obtain ⟨hjlt, rfl⟩ := List.getElem?_eq_some_iff.mp hj
  have hapart := List.pairwise_iff_getElem.mp h.apart
  simp only [List.length_map, List.getElem_map] at hapart
  obtain hij | hij | hij := Nat.lt_trichotomy i j
  · exact absurd (hapart i j hilt hjlt hij) (Bool.eq_false_iff.mp hcc)
  · exact hij
  · rw [isMarked_comm] at hcc
    exact absurd (hapart j i hjlt hilt hij) (Bool.eq_false_iff.mp hcc)

theorem first_lt (h : t.Partitions k cs) (hc : c ∈ cs) : c.first < k :=
  (h.covers c.first).mp ⟨c, hc, List.mem_cons_self⟩

/-- **Every state is looked up in a class it belongs to.** -/
theorem exists_class (h : t.Partitions k cs) (hs : s < k) :
    ∃ i c, classIndex? cs s = some i ∧ cs[i]? = some c ∧ s ∈ c.members := by
  obtain ⟨c, hc, hmem⟩ := (h.covers s).mpr hs
  have hi := List.findIdx?_eq_some_of_exists (p := fun c => decide (s ∈ c.members))
    ⟨c, hc, decide_eq_true hmem⟩
  obtain ⟨hlt, hfound, -⟩ := List.findIdx?_eq_some_iff_getElem.mp hi
  exact ⟨_, _, hi, List.getElem?_eq_getElem hlt, of_decide_eq_true hfound⟩

end PairTable.Partitions

namespace Dfa

variable {d : Dfa} {a : Symbol} {w : List Symbol}

/-! ## The classes of an automaton -/

/-- The states of an automaton that no word tells apart, put into classes. -/
def stateClasses (d : Dfa) : List StateClass := d.distinguish.table.classes

/-- The class of a state. -/
def classOf (d : Dfa) (s : StateId) : StateId := (classIndex? d.stateClasses s).getD 0

theorem partitions_stateClasses (d : Dfa) :
    d.distinguish.table.Partitions d.numStates d.stateClasses := .classes _

theorem classIndex?_stateClasses (hs : s < d.numStates) :
    classIndex? d.stateClasses s = some (d.classOf s) := by
  obtain ⟨i, c, hi, -⟩ := d.partitions_stateClasses.exists_class hs
  rw [classOf, hi]
  rfl

/-- A state is a member of its class. -/
theorem exists_mem_members_classOf (hs : s < d.numStates) :
    ∃ c, d.stateClasses[d.classOf s]? = some c ∧ s ∈ c.members := by
  obtain ⟨i, c, hi, hc, hmem⟩ := d.partitions_stateClasses.exists_class hs
  rw [classIndex?_stateClasses hs] at hi
  obtain rfl := Option.some.inj hi
  exact ⟨c, hc, hmem⟩

/-- **No word separates a state from the least member of its class.** -/
theorem exists_getElem?_classOf (h : d.WellFormed) (hs : s < d.numStates) :
    ∃ c, d.stateClasses[d.classOf s]? = some c ∧ c.first < d.numStates ∧
      ¬ d.Separated c.first s := by
  have hpart := d.partitions_stateClasses
  obtain ⟨c, hc, hmem⟩ := exists_mem_members_classOf hs
  have hcs := List.mem_of_getElem? hc
  have hfirst := hpart.first_lt hcs
  refine ⟨c, hc, hfirst, fun hsep => ?_⟩
  have hmarked := (isMarked_distinguish_iff h hfirst hs).mpr hsep
  exact absurd hmarked (Bool.eq_false_iff.mp (hpart.unmarked c hcs s hmem))

/-- **Two states share a class exactly when no word separates them.** -/
theorem classOf_eq_iff (h : d.WellFormed) (ht : d.isTotal = true) (hp : p < d.numStates)
    (hq : q < d.numStates) : d.classOf p = d.classOf q ↔ ¬ d.Separated p q := by
  obtain ⟨c, hc, hcn, hcp⟩ := exists_getElem?_classOf h hp
  obtain ⟨c', hc', hcn', hcq⟩ := exists_getElem?_classOf h hq
  constructor
  · intro heq
    rw [heq, hc'] at hc
    obtain rfl := Option.some.inj hc
    exact not_separated_trans h ht hcn' (mt Separated.symm hcp) hcq
  · intro hpq
    have hcq' := not_separated_trans h ht hp hcp hpq
    have hcc := not_separated_trans h ht hq hcq' (mt Separated.symm hcq)
    refine d.partitions_stateClasses.eq_of_isMarked_eq_false hc hc' (Bool.eq_false_iff.mpr ?_)
    rwa [Ne, isMarked_distinguish_iff h hcn hcn']

/-- Every class is the class of a state. -/
theorem exists_classOf_eq (h : d.WellFormed) (hi : i < d.stateClasses.length) :
    ∃ s < d.numStates, d.classOf s = i := by
  have hpart := d.partitions_stateClasses
  have hlt := hpart.first_lt (List.getElem_mem hi)
  obtain ⟨c, hc, hcn, hsep⟩ := exists_getElem?_classOf h hlt
  refine ⟨_, hlt, hpart.eq_of_isMarked_eq_false hc (List.getElem?_eq_getElem hi) ?_⟩
  rwa [Bool.eq_false_iff, Ne, isMarked_distinguish_iff h hcn hlt]

/-! ## The quotient -/

theorem classOf_lt (hs : s < d.numStates) : d.classOf s < d.stateClasses.length := by
  obtain ⟨c, hc, -⟩ := exists_mem_members_classOf hs
  exact (List.getElem?_eq_some_iff.mp hc).1

@[simp] theorem numStates_quotient (d : Dfa) (cs : List StateClass) :
    (d.quotient cs).numStates = cs.length := by
  rw [quotient, numStates_tabulate, length_canonicalLabels]

@[simp] theorem alphabet_quotient (d : Dfa) (cs : List StateClass) :
    (d.quotient cs).alphabet = d.alphabet := rfl

/-- A class moves to the class its least member is led to. -/
theorem next?_quotient_of_getElem? (h : d.WellFormed) (hi : cs[i]? = some c) :
    (d.quotient cs).next? i a = (d.next? c.first a).bind (classIndex? cs) := by
  obtain ⟨hlt, -⟩ := List.getElem?_eq_some_iff.mp hi
  by_cases ha : a ∈ d.alphabet
  · rw [quotient, next?_tabulate (by rwa [length_canonicalLabels]) ha, hi, Option.bind_some]
  · rw [quotient, next?_tabulate_eq_none ha, next?_eq_none_of_not_mem h ha, Option.bind_none]

theorem isFinal_quotient_of_getElem? (hi : cs[i]? = some c) :
    (d.quotient cs).isFinal i = d.isFinal c.first := by
  obtain ⟨hlt, -⟩ := List.getElem?_eq_some_iff.mp hi
  rw [quotient, isFinal_tabulate (by rwa [length_canonicalLabels]), hi, Option.map_some,
    Option.getD_some]

/-- **Classes move as their states do** — where the least member goes, all go. -/
theorem next?_quotient (h : d.WellFormed) (ht : d.isTotal = true) (hs : s < d.numStates) :
    (d.quotient d.stateClasses).next? (d.classOf s) a = (d.next? s a).map d.classOf := by
  obtain ⟨c, hc, hcn, hsep⟩ := exists_getElem?_classOf h hs
  rw [next?_quotient_of_getElem? h hc]
  by_cases ha : a ∈ d.alphabet
  case neg =>
    rw [next?_eq_none_of_not_mem h ha, next?_eq_none_of_not_mem h ha, Option.bind_none,
      Option.map_none]
  obtain ⟨q, hq⟩ := isTotal_iff.mp ht s hs a ha
  obtain ⟨r, hr⟩ := isTotal_iff.mp ht c.first hcn a ha
  have hrn := next?_lt h hr
  have hrq : ¬ d.Separated r q := fun hrq => hsep (.of_next? hr hq hrq)
  rw [hr, hq, Option.bind_some, Option.map_some, classIndex?_stateClasses hrn,
    (classOf_eq_iff h ht hrn (next?_lt h hq)).mpr hrq]

/-- A class is final if its states are. -/
theorem isFinal_quotient (h : d.WellFormed) (hs : s < d.numStates) :
    (d.quotient d.stateClasses).isFinal (d.classOf s) = d.isFinal s := by
  obtain ⟨c, hc, -, hsep⟩ := exists_getElem?_classOf h hs
  rw [isFinal_quotient_of_getElem? hc]
  exact not_not.mp fun hne => hsep (separated_of_isFinal_ne hne)

theorem wellFormed_quotient (h : d.WellFormed) : (d.quotient d.stateClasses).WellFormed := by
  refine wellFormed_tabulate ?initial fun i _ a _ j hj => ?next
  case initial =>
    rw [length_canonicalLabels]
    exact classOf_lt h.initial_lt
  case next =>
    rw [length_canonicalLabels]
    obtain ⟨c, -, hj⟩ := Option.bind_eq_some_iff.mp hj
    obtain ⟨q, -, hj⟩ := Option.bind_eq_some_iff.mp hj
    exact (List.findIdx?_eq_some_iff_getElem.mp hj).1

/-- **A run goes from class to class.** -/
theorem runFrom_quotient (h : d.WellFormed) (ht : d.isTotal = true) (hs : s < d.numStates) :
    (d.quotient d.stateClasses).runFrom (d.classOf s) w = (d.runFrom s w).map d.classOf :=
  runFrom_map (P := (· < d.numStates)) (fun _ _ _ _ hq => next?_lt h hq)
    (fun _ _ hp => next?_quotient h ht hp) hs

theorem run_quotient (h : d.WellFormed) (ht : d.isTotal = true) (w : List Symbol) :
    (d.quotient d.stateClasses).run w = (d.run w).map d.classOf :=
  runFrom_quotient h ht h.initial_lt

/-- **Merging what no word tells apart changes no outcome.** -/
theorem evaluate_quotient (h : d.WellFormed) (ht : d.isTotal = true) (w : List Symbol) :
    (d.quotient d.stateClasses).evaluate w = d.evaluate w :=
  evaluate_eq_of_run_eq_map (run_quotient h ht w) fun _ hs => isFinal_quotient h (run_lt h hs)

theorem isTotal_quotient (h : d.WellFormed) (ht : d.isTotal = true) :
    (d.quotient d.stateClasses).isTotal = true := by
  refine isTotal_iff.mpr fun i hi a ha => ?_
  rw [numStates_quotient] at hi
  obtain ⟨s, hs, rfl⟩ := exists_classOf_eq h hi
  obtain ⟨q, hq⟩ := isTotal_iff.mp ht s hs a ha
  exact ⟨d.classOf q, by rw [next?_quotient h ht hs, hq, Option.map_some]⟩

theorem accessible_quotient (h : d.WellFormed) (ht : d.isTotal = true) (hacc : d.Accessible) :
    (d.quotient d.stateClasses).Accessible := by
  intro i hi
  rw [numStates_quotient] at hi
  obtain ⟨s, hs, rfl⟩ := exists_classOf_eq h hi
  obtain ⟨w, hw⟩ := hacc s hs
  exact ⟨w, by rw [run_quotient h ht, hw, Option.map_some]⟩

/-- A word that separates two states separates their classes. -/
theorem Separated.quotient (h : d.WellFormed) (ht : d.isTotal = true) (hp : p < d.numStates)
    (hq : q < d.numStates) (hpq : d.Separated p q) :
    (d.quotient d.stateClasses).Separated (d.classOf p) (d.classOf q) := by
  obtain ⟨w, p', q', hp', hq', hne⟩ := hpq
  refine ⟨w, d.classOf p', d.classOf q', ?_, ?_, ?_⟩
  · rw [runFrom_quotient h ht hp, hp', Option.map_some]
  · rw [runFrom_quotient h ht hq, hq', Option.map_some]
  · rwa [isFinal_quotient h (runFrom_lt h hp hp'), isFinal_quotient h (runFrom_lt h hq hq')]

/-- **Some word separates any two classes.** -/
theorem reduced_quotient (h : d.WellFormed) (ht : d.isTotal = true) :
    (d.quotient d.stateClasses).Reduced := by
  intro i hi j hj hij
  rw [numStates_quotient] at hi hj
  obtain ⟨p, hp, rfl⟩ := exists_classOf_eq h hi
  obtain ⟨q, hq, rfl⟩ := exists_classOf_eq h hj
  exact (not_not.mp (mt (classOf_eq_iff h ht hp hq).mpr hij)).quotient h ht hp hq

end Dfa

end Automata
