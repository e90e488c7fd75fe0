import Automata.Proofs.Indexed.Partition
import Automata.Proofs.Moves

/-!
# Proofs/Indexed/Quotient — a class acts through its first member

States are put on the list of their class, so the lists are the classes (`Dfa.members?_eq`), and
since no class is empty each has a first member to act through.  Every number that is met on the way
is one of a state or of a class, and the automaton built from the rows of the first members is the
quotient (`Dense.Holds.quotient?_eq`).
-/

namespace Automata

/-- The entries of a list made by position, with their positions. -/
theorem zipIdx_map_range {α : Type} (f : Nat → α) (n : Nat) :
    ((List.range n).map f).zipIdx = (List.range n).map fun i => (f i, i) := by
  induction n with
  | zero => rfl
  | succ n ih => simp [List.range_succ, List.zipIdx_append, ih]

/-! ## Members -/

/-- Puts a state on the list with its class number. -/
def place? (ms : List (List StateId)) (s : StateId × StateId) : Option (List (List StateId)) := do
  let l ← ms[s.1]?
  put? ms s.1 (l ++ [s.2])

/-- The states with each class number, by number. -/
def members? (xs : List StateId) : Option (List (List StateId)) :=
  xs.zipIdx.foldlM place? (List.replicate (xs.max?.elim 0 (· + 1)) [])

/-- The numbers below `n` that a function takes to each number below `m`. -/
def fibres (x : Nat → Nat) (m n : Nat) : List (List Nat) :=
  (List.range m).map fun i => (List.range n).filter fun q => decide (x q = i)

theorem place?_fibres {x : Nat → Nat} {m n : Nat} (hx : x n < m) :
    place? (fibres x m n) (x n, n) = some (fibres x m (n + 1)) := by
  have hentry : (fibres x m n)[x n]? = some ((List.range n).filter fun q => decide (x q = x n)) :=
    getElem?_map_range _ hx
  rw [place?, hentry, Option.bind_eq_bind, Option.bind_some]
  refine put?_map_range hx ?_ fun i hi => ?_
  · simp [List.range_succ, List.filter_append]
  · simp [List.range_succ, List.filter_append, Ne.symm hi]

/-- **Putting the states on the lists with their numbers lists the states with each number.** -/
theorem foldlM_place? {x : Nat → Nat} {m : Nat} : ∀ n : Nat, (∀ q < n, x q < m) →
    ((List.range n).map x).zipIdx.foldlM place? (List.replicate m []) = some (fibres x m n)
  | 0, _ => by simp [fibres]
  | n + 1, hx => by
      rw [zipIdx_map_range, List.range_succ, List.map_append, List.foldlM_append,
        ← zipIdx_map_range, foldlM_place? n fun q hq => hx q (Nat.lt_succ_of_lt hq)]
      simpa using place?_fibres (hx n (Nat.lt_succ_self n))

namespace Dfa

variable {d : Dfa} {i q : StateId} {c : StateClass}

/-- **A class is the states with its number**, by number. -/
theorem filter_classOf_eq (h : d.WellFormed) (ht : d.isTotal = true)
    (hi : d.stateClasses[i]? = some c) :
    ((List.range d.numStates).filter fun q => decide (d.classOf q = i)) = c.members := by
  have hpart := d.partitions_stateClasses
  have hc := List.mem_of_getElem? hi
  have hfirst : d.leastOf i = c.first := by
    rw [leastOf, hi]
    rfl
  have hsub : c.members.Sublist (List.range d.numStates) :=
    (PairTable.Ascends.classes _).members c hc
  refine @eq_of_ascending _ id _ _ (List.pairwise_lt_range.filter _)
    (List.pairwise_lt_range.sublist hsub) fun s => ?_
  rw [List.mem_filter, List.mem_range, decide_eq_true_iff]
  constructor
  · rintro ⟨hs, rfl⟩
    obtain ⟨c', hc', hmem⟩ := exists_mem_members_classOf hs
    rw [hi] at hc'
    exact Option.some.inj hc' ▸ hmem
  · intro hs
    have hlt := (hpart.covers s).mp ⟨c, hc, hs⟩
    have hclass := (isMarked_eq_false_iff h ht (hpart.first_lt hc) hlt).mp (hpart.unmarked c hc s hs)
    rw [← hclass, ← hfirst]
    exact ⟨hlt, classOf_leastOf h (List.getElem?_eq_some_iff.mp hi).1⟩

/-- The last class has the greatest number. -/
theorem max?_classOf (h : d.WellFormed) :
    ((List.range d.numStates).map d.classOf).max?.elim 0 (· + 1) = d.stateClasses.length := by
  have hpos : 0 < d.stateClasses.length := Nat.zero_lt_of_lt (classOf_lt h.initial_lt)
  have hlast : d.stateClasses.length - 1 < d.stateClasses.length := Nat.sub_lt hpos Nat.one_pos
  have hmax : ((List.range d.numStates).map d.classOf).max? = some (d.stateClasses.length - 1) := by
    refine List.max?_eq_some_iff.mpr ⟨List.mem_map.mpr ⟨d.leastOf (d.stateClasses.length - 1),
      List.mem_range.mpr (leastOf_lt hlast), classOf_leastOf h hlast⟩, fun k hk => ?_⟩
    obtain ⟨q, hq, rfl⟩ := List.mem_map.mp hk
    exact Nat.le_sub_one_of_lt (classOf_lt (List.mem_range.mp hq))
  rw [hmax, Option.elim_some, Nat.sub_add_cancel hpos]

/-- **The lists are the classes.** -/
theorem members?_eq (h : d.WellFormed) (ht : d.isTotal = true) :
    members? ((List.range d.numStates).map d.classOf) =
      some (d.stateClasses.map StateClass.members) := by
  rw [members?, max?_classOf h, foldlM_place? _ fun _ hq => classOf_lt hq]
  exact congrArg some (map_range_eq_map fun _ _ hi => filter_classOf_eq h ht hi)

end Dfa

/-! ## The quotient -/

namespace Dense

variable (c : Dense StateId)

/-- A move of the class with number `i`, looked up for one of its states and for a symbol with its
position. -/
def move? (xs : List StateId) (i r : StateId) (s : Symbol × Nat) : Option Move := do
  let t ← c.target? r s.2
  let q ← xs[t]?
  return (i, s.1, q)

/-- Whether a class is final and where it moves, looked up for its first member. -/
def row? (xs : List StateId) (s : List StateId × StateId) : Option (Bool × List Move) := do
  let r ← s.1[0]?
  let f ← c.finals[r]?
  let moves ← c.alphabet.toList.zipIdx.mapM (c.move? xs s.2 r)
  return (f, moves)

/-- The automaton of the classes with given numbers, and the labels of the members of each. -/
def quotient? (xs : List StateId) : Option (Dfa × List (List String)) := do
  let members ← members? xs
  let rows ← members.zipIdx.mapM (c.row? xs)
  let classes ← members.mapM fun l => l.mapM fun s => c.labels[s]?
  let initial ← xs[c.initial]?
  return ({
    labels := (List.range members.length).map StateId.canonicalLabel
    alphabet := c.alphabet
    initial
    finals := SortedSet.ofList ((rows.zipIdx.filter fun r => r.1.1).map Prod.snd)
    table := Table.ofMoves (rows.flatMap Prod.snd) }, classes)

end Dense

/-- Whether a class is final and where it moves, as its least member is and does. -/
def Dfa.classRow (d : Dfa) (s : StateClass × StateId) : Bool × List Move :=
  (d.isFinal s.1.first, d.alphabet.toList.filterMap fun a =>
    ((d.next? s.1.first a).bind (classIndex? d.stateClasses)).map (s.2, a, ·))

namespace Dense.Holds

variable {c : Dense StateId} {d : Dfa} {i r : StateId} {k : StateClass}

/-- **Every number a state leads to is one of a state, and it has a class.** -/
theorem mapM_move?_eq (hc : c.Holds d) (h : d.WellFormed) (ht : d.isTotal = true)
    (hr : r < d.numStates) :
    c.alphabet.toList.zipIdx.mapM (c.move? ((List.range d.numStates).map d.classOf) i r) =
      some (d.alphabet.toList.filterMap fun a =>
        ((d.next? r a).bind (classIndex? d.stateClasses)).map (i, a, ·)) := by
  -- the state led to, which there is on every symbol of the alphabet
  obtain ⟨next, hnext⟩ : ∃ next : Symbol → StateId, ∀ a ∈ d.alphabet, d.next? r a = some (next a) :=
    ⟨fun a => (d.next? r a).getD 0, fun a ha => by
      obtain ⟨q, hq⟩ := Dfa.isTotal_iff.mp ht r hr a ha
      simp [hq]⟩
  have hlt : ∀ a ∈ d.alphabet, next a < d.numStates := fun a ha => Dfa.next?_lt h (hnext a ha)
  have hlookup : ∀ s ∈ d.alphabet.toList.zipIdx,
      c.move? ((List.range d.numStates).map d.classOf) i r s =
        some (i, s.1, d.classOf (next s.1)) := fun s hs => by
    have ha : d.alphabet.toList[s.2]? = some s.1 := List.mk_mem_zipIdx_iff_getElem?.mp hs
    have hmem : s.1 ∈ d.alphabet := List.mem_of_getElem? ha
    rw [move?, hc.target?_eq r hr _ _ ha, hnext _ hmem, Option.bind_eq_bind, Option.bind_some,
      getElem?_map_range _ (hlt _ hmem)]
    rfl
  have hmoves : (d.alphabet.toList.filterMap fun a =>
      ((d.next? r a).bind (classIndex? d.stateClasses)).map (i, a, ·)) =
        d.alphabet.toList.map fun a => (i, a, d.classOf (next a)) := by
    rw [← List.filterMap_eq_map]
    refine List.filterMap_congr fun a ha => ?_
    rw [hnext a ha, Option.bind_some, Dfa.classIndex?_stateClasses (hlt a ha)]
    rfl
  have hfst : (d.alphabet.toList.map fun a => (i, a, d.classOf (next a))) =
      d.alphabet.toList.zipIdx.map fun s => (i, s.1, d.classOf (next s.1)) := by
    conv_lhs => rw [← List.zipIdx_map_fst 0 d.alphabet.toList, List.map_map]
    rfl
  rw [hc.alphabet, mapM_eq_some hlookup, hmoves, hfst]

/-- **A class has a first member**, and is and moves as that does. -/
theorem row?_eq (hc : c.Holds d) (h : d.WellFormed) (ht : d.isTotal = true)
    (hi : d.stateClasses[i]? = some k) :
    c.row? ((List.range d.numStates).map d.classOf) (k.members, i) = some (d.classRow (k, i)) := by
  have hfirst : k.first < d.numStates := d.partitions_stateClasses.first_lt (List.mem_of_getElem? hi)
  have hmember : k.members[0]? = some k.first := rfl
  rw [row?, hmember, Option.bind_eq_bind, Option.bind_some, hc.finals_getElem? hfirst,
    hc.mapM_move?_eq h ht hfirst]
  rfl

/-- **Building the quotient looks nothing up in vain.** -/
theorem quotient?_eq (hc : c.Holds d) (h : d.WellFormed) (ht : d.isTotal = true) :
    c.quotient? ((List.range d.numStates).map d.classOf) =
      some (d.quotient d.stateClasses, d.stateClasses.map fun k => k.members.map d.label) := by
  have hrows : (d.stateClasses.map StateClass.members).zipIdx.mapM
      (c.row? ((List.range d.numStates).map d.classOf)) =
        some (d.stateClasses.zipIdx.map d.classRow) := by
    rw [List.zipIdx_map, List.mapM_map]
    exact mapM_eq_some fun s hs => hc.row?_eq h ht (List.mk_mem_zipIdx_iff_getElem?.mp hs)
  have hlabels : (d.stateClasses.map StateClass.members).mapM
      (fun l => l.mapM fun s => c.labels[s]?) =
        some (d.stateClasses.map fun k => k.members.map d.label) := by
    rw [List.mapM_map]
    refine mapM_eq_some fun k hk => mapM_eq_some fun s hs => hc.labels_getElem? ?_
    exact (d.partitions_stateClasses.covers s).mp ⟨k, hk, hs⟩
  have hinitial : ((List.range d.numStates).map d.classOf)[c.initial]? =
      some (d.classOf d.initial) := by
    rw [hc.initial, getElem?_map_range _ h.initial_lt]
  have hfinals : SortedSet.ofList
      (((d.stateClasses.zipIdx.map d.classRow).zipIdx.filter fun r => r.1.1).map Prod.snd) =
        (d.quotient d.stateClasses).finals := by
    rw [ofList_zipIdx_filter Prod.fst, Dfa.quotient, Dfa.tabulate, Dfa.length_canonicalLabels,
      List.length_map, List.length_zipIdx]
    congr 1
    funext i
    rw [List.getElem?_map, List.getElem?_zipIdx, Option.map_map, Option.map_map]
    rfl
  have htable : Table.ofMoves ((d.stateClasses.zipIdx.map d.classRow).flatMap Prod.snd) =
      (d.quotient d.stateClasses).table := by
    rw [Dfa.quotient, ← Dfa.ofMoves_transitions_tabulate (Dfa.wellFormed_quotient h),
      Dfa.transitions_tabulate,
      Dfa.length_canonicalLabels, List.range_eq_range', ← List.zipIdx_map_snd, List.flatMap_map,
      List.flatMap_map]
    refine congrArg Table.ofMoves (List.flatMap_congr fun s hs => ?_)
    rw [List.mk_mem_zipIdx_iff_getElem?.mp hs]
    rfl
  rw [quotient?, Dfa.members?_eq h ht, Option.bind_eq_bind, Option.bind_some, hrows, hlabels,
    hinitial]
  simp only [Option.bind_eq_bind, Option.bind_some]
  rw [hfinals, htable, hc.alphabet, List.length_map]
  rfl

end Dense.Holds

end Automata
