import Automata.Proofs.Minimization
import Automata.Proofs.Minimize.Classes
import Automata.Proofs.Minimize.FreshLabel

/-!
# Proofs/Accounting — the report of a minimization loses no state and lists none twice

Placing a state adds it to one class (`placeState_perm`), so the classes share out the positions of
all states of the completed automaton (`PairTable.flatten_members_perm`).  Their labels are those of
the reachable states, in order, and at the end that of the trap, if there is one
(`labels_completed`).  Together with the labels of the unreachable states this accounts for every
state of the automaton: `classes_minimization_perm`.
-/

namespace Automata

variable {n : Nat}

/-! ## The classes share out the states -/

/-- **A state that is placed is added to one class.** -/
theorem placeState_perm (t : PairTable n) (q : StateId) (cs : List StateClass) :
    ((placeState t q cs).map StateClass.members).flatten.Perm
      ((cs.map StateClass.members).flatten ++ [q]) := by
  obtain ⟨l, c, r, rfl, -, heq⟩ | ⟨-, heq⟩ := placeState_cases t q cs <;> rw [heq]
  · simp only [List.map_append, List.map_cons, List.flatten_append, List.flatten_cons,
      List.append_assoc]
    refine List.Perm.append_left _ ?_
    change (c.members ++ [q] ++ _).Perm _
    rw [List.append_assoc]
    exact List.Perm.append_left _ List.perm_append_comm
  · rw [List.map_append, List.flatten_append]
    rfl

/-- **Every state is in one class.** -/
theorem PairTable.flatten_members_perm (t : PairTable n) :
    (t.classes.map StateClass.members).flatten.Perm (List.range n) := by
  have key : ∀ k, (((List.range k).foldl (fun cs q => placeState t q cs) []).map
      StateClass.members).flatten.Perm (List.range k) := by
    intro k
    induction k with
    | zero => exact List.Perm.refl _
    | succ k ih =>
        rw [List.range_succ, List.foldl_concat]
        exact (placeState_perm t k _).trans (ih.append_right [k])
  exact key n

/-- A list is made of what stands at its positions. -/
theorem map_range_getD (l : List String) : (List.range l.length).map (fun i => l[i]?.getD "") = l :=
  List.ext_getElem (by simp) fun i _ h => by simp [h]

namespace Dfa

variable {d : Dfa}

/-! ## The states of the completed automaton -/

/-- **The states kept come first, and then the trap.** -/
theorem labels_completed (d : Dfa) : d.minimization.completed.labels =
    d.kept.map d.label ++ d.minimization.trap.toList := by
  have hcompleted : d.minimization.completed = d.trim.complete := rfl
  rw [hcompleted, trap_minimization, complete]
  cases d.trim.trap? with
  | none => exact (List.append_nil _).symm
  | some l => rfl

/-- A trap is added where a state that is kept lacks a move. -/
theorem isSome_trap_iff (h : d.WellFormed) : d.minimization.trap.isSome = true ↔
    ∃ s ∈ d.kept, ∃ a ∈ d.alphabet, d.next? s a = none := by
  rw [trap_minimization, Option.isSome_iff_ne_none, Ne, trap?_eq_none_iff, isTotal_trim_iff h]
  simp only [← mem_kept_iff h, not_forall, not_exists, exists_prop,
    Option.eq_none_iff_forall_ne_some]

/-- **The trap gets the first label that is free.** -/
theorem exists_isLeast_trap {l : String} (hl : d.minimization.trap = some l) :
    ∃ k, l = StateId.canonicalLabel k ∧
      IsLeast {k | d.kept.length ≤ k ∧ StateId.canonicalLabel k ∉ d.kept.map d.label} k := by
  rw [trap_minimization, trap?, numStates_trim] at hl
  split at hl
  case isTrue => exact absurd hl.symm (Option.some_ne_none l)
  case isFalse => exact ⟨_, (Option.some.inj hl).symm, isLeast_freshIndex _ d.kept.length⟩

/-! ## The classes of the report -/

theorem ascends_partition (d : Dfa) :
    PairTable.Ascends d.minimization.completed.numStates d.minimization.partition :=
  PairTable.Ascends.classes d.minimization.completed.distinguish.table

theorem flatten_members_partition_perm (d : Dfa) :
    (d.minimization.partition.map StateClass.members).flatten.Perm
      (List.range d.minimization.completed.labels.length) :=
  d.minimization.completed.distinguish.table.flatten_members_perm

/-- **The labels of the classes are those of the completed automaton.** -/
theorem flatten_classes_perm (d : Dfa) :
    d.minimization.classes.flatten.Perm d.minimization.completed.labels := by
  have hmap := (flatten_members_partition_perm d).map d.minimization.completed.label
  rw [List.map_flatten, List.map_map] at hmap
  exact hmap.trans (.of_eq (map_range_getD _))

/-- The classes are numbered by their first members. -/
theorem pairwise_head?_partition (d : Dfa) :
    (d.minimization.partition.map StateClass.members).Pairwise fun c e =>
      ∀ p q, c.head? = some p → e.head? = some q → p < q := by
  have hfirsts : (d.minimization.partition.map StateClass.first).Pairwise (· < ·) :=
    List.pairwise_lt_range.sublist (ascends_partition d).firsts
  rw [List.pairwise_map] at hfirsts ⊢
  refine hfirsts.imp fun {c e} hlt p q hp hq => ?_
  rwa [← Option.some.inj hp, ← Option.some.inj hq]

/-- **The report accounts for every state once.**  The labels of the states no word leads to are
listed, by number; the classes share out the labels of the others and of the trap, which is there
exactly when one of them lacks a move and has the first label that is free.  There is a class for
each state of the result, none is empty, and the members of a class and the classes by their first
members ascend. -/
theorem classes_minimization_perm (hd : d.Obtainable) :
    let r := d.minimization
    ∃ reachable unreachable : List StateId,
      reachable.Pairwise (· < ·) ∧ (∀ s, s ∈ reachable ↔ ∃ w, d.run w = some s) ∧
      unreachable.Pairwise (· < ·) ∧
      (∀ s, s ∈ unreachable ↔ s < d.numStates ∧ ¬ ∃ w, d.run w = some s) ∧
      r.unreachable = unreachable.map d.label ∧
      let labels := reachable.map d.label ++ r.trap.toList
      let members := r.partition.map StateClass.members
      r.classes = members.map (fun c => c.map fun i => labels[i]?.getD "") ∧
      members.flatten.Perm (List.range labels.length) ∧ r.classes.flatten.Perm labels ∧
      (r.trap.isSome = true ↔ ∃ s ∈ reachable, ∃ a ∈ d.alphabet, d.next? s a = none) ∧
      r.classes.length = r.dfa.numStates ∧ (∀ c ∈ r.classes, c ≠ []) ∧
      (∀ c ∈ members, c.Pairwise (· < ·)) ∧
      members.Pairwise (fun c e => ∀ p q, c.head? = some p → e.head? = some q → p < q) ∧
      ∀ l, r.trap = some l → ∃ k, l = StateId.canonicalLabel k ∧ IsLeast
        {k | reachable.length ≤ k ∧ StateId.canonicalLabel k ∉ reachable.map d.label} k := by
  intro r
  have h := hd.wellFormed
  refine ⟨d.kept, d.states.filter fun s => !decide (s ∈ d.reachable),
    List.pairwise_lt_range.filter _, fun s => mem_kept_iff h, List.pairwise_lt_range.filter _,
    fun s => ?unreachable, rfl, ?classes⟩
  case unreachable =>
    rw [List.mem_filter, Machine.mem_states, Bool.not_eq_true', decide_eq_false_iff_not,
      mem_reachable_iff h]
  rw [← labels_completed d]
  refine ⟨?labels, flatten_members_partition_perm d, flatten_classes_perm d, isSome_trap_iff h,
    ?length, fun c hc => ?nonempty, fun c hc => ?ascending, pairwise_head?_partition d,
    fun l => exists_isLeast_trap⟩
  case labels =>
    rw [List.map_map]
    rfl
  case length =>
    rw [Minimization.classes, List.length_map]
    exact (numStates_quotient ..).symm
  case nonempty =>
    obtain ⟨e, -, rfl⟩ := List.mem_map.mp hc
    exact List.cons_ne_nil _ _
  case ascending =>
    obtain ⟨e, he, rfl⟩ := List.mem_map.mp hc
    exact List.pairwise_lt_range.sublist ((ascends_partition d).members e he)

/-- An automaton with a state that no word leads to, and one with the label of a new state. -/
def taken : Dfa :=
  (Draft.ofDeclarations [.state "A", .state "C", .state "q2", .symbol 'a', .initial "A",
    .final "q2", .transition ⟨"A", 'a', "q2"⟩]).machine

/-- The trap is the third state, and its label is not the third one. -/
theorem classes_minimization_perm_taken :
    taken.minimization.classes.flatten.Perm ["A", "q2", "q3"] ∧
    taken.minimization.classes.length = taken.minimize.numStates ∧
    IsLeast {k | 2 ≤ k ∧ StateId.canonicalLabel k ∉ ["A", "q2"]} 3 := by
  have hd : taken.Obtainable := .loaded (Machine.loaded_machine (by decide))
  have htrap : taken.minimization.trap = some (StateId.canonicalLabel 3) := by decide
  obtain ⟨reachable, -, hascending, hmem, -, -, -, -, -, hperm, -, hlength, -, -, -, hleast⟩ :=
    classes_minimization_perm hd
  obtain rfl : reachable = taken.kept :=
    @eq_of_ascending _ id _ _ hascending (List.pairwise_lt_range.filter _) fun s =>
      (hmem s).trans (mem_kept_iff hd.wellFormed).symm
  have hlabels : taken.kept.map taken.label = ["A", "q2"] := by decide
  rw [hlabels, htrap] at hperm
  obtain ⟨k, hk, hleast⟩ := hleast _ htrap
  obtain rfl := StateId.canonicalLabel_inj hk
  rw [hlabels, ← List.length_map (f := taken.label), hlabels] at hleast
  exact ⟨hperm, hlength, hleast⟩

end Dfa

end Automata
