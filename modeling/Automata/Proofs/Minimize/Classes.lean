import Automata.Proofs.Minimize.Quotient

/-!
# Proofs/Minimize/Classes — classes are numbered by their least members

States are placed by number, so the least members of the classes, and the members of each class,
are picked off the numbers of all states (`PairTable.Ascends`).  Hence `Dfa.leastOf`, the least
member of a class (`classOf_leastOf`, `leastOf_classOf_le`), ascends with the number of the class:
`leastOf_lt_leastOf`.
-/

namespace Automata

variable {n k : Nat} {t : PairTable n} {cs : List StateClass} {c : StateClass} {i j p q s : StateId}

/-! ## Placing states by number -/

/-- **The states below `k`, put into classes by number.** -/
structure PairTable.Ascends (k : Nat) (cs : List StateClass) : Prop where
  firsts : (cs.map StateClass.first).Sublist (List.range k)
  members : ∀ c ∈ cs, c.members.Sublist (List.range k)

namespace PairTable.Ascends

/-- **Placing the next state keeps the order.** -/
theorem step (h : Ascends k cs) (t : PairTable n) : Ascends (k + 1) (placeState t k cs) := by
  have hsucc : ∀ l : List StateId, l.Sublist (List.range k) → l.Sublist (List.range (k + 1)) :=
    fun l hl => hl.trans (List.range_sublist.mpr (Nat.le_succ k))
  have hconcat : ∀ l : List StateId, l.Sublist (List.range k) →
      (l ++ [k]).Sublist (List.range (k + 1)) := fun l hl => by
    rw [List.range_succ]
    exact hl.append_right [k]
  have hmembers : ∀ c ∈ cs, c.members.Sublist (List.range (k + 1)) := fun c hc =>
    hsucc _ (h.members c hc)
  obtain ⟨l, c, r, rfl, -, heq⟩ | ⟨-, heq⟩ := placeState_cases t k cs <;> rw [heq]
  · refine ⟨?_, ?_⟩
    · have hfirsts := hsucc _ h.firsts
      rwa [List.map_append, List.map_cons] at hfirsts ⊢
    · rw [List.forall_mem_append, List.forall_mem_cons] at hmembers ⊢
      exact ⟨hmembers.1, hconcat _ (h.members c (List.mem_append_right l List.mem_cons_self)),
        hmembers.2.2⟩
  · refine ⟨?_, ?_⟩
    · rw [List.map_append]
      exact hconcat _ h.firsts
    · rw [List.forall_mem_append, List.forall_mem_singleton]
      exact ⟨hmembers, hconcat [] (List.nil_sublist _)⟩

theorem classes (t : PairTable n) : Ascends n t.classes := by
  have key : ∀ k, Ascends k ((List.range k).foldl (fun cs q => placeState t q cs) []) := by
    intro k
    induction k with
    | zero => exact ⟨List.Sublist.refl _, fun _ hc => absurd hc List.not_mem_nil⟩
    | succ k ih =>
        rw [List.range_succ, List.foldl_concat]
        exact ih.step t
  exact key n

/-- The least member of a class comes first. -/
theorem first_le (h : Ascends k cs) (hc : c ∈ cs) (hs : s ∈ c.members) : c.first ≤ s := by
  have hlt : c.members.Pairwise (· < ·) := List.pairwise_lt_range.sublist (h.members c hc)
  obtain rfl | hs := List.mem_cons.mp hs
  · exact Nat.le_refl _
  · exact Nat.le_of_lt ((List.pairwise_cons.mp hlt).1 s hs)

end PairTable.Ascends

namespace Dfa

variable {d : Dfa}

/-! ## Least members -/

/-- The least member of a class. -/
def leastOf (d : Dfa) (i : StateId) : StateId := ((d.stateClasses[i]?).map StateClass.first).getD 0

theorem leastOf_eq (hi : i < d.stateClasses.length) : d.leastOf i = d.stateClasses[i].first := by
  rw [leastOf, List.getElem?_eq_getElem hi]
  rfl

theorem leastOf_lt (hi : i < d.stateClasses.length) : d.leastOf i < d.numStates := by
  rw [leastOf_eq hi]
  exact d.partitions_stateClasses.first_lt (List.getElem_mem hi)

/-- **The least members of the classes ascend.** -/
theorem leastOf_lt_leastOf (hij : i < j) (hj : j < d.stateClasses.length) :
    d.leastOf i < d.leastOf j := by
  have hi := Nat.lt_trans hij hj
  have hlt : (d.stateClasses.map StateClass.first).Pairwise (· < ·) :=
    List.pairwise_lt_range.sublist (PairTable.Ascends.classes _).firsts
  have hget := List.pairwise_iff_getElem.mp (List.pairwise_map.mp hlt) i j hi hj hij
  rwa [leastOf_eq hi, leastOf_eq hj]

/-- No member of a class is below its least one. -/
theorem leastOf_classOf_le (hs : s < d.numStates) : d.leastOf (d.classOf s) ≤ s := by
  obtain ⟨c, hc, hmem⟩ := exists_mem_members_classOf hs
  rw [leastOf, hc]
  exact (PairTable.Ascends.classes _).first_le (List.mem_of_getElem? hc) hmem

/-- The least member of a class is one of its members. -/
theorem classOf_leastOf (h : d.WellFormed) (hi : i < d.stateClasses.length) :
    d.classOf (d.leastOf i) = i := by
  obtain ⟨c, hc, hcn, hsep⟩ := exists_getElem?_classOf h (leastOf_lt hi)
  refine d.partitions_stateClasses.eq_of_isMarked_eq_false hc (List.getElem?_eq_getElem hi) ?_
  rw [← leastOf_eq hi, Bool.eq_false_iff, Ne, isMarked_distinguish_iff h hcn (leastOf_lt hi)]
  exact hsep

end Dfa

end Automata
