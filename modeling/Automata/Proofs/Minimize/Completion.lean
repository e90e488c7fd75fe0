import Automata.Minimize.Completion
import Automata.Proofs.Reachability
import Automata.Proofs.WellFormed
import Mathlib.Data.List.Sort

/-!
# Proofs/Minimize/Completion — the reachable part keeps every outcome, the trap only acceptance

Dropping the states no word leads to renumbers the others by their position (`run_trim`) and
changes no outcome (`evaluate_trim`).  The trap catches every word over the alphabet that got stuck
(`run_complete`), so what froze is rejected unless a foreign symbol froze it
(`evaluate_complete`).  Afterwards every state has every move (`isTotal_complete`) and is led to by
some word, the trap too (`accessible_complete`).
-/

namespace Automata.Dfa

variable {d : Dfa} {i p q s : StateId} {a : Symbol} {w : List Symbol} {l : String}

/-! ## The reachable part -/

/-- **The states kept are those some word leads to.** -/
theorem mem_kept_iff (h : d.WellFormed) : s ∈ d.kept ↔ ∃ w, d.run w = some s := by
  rw [kept, List.mem_filter, Machine.mem_states, decide_eq_true_iff, mem_reachable_iff h]
  exact ⟨And.right, fun ⟨w, hw⟩ => ⟨run_lt h hw, w, hw⟩⟩

theorem nodup_kept (d : Dfa) : d.kept.Nodup := List.nodup_range.filter _

theorem lt_of_mem_kept (hs : s ∈ d.kept) : s < d.numStates :=
  d.mem_states.mp (List.mem_of_mem_filter hs)

/-- **An ascending list of the states some word leads to** is the list of those kept. -/
theorem eq_kept_of_pairwise {l : List StateId} (h : d.WellFormed) (hlt : l.Pairwise (· < ·))
    (hmem : ∀ s, s ∈ l ↔ ∃ w, d.run w = some s) : l = d.kept :=
  @eq_of_ascending _ id _ _ hlt (List.pairwise_lt_range.filter _) fun s => by
    rw [hmem, mem_kept_iff h]

/-- **The states found, by number, are the states kept.** -/
theorem mergeSort_reachable (h : d.WellFormed) : d.reachable.mergeSort = d.kept := by
  have hnodup : d.reachable.mergeSort.Nodup :=
    (List.mergeSort_perm _ _).nodup_iff.mpr (nodup_reachable h)
  have hle : d.reachable.mergeSort.Pairwise (· ≤ ·) := List.pairwise_mergeSort' _ _
  have hlt : d.reachable.mergeSort.Pairwise (· < ·) :=
    (hle.and hnodup).imp fun h => Nat.lt_of_le_of_ne h.1 h.2
  refine eq_kept_of_pairwise h hlt fun s => ?_
  rw [(List.mergeSort_perm _ _).mem_iff, mem_reachable_iff h]

theorem initial_mem_kept (h : d.WellFormed) : d.initial ∈ d.kept := (mem_kept_iff h).mpr ⟨[], rfl⟩

theorem mem_kept_of_next? (h : d.WellFormed) (hp : p ∈ d.kept) (hq : d.next? p a = some q) :
    q ∈ d.kept := by
  rw [mem_kept_iff h, ← mem_reachable_iff h] at hp ⊢
  exact mem_reachable_of_next? h hp hq

@[simp] theorem numStates_trim (d : Dfa) : d.trim.numStates = d.kept.length := by
  rw [trim, restrict, numStates_tabulate, List.length_map]

@[simp] theorem alphabet_trim (d : Dfa) : d.trim.alphabet = d.alphabet := rfl

/-- Where a state that is kept leads is found among the states kept. -/
theorem bind_idxOf?_kept (h : d.WellFormed) (hs : s ∈ d.kept) :
    (d.next? s a).bind d.kept.idxOf? = (d.next? s a).map d.kept.idxOf := by
  cases hq : d.next? s a with
  | none => rfl
  | some q =>
      rw [Option.bind_some, Option.map_some]
      exact idxOf?_of_mem (mem_kept_of_next? h hs hq)

/-- **A state that is kept moves as before**, among the positions of the states kept. -/
theorem next?_trim (h : d.WellFormed) (hi : d.kept[i]? = some s) :
    d.trim.next? i a = (d.next? s a).map d.kept.idxOf := by
  obtain ⟨hlt, -⟩ := List.getElem?_eq_some_iff.mp hi
  have hs : s ∈ d.kept := List.mem_of_getElem? hi
  by_cases ha : a ∈ d.alphabet
  case neg =>
    rw [trim, restrict, next?_tabulate_eq_none ha, next?_eq_none_of_not_mem h ha, Option.map_none]
  rw [trim, restrict, next?_tabulate (by rwa [List.length_map]) ha, hi, Option.bind_some]
  exact bind_idxOf?_kept h hs

theorem isFinal_trim (hi : d.kept[i]? = some s) : d.trim.isFinal i = d.isFinal s := by
  obtain ⟨hlt, -⟩ := List.getElem?_eq_some_iff.mp hi
  rw [trim, restrict, isFinal_tabulate (by rwa [List.length_map]), hi]
  rfl

theorem label_trim (hi : d.kept[i]? = some s) : d.trim.label i = d.label s := by
  have hlabel : d.trim.label? i = (d.kept[i]?).map d.label := List.getElem?_map
  rw [Machine.label, hlabel, hi]
  rfl

theorem wellFormed_trim (h : d.WellFormed) : d.trim.WellFormed := by
  refine wellFormed_tabulate ?initial fun i _ a _ j hj => ?next
  case initial =>
    rw [List.length_map]
    exact List.idxOf_lt_length_of_mem (initial_mem_kept h)
  case next =>
    rw [List.length_map]
    obtain ⟨s, -, hj⟩ := Option.bind_eq_some_iff.mp hj
    obtain ⟨q, -, hj⟩ := Option.bind_eq_some_iff.mp hj
    exact lt_length_of_idxOf?_eq_some hj

/-- **A word leads to the position of the state it led to.** -/
theorem run_trim (h : d.WellFormed) (w : List Symbol) :
    d.trim.run w = (d.run w).map d.kept.idxOf :=
  runFrom_map (P := (· ∈ d.kept)) (fun _ _ _ hp hq => mem_kept_of_next? h hp hq)
    (fun _ _ hp => next?_trim h (getElem?_idxOf hp)) (initial_mem_kept h)

/-- **Dropping the states no word leads to changes no outcome.** -/
theorem evaluate_trim (h : d.WellFormed) (w : List Symbol) :
    d.trim.evaluate w = d.evaluate w :=
  evaluate_eq_of_run_eq_map (run_trim h w) fun _ hs =>
    isFinal_trim (getElem?_idxOf ((mem_kept_iff h).mpr ⟨w, hs⟩))

theorem accessible_trim (h : d.WellFormed) : d.trim.Accessible := by
  intro i hi
  rw [numStates_trim] at hi
  obtain ⟨w, hw⟩ := (mem_kept_iff h).mp (List.getElem_mem hi)
  refine ⟨w, ?_⟩
  rw [run_trim h, hw, Option.map_some, d.nodup_kept.idxOf_getElem]

/-- The reachable part is total exactly when no reachable state lacks a move. -/
theorem isTotal_trim_iff (h : d.WellFormed) : d.trim.isTotal = true ↔
    ∀ s, (∃ w, d.run w = some s) → ∀ a ∈ d.alphabet, ∃ q, d.next? s a = some q := by
  rw [isTotal_iff, numStates_trim, alphabet_trim]
  constructor
  · intro hall s hs a ha
    have hmem := (mem_kept_iff h).mpr hs
    obtain ⟨j, hj⟩ := hall _ (List.idxOf_lt_length_of_mem hmem) a ha
    rw [next?_trim h (getElem?_idxOf hmem)] at hj
    obtain ⟨q, hq, -⟩ := Option.map_eq_some_iff.mp hj
    exact ⟨q, hq⟩
  · intro hall i hi a ha
    obtain ⟨q, hq⟩ := hall _ ((mem_kept_iff h).mp (List.getElem_mem hi)) a ha
    exact ⟨_, by rw [next?_trim h (List.getElem?_eq_getElem hi), hq, Option.map_some]⟩

/-! ## The trap -/

@[simp] theorem numStates_addTrap : (d.addTrap l).numStates = d.numStates + 1 := by
  rw [addTrap, numStates_tabulate, List.length_append]
  rfl

@[simp] theorem alphabet_addTrap : (d.addTrap l).alphabet = d.alphabet := rfl

theorem next?_addTrap (ha : a ∈ d.alphabet) (hp : p ≤ d.numStates) :
    (d.addTrap l).next? p a = some ((d.next? p a).getD d.numStates) :=
  next?_tabulate (by rw [List.length_append]; exact Nat.lt_succ_of_le hp) ha

theorem isFinal_addTrap (hp : p ≤ d.numStates) : (d.addTrap l).isFinal p = d.isFinal p :=
  isFinal_tabulate (by rw [List.length_append]; exact Nat.lt_succ_of_le hp)

/-- The state after the last is not final. -/
theorem isFinal_numStates (h : d.WellFormed) : d.isFinal d.numStates = false :=
  Bool.eq_false_iff.mpr fun hf => absurd (h.finals_lt _ (d.isFinal_iff.mp hf)) (Nat.lt_irrefl _)

theorem label_addTrap (hp : p < d.numStates) : (d.addTrap l).label p = d.label p := by
  have hlabel : (d.addTrap l).label? p = d.label? p := List.getElem?_append_left hp
  rw [Machine.label, hlabel, Machine.label]

theorem label_addTrap_numStates : (d.addTrap l).label d.numStates = l := by
  have hlabel : (d.addTrap l).label? d.numStates = some l := List.getElem?_concat_length
  rw [Machine.label, hlabel]
  rfl

theorem getD_next?_le (h : d.WellFormed) : (d.next? p a).getD d.numStates ≤ d.numStates := by
  cases hq : d.next? p a with
  | none => exact Nat.le_refl _
  | some q => exact Nat.le_of_lt (next?_lt h hq)

theorem wellFormed_addTrap (h : d.WellFormed) : (d.addTrap l).WellFormed := by
  have hlen : (d.labels ++ [l]).length = d.numStates + 1 := List.length_append
  refine wellFormed_tabulate (hlen ▸ Nat.lt_succ_of_lt h.initial_lt) fun p _ a _ q hq => ?_
  rw [hlen, ← Option.some.inj hq]
  exact Nat.lt_succ_of_le (getD_next?_le h)

theorem isTotal_addTrap : (d.addTrap l).isTotal = true := by
  refine isTotal_iff.mpr fun p hp a ha => ⟨_, next?_addTrap ha ?_⟩
  rw [numStates_addTrap] at hp
  exact Nat.le_of_lt_succ hp

/-- The trap is not left. -/
theorem getD_runFrom_trap (h : d.WellFormed) : ∀ w : List Symbol,
    (d.runFrom d.numStates w).getD d.numStates = d.numStates
  | [] => rfl
  | a :: w => by rw [runFrom_cons, next?_eq_none h (Nat.le_refl _)]; rfl

/-- **A run that got stuck ends in the trap**, and every other one as before. -/
theorem runFrom_addTrap (h : d.WellFormed) : ∀ {p : StateId} {w : List Symbol},
    p ≤ d.numStates → (∀ a ∈ w, a ∈ d.alphabet) →
      (d.addTrap l).runFrom p w = some ((d.runFrom p w).getD d.numStates)
  | _, [], _, _ => rfl
  | p, a :: w, hp, hw => by
      have ih := runFrom_addTrap h (getD_next?_le h (p := p) (a := a))
        fun b hb => hw b (List.mem_cons_of_mem a hb)
      rw [runFrom_cons, next?_addTrap (hw a List.mem_cons_self) hp, Option.bind_some, ih,
        runFrom_cons]
      cases d.next? p a with
      | none => exact congrArg some (getD_runFrom_trap h w)
      | some q => rfl

/-- The trap is reached by a word that ends with a missing move. -/
theorem accessible_addTrap (h : d.WellFormed) (hacc : d.Accessible) (ht : d.isTotal = false) :
    (d.addTrap l).Accessible := by
  have hrun : ∀ w, (∀ a ∈ w, a ∈ d.alphabet) →
      (d.addTrap l).run w = some ((d.run w).getD d.numStates) := fun w hw =>
    runFrom_addTrap h (Nat.le_of_lt h.initial_lt) hw
  intro s hs
  rw [numStates_addTrap] at hs
  obtain hs | rfl := Nat.lt_or_eq_of_le (Nat.le_of_lt_succ hs)
  · obtain ⟨w, hw⟩ := hacc s hs
    exact ⟨w, by rw [hrun w (mem_alphabet_of_runFrom h hw), hw]; rfl⟩
  · -- some state lacks a move
    have hmissing : ¬ ∀ p < d.numStates, ∀ a ∈ d.alphabet, ∃ q, d.next? p a = some q :=
      fun hall => Bool.eq_false_iff.mp ht (isTotal_iff.mpr hall)
    push Not at hmissing
    obtain ⟨p, hp, a, ha, hnone⟩ := hmissing
    obtain ⟨w, hw⟩ := hacc p hp
    refine ⟨w ++ [a], ?_⟩
    have hmem : ∀ b ∈ w ++ [a], b ∈ d.alphabet := fun b hb =>
      (List.mem_append.mp hb).elim (mem_alphabet_of_runFrom h hw b)
        fun hb => List.mem_singleton.mp hb ▸ ha
    rw [hrun _ hmem, run_concat, hw, Option.bind_some, Option.eq_none_iff_forall_ne_some.mpr hnone]
    rfl

/-! ## Completion -/

theorem trap?_eq_none_iff : d.trap? = none ↔ d.isTotal = true := by
  rw [trap?]
  split <;> simp_all

/-- An automaton is completed by leaving it as it is or by a trap. -/
theorem complete_eq_or (d : Dfa) : d.complete = d ∧ d.isTotal = true ∨
    ∃ l, d.complete = d.addTrap l ∧ d.isTotal = false := by
  rw [complete]
  cases hl : d.trap? with
  | none => exact .inl ⟨rfl, trap?_eq_none_iff.mp hl⟩
  | some l =>
      refine .inr ⟨l, rfl, Bool.eq_false_iff.mpr fun ht => ?_⟩
      rw [trap?_eq_none_iff.mpr ht] at hl
      exact nomatch hl

@[simp] theorem alphabet_complete (d : Dfa) : d.complete.alphabet = d.alphabet := by
  obtain ⟨h, -⟩ | ⟨l, h, -⟩ := d.complete_eq_or
  · rw [h]
  · rw [h, alphabet_addTrap]

theorem wellFormed_complete (h : d.WellFormed) : d.complete.WellFormed := by
  obtain ⟨hc, -⟩ | ⟨l, hc, -⟩ := d.complete_eq_or <;> rw [hc]
  · exact h
  · exact wellFormed_addTrap h

/-- **A completed automaton has every move.** -/
theorem isTotal_complete (d : Dfa) : d.complete.isTotal = true := by
  obtain ⟨hc, ht⟩ | ⟨l, hc, -⟩ := d.complete_eq_or <;> rw [hc]
  · exact ht
  · exact isTotal_addTrap

theorem accessible_complete (h : d.WellFormed) (hacc : d.Accessible) :
    d.complete.Accessible := by
  obtain ⟨hc, -⟩ | ⟨l, hc, ht⟩ := d.complete_eq_or <;> rw [hc]
  · exact hacc
  · exact accessible_addTrap h hacc ht

/-- **Where a run got stuck, the completed automaton goes to the state after the last.** -/
theorem run_complete (h : d.WellFormed) (hw : ∀ a ∈ w, a ∈ d.alphabet) :
    d.complete.run w = some ((d.run w).getD d.numStates) := by
  obtain ⟨hc, ht⟩ | ⟨l, hc, -⟩ := d.complete_eq_or <;> rw [hc]
  · obtain ⟨q, hq⟩ := exists_run h ht hw
    rw [hq, Option.getD_some]
  · exact runFrom_addTrap h (Nat.le_of_lt h.initial_lt) hw

theorem isFinal_complete (hp : p ≤ d.numStates) : d.complete.isFinal p = d.isFinal p := by
  obtain ⟨hc, -⟩ | ⟨l, hc, -⟩ := d.complete_eq_or <;> rw [hc]
  exact isFinal_addTrap hp

theorem label_complete (hp : p < d.numStates) : d.complete.label p = d.label p := by
  obtain ⟨hc, -⟩ | ⟨l, hc, -⟩ := d.complete_eq_or <;> rw [hc]
  exact label_addTrap hp

/-- **A word over the alphabet gets stuck only where a trap is added**, and the state after the last
has its label. -/
theorem exists_trap?_of_run_eq_none (h : d.WellFormed) (hw : ∀ a ∈ w, a ∈ d.alphabet)
    (hrun : d.run w = none) : ∃ l, d.trap? = some l ∧ d.complete.label d.numStates = l := by
  cases hl : d.trap? with
  | none =>
      obtain ⟨q, hq⟩ := exists_run h (trap?_eq_none_iff.mp hl) hw
      exact nomatch hrun.symm.trans hq
  | some l =>
      rw [complete, hl]
      exact ⟨l, rfl, label_addTrap_numStates⟩

/-- **What got stuck on a symbol of the alphabet is rejected**; no other outcome changes. -/
theorem evaluate_complete (h : d.WellFormed) (hw : ∀ a ∈ w, a ∈ d.alphabet) :
    d.complete.evaluate w = if d.evaluate w = .accept then .accept else .reject := by
  have hrun := run_complete h hw
  rw [evaluate_of_run hrun]
  cases hq : d.run w with
  | none =>
      rw [evaluate_of_run_eq_none hq, Option.getD_none, isFinal_complete (Nat.le_refl _),
        isFinal_numStates h]
      rfl
  | some q =>
      rw [evaluate_of_run hq, Option.getD_some, isFinal_complete (Nat.le_of_lt (run_lt h hq))]
      cases d.isFinal q <;> rfl

end Automata.Dfa
