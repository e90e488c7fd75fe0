import Automata.Proofs.Minimization

/-!
# Proofs/Merging — where the states of an automaton go when it is minimized

A word leads the completed automaton where it led the automaton it was made from, or to the trap
(`run_completed`), and the minimized automaton to the class of that state.  So the classes in the
report hold the labels of the states merged: `run_minimize`.
-/

namespace Automata.Dfa

variable {d : Dfa} {s : StateId} {w : List Symbol}

/-- **A word is read in the completed automaton to a state with the label of the one it led to**, or
with that of the trap. -/
theorem run_completed (h : d.WellFormed) (hw : ∀ a ∈ w, a ∈ d.alphabet) :
    ∃ q, d.minimization.completed.run w = some q ∧
      (∀ s, d.run w = some s → d.minimization.completed.label q = d.label s ∧
        d.minimization.completed.isFinal q = d.isFinal s) ∧
      (d.run w = none → d.minimization.trap = some (d.minimization.completed.label q)) := by
  have ht := wellFormed_trim h
  refine ⟨_, run_complete ht hw, fun s hs => ?read, fun hnone => ?stuck⟩
  case read =>
    have hget := getElem?_idxOf ((mem_kept_iff h).mpr ⟨w, hs⟩)
    have hrun : d.trim.run w = some (d.kept.idxOf s) := by rw [run_trim h, hs, Option.map_some]
    have hlt := run_lt ht hrun
    rw [hrun, Option.getD_some]
    exact ⟨(label_complete hlt).trans (label_trim hget),
      (isFinal_complete (Nat.le_of_lt hlt)).trans (isFinal_trim hget)⟩
  case stuck =>
    have hrun : d.trim.run w = none := by rw [run_trim h, hnone, Option.map_none]
    obtain ⟨l, hl, hlabel⟩ := exists_trap?_of_run_eq_none ht hw hrun
    rw [hrun, Option.getD_none]
    exact hl.trans (congrArg some hlabel.symm)

/-- The class of a state is reported with the label of the state. -/
theorem label_mem_classes (hs : s < d.minimization.completed.numStates) :
    ∃ c, d.minimization.classes[d.minimization.completed.classOf s]? = some c ∧
      d.minimization.completed.label s ∈ c := by
  obtain ⟨c, hc, hmem⟩ := exists_mem_members_classOf hs
  refine ⟨c.members.map d.minimization.completed.label, ?_, List.mem_map_of_mem hmem⟩
  have hget : d.minimization.partition[d.minimization.completed.classOf s]? = some c := hc
  rw [Minimization.classes, List.getElem?_map, hget, Option.map_some]

/-- **The minimized automaton goes through the classes of the states of the original.**  It reads
every word over the alphabet; where the original reads the word too, the class reached holds the
label of the state reached and is final if that is, and where it gets stuck the class holds the
label of the trap. -/
theorem run_minimize (hd : d.Obtainable) (hw : ∀ a ∈ w, a ∈ d.alphabet) :
    ∃ i c, d.minimize.run w = some i ∧ d.minimization.classes[i]? = some c ∧
      (∀ s, d.run w = some s → d.label s ∈ c ∧ d.minimize.isFinal i = d.isFinal s) ∧
      (d.run w = none → ∃ l, d.minimization.trap = some l ∧ l ∈ c) := by
  have h := hd.wellFormed
  have hc : d.minimization.completed.WellFormed := wellFormed_complete (wellFormed_trim h)
  obtain ⟨q, hq, hread, hstuck⟩ := run_completed h hw
  have hlt := run_lt hc hq
  obtain ⟨c, hget, hmem⟩ := label_mem_classes hlt
  refine ⟨_, c, ?run, hget, fun s hs => ?read, fun hnone => ⟨_, hstuck hnone, hmem⟩⟩
  case run =>
    have hrun := run_quotient hc d.trim.isTotal_complete w
    rwa [hq, Option.map_some] at hrun
  case read =>
    obtain ⟨hlabel, hfinal⟩ := hread s hs
    exact ⟨hlabel ▸ hmem, (isFinal_quotient hc hlt).trans hfinal⟩

/-- The word `aa` is read to the class of the trap. -/
theorem run_minimize_letter : letter.run ['a', 'a'] = none ∧
    ∃ i c l, letter.minimize.run ['a', 'a'] = some i ∧ letter.minimization.classes[i]? = some c ∧
      letter.minimization.trap = some l ∧ l ∈ c := by
  have hmem : ∀ a ∈ ['a', 'a'], a ∈ letter.alphabet := by
    intro a ha
    obtain rfl : a = 'a' := by simpa using ha
    decide
  have hrun : letter.run ['a', 'a'] = none := by decide
  obtain ⟨i, c, hi, hc, -, hstuck⟩ := run_minimize obtainable_letter hmem
  obtain ⟨l, hl, hlc⟩ := hstuck hrun
  exact ⟨hrun, i, c, l, hi, hc, hl, hlc⟩

end Automata.Dfa
