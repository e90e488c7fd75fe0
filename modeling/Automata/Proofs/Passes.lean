import Automata.Proofs.Minimization
import Automata.Proofs.Minimize.Depth
import Mathlib.Logic.Function.Iterate

/-!
# Proofs/Passes — how many passes the marking takes

The `k`-th pass marks at the latest what a word of `k` symbols separates
(`isMarked_nextTable_of_separatedWithin`): its own marks may let it mark more, but nothing keeps it
from marking that.  So while passes go on marking, words have to get longer
(`passes_propagate_le`), and a word with two symbols less than there are classes is long enough:
`passes_minimization`.
-/

namespace Automata.Dfa

variable {d : Dfa} {n k m : Nat} {t : PairTable n} {p q p' q' : StateId} {a : Symbol}

/-! ## One pass -/

/-- The table that a pass leaves. -/
def nextTable (d : Dfa) (t : PairTable n) : PairTable n := (d.pass (pairs n) t).2

/-- The table after a number of passes. -/
def tableAfter (d : Dfa) (k : Nat) : PairTable d.numStates :=
  d.nextTable^[k] (d.finalityTable d.numStates)

/-- A pass takes no mark back. -/
theorem isMarked_pass_of_isMarked {l : List (StateId × StateId)} (hl : ∀ r ∈ l, r ∈ pairs n)
    (h : t.isMarked p q = true) : (d.pass l t).2.isMarked p q = true :=
  pass_preserves (P := fun u => u.isMarked p q = true)
    (fun _ _ _ _ hrs hu _ _ => (PairTable.isMarked_mark_iff hrs).mpr (.inl hu)) hl h

/-- **A pass marks each pair it visits that a symbol leads to a pair marked before.** -/
theorem isMarked_pass_of_next? (ha : a ∈ d.alphabet) (hp : d.next? p a = some p')
    (hq : d.next? q a = some q') : ∀ {l : List (StateId × StateId)} {t : PairTable n},
      (∀ r ∈ l, r ∈ pairs n) → (p, q) ∈ l → t.isMarked p' q' = true →
        (d.pass l t).2.isMarked p q = true
  | [], _, _, hmem, _ => absurd hmem List.not_mem_nil
  | (r, s) :: l, t, hl, hmem, hmarked => by
      obtain ⟨hrs, hl'⟩ := List.forall_mem_cons.mp hl
      have hself : (t.mark r s).isMarked r s = true :=
        (PairTable.isMarked_mark_iff hrs).mpr (.inr (.inl ⟨rfl, rfl⟩))
      rw [pass]
      obtain heq | hmem := List.mem_cons.mp hmem
      · obtain ⟨rfl, rfl⟩ := Prod.mk.inj heq
        split
        · exact isMarked_pass_of_isMarked hl' ‹_›
        · split
          · rename_i hnone
            have hfalse := isMarked_of_splitter?_eq_none hnone ha hp hq
            exact absurd hmarked (Bool.eq_false_iff.mp hfalse)
          · exact isMarked_pass_of_isMarked hl' hself
      · split
        · exact isMarked_pass_of_next? ha hp hq hl' hmem hmarked
        · split
          · exact isMarked_pass_of_next? ha hp hq hl' hmem hmarked
          · exact isMarked_pass_of_next? ha hp hq hl' hmem
              ((PairTable.isMarked_mark_iff hrs).mpr (.inl hmarked))

/-- What a pass lists, it has marked. -/
theorem exists_isMarked_of_pass_ne_nil {l : List (StateId × StateId)}
    (hl : ∀ r ∈ l, r ∈ pairs n) (hne : (d.pass l t).1 ≠ []) :
    ∃ p q, (p, q) ∈ pairs n ∧ t.isMarked p q = false ∧ (d.pass l t).2.isMarked p q = true := by
  refine (pass_extends (m := []) (P := fun m u =>
    (∀ r s, t.isMarked r s = true → u.isMarked r s = true) ∧ (m ≠ [] → ∃ p q, (p, q) ∈ pairs n ∧
      t.isMarked p q = false ∧ u.isMarked p q = true)) ?mark hl ?start).2 hne
  case start => exact ⟨fun _ _ h => h, absurd rfl⟩
  case mark =>
    -- the last pair marked is one that was not marked at the start
    rintro m u p q a hpq ⟨hkept, -⟩ hunmarked -
    refine ⟨fun r s h => (PairTable.isMarked_mark_iff hpq).mpr (.inl (hkept r s h)), fun _ =>
      ⟨p, q, hpq, ?_, (PairTable.isMarked_mark_iff hpq).mpr (.inr (.inl ⟨rfl, rfl⟩))⟩⟩
    exact Bool.eq_false_iff.mpr fun h => Bool.eq_false_iff.mp hunmarked (hkept p q h)

/-! ## Pass by pass -/

/-- All pairs that words of at most `k` symbols separate are marked. -/
def MarksWithin (d : Dfa) (k : Nat) (t : PairTable n) : Prop :=
  ∀ p < n, ∀ q < n, d.SeparatedWithin k p q → t.isMarked p q = true

theorem marksWithin_finalityTable (d : Dfa) (n : Nat) : d.MarksWithin 0 (d.finalityTable n) :=
  fun _ hp _ hq hpq => (isMarked_finalityTable_iff hp hq).mpr (separatedWithin_zero_iff.mp hpq)

/-- **With each pass words of one symbol more are caught up with.** -/
theorem MarksWithin.nextTable {t : PairTable d.numStates} (h : d.WellFormed)
    (ht : d.MarksWithin k t) : d.MarksWithin (k + 1) (d.nextTable t) := by
  intro p hp q hq hpq
  have hne : p ≠ q := by
    rintro rfl
    exact not_separated_self hpq.separated
  wlog hlt : p < q generalizing p q
  · rw [PairTable.isMarked_comm]
    exact this q hq p hp hpq.symm hne.symm (Nat.lt_of_le_of_ne (Nat.le_of_not_lt hlt) hne.symm)
  obtain hfinal | ⟨a, p', q', hp', hq', hpq'⟩ := separatedWithin_succ_iff.mp hpq
  · exact isMarked_pass_of_isMarked (fun _ hr => hr)
      (ht p hp q hq (separatedWithin_of_isFinal_ne hfinal))
  · exact isMarked_pass_of_next? (mem_alphabet_of_next? h hp') hp' hq' (fun _ hr => hr)
      (mem_pairs.mpr ⟨hlt, hq⟩) (ht p' (next?_lt h hp') q' (next?_lt h hq') hpq')

/-- **As long as passes mark something, words have to get longer.** -/
theorem passes_propagate_le (h : d.WellFormed) {t : PairTable d.numStates}
    (hfinal : ∀ p < d.numStates, ∀ q < d.numStates, (d.propagate t).table.isMarked p q = true →
      d.SeparatedWithin m p q) (ht : d.MarksWithin k t) :
    (d.propagate t).passes ≤ m - k + 1 := by
  induction t using pass_induction (d := d) generalizing k with
  | last t hnil =>
      rw [propagate_of_pass_eq_nil hnil]
      exact Nat.le_add_left 1 (m - k)
  | more t hne ih =>
      rw [propagate_of_pass_ne_nil hne] at hfinal ⊢
      have hle := ih hfinal (ht.nextTable h)
      -- what this pass has marked needs a word of more than `k` symbols, and of at most `m`
      obtain ⟨p, q, hpq, hunmarked, hmarked⟩ := exists_isMarked_of_pass_ne_nil (fun _ hr => hr) hne
      obtain ⟨hlt, hq⟩ := mem_pairs.mp hpq
      have hp := Nat.lt_trans hlt hq
      have hsep := hfinal p hp q hq (isMarked_propagate_of_isMarked hmarked)
      have hkm : k < m := by
        by_contra hmk
        have hmarked' := ht p hp q hq (hsep.mono (Nat.le_of_not_lt hmk))
        exact absurd hmarked' (Bool.eq_false_iff.mp hunmarked)
      refine Nat.succ_le_succ (hle.trans ?_)
      omega

/-- **The passes counted are those up to the first that marks nothing.** -/
theorem pass_iterate_nextTable (t : PairTable n) :
    1 ≤ (d.propagate t).passes ∧
    (∀ k, k + 1 < (d.propagate t).passes → (d.pass (pairs n) (d.nextTable^[k] t)).1 ≠ []) ∧
    (d.pass (pairs n) (d.nextTable^[(d.propagate t).passes - 1] t)).1 = [] := by
  induction t using pass_induction (d := d) with
  | last t hnil =>
      rw [propagate_of_pass_eq_nil hnil]
      exact ⟨Nat.le_refl 1, fun k hk => absurd (Nat.lt_of_succ_lt_succ hk) (Nat.not_lt_zero k), hnil⟩
  | more t hne ih =>
      obtain ⟨hpos, hmore, hlast⟩ := ih
      rw [propagate_of_pass_ne_nil hne]
      refine ⟨Nat.le_add_left 1 _, fun k hk => ?_, ?_⟩
      · cases k with
        | zero => exact hne
        | succ k => exact hmore k (Nat.lt_of_succ_lt_succ hk)
      · rw [Nat.add_sub_cancel, ← Nat.sub_add_cancel hpos, Function.iterate_succ_apply]
        exact hlast

/-! ## Minimizing -/

/-- **Minimizing takes fewer passes than the result has states, or a single one**; the last pass is
the first that marks nothing. -/
theorem passes_minimization (hd : d.Obtainable) :
    1 ≤ d.minimization.passes ∧ d.minimization.passes ≤ max 1 (d.minimize.numStates - 1) ∧
    (∀ k, k + 1 < d.minimization.passes → (d.minimization.completed.pass
      (pairs d.minimization.completed.numStates) (d.minimization.completed.tableAfter k)).1 ≠ []) ∧
    (d.minimization.completed.pass (pairs d.minimization.completed.numStates)
      (d.minimization.completed.tableAfter (d.minimization.passes - 1))).1 = [] := by
  have hc := wellFormed_complete (wellFormed_trim hd.wellFormed)
  have ht := d.trim.isTotal_complete
  obtain ⟨hpos, hmore, hlast⟩ := pass_iterate_nextTable (d := d.trim.complete)
    (d.trim.complete.finalityTable d.trim.complete.numStates)
  refine ⟨hpos, ?_, hmore, hlast⟩
  have hle : d.minimization.passes ≤ d.trim.complete.stateClasses.length - 2 - 0 + 1 := by
    refine passes_propagate_le hc (fun p hp q hq hpq => ?_) (marksWithin_finalityTable _ _)
    exact ((isMarked_distinguish_iff hc hp hq).mp hpq).within hc ht hp hq
  rw [minimize_eq, numStates_quotient]
  omega

/-- Three states at the most, so two passes. -/
theorem passes_minimization_letter :
    letter.minimization.passes = 1 ∨ letter.minimization.passes = 2 := by
  have hle : letter.minimize.numStates ≤ 3 :=
    (minimal_minimize obtainable_letter.wellFormed).numStates_le_succ obtainable_letter.wellFormed
      fun w => (accepts_minimize obtainable_letter.wellFormed w).symm
  obtain ⟨hpos, hpasses, -⟩ := passes_minimization obtainable_letter
  omega

end Automata.Dfa
