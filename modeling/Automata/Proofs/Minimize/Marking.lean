import Automata.Minimize.Marking
import Automata.Proofs.Minimize.PairTable
import Automata.Proofs.Separation

/-!
# Proofs/Minimize/Marking — a pair is marked exactly when some word separates it

A pass only ever marks a pair that a symbol leads to a marked pair, so what such marks keep, of the
table and of the pairs listed, is kept by a pass (`pass_extends`) and by all of them
(`propagate_extends`): marks are sound.  The last
pass changes nothing (`pass_propagate_eq_nil`), so the final table is closed under going back along
a symbol, and a separating word is followed back from its end to its start:
`isMarked_distinguish_iff`.
-/

namespace Automata.Dfa

variable {d : Dfa} {n : Nat} {t : PairTable n} {p q p' q' : StateId} {a : Symbol}

/-! ## The first marks -/

/-- **At first the pairs are marked of which just one state is final.** -/
theorem isMarked_finalityTable_iff (hp : p < n) (hq : q < n) :
    (d.finalityTable n).isMarked p q = true ↔ d.isFinal p ≠ d.isFinal q := by
  rw [finalityTable, PairTable.isMarked_foldl_mark_iff fun r hr => (List.mem_filter.mp hr).1]
  simp only [PairTable.isMarked_empty, Bool.false_eq_true, false_or, List.mem_filter, mem_pairs,
    bne_iff_ne]
  constructor
  · rintro (⟨-, h⟩ | ⟨-, h⟩)
    · exact h
    · exact h.symm
  · intro h
    have hne : p ≠ q := fun e => h (congrArg d.isFinal e)
    obtain hlt | hlt := Nat.lt_or_gt_of_ne hne
    · exact .inl ⟨⟨hlt, hq⟩, h⟩
    · exact .inr ⟨⟨hlt, hp⟩, h.symm⟩

/-! ## One pass -/

/-- A splitter leads two states to a marked pair. -/
theorem of_splitter?_eq_some (h : d.splitter? t p q = some a) : a ∈ d.alphabet ∧
    ∃ p' q', d.next? p a = some p' ∧ d.next? q a = some q' ∧ t.isMarked p' q' = true := by
  refine ⟨List.mem_of_find?_eq_some h, ?_⟩
  have hm := List.find?_some h
  split at hm
  · exact ⟨_, _, ‹_›, ‹_›, hm⟩
  · exact absurd hm (by simp)

theorem isMarked_of_splitter?_eq_none (h : d.splitter? t p q = none) (ha : a ∈ d.alphabet)
    (hp : d.next? p a = some p') (hq : d.next? q a = some q') : t.isMarked p' q' = false := by
  have hm := List.find?_eq_none.mp h a ha
  simp only [hp, hq] at hm
  exact Bool.eq_false_iff.mpr hm

/-- **A splitter is the least symbol that leads two states to a marked pair.** -/
theorem toNat_le_of_splitter?_eq_some {b : Symbol} (h : d.splitter? t p q = some a)
    (hb : b ∈ d.alphabet) (hp : d.next? p b = some p') (hq : d.next? q b = some q')
    (hmarked : t.isMarked p' q' = true) : a.toNat ≤ b.toNat := by
  obtain ⟨-, before, after, hsplit, hbefore⟩ := List.find?_eq_some_iff_append.mp h
  have hascending := d.alphabet.ascending
  rw [hsplit, List.pairwise_append, List.pairwise_cons] at hascending
  have hb : b ∈ d.alphabet.toList := hb
  rw [hsplit, List.mem_append, List.mem_cons] at hb
  obtain hb | rfl | hb := hb
  · have hfalse := hbefore b hb
    simp only [hp, hq, hmarked, Bool.not_true, Bool.false_eq_true] at hfalse
  · exact Nat.le_refl _
  · exact Nat.le_of_lt (hascending.2.1.1 b hb)

/-- **What every mark keeps of the table and of the pairs listed so far, a pass keeps.** -/
theorem pass_extends {P : List Marking → PairTable n → Prop}
    (hmark : ∀ m t p q a, (p, q) ∈ pairs n → P m t → t.isMarked p q = false →
      d.splitter? t p q = some a → P (m ++ [⟨p, q, a⟩]) (t.mark p q)) :
    ∀ {l : List (StateId × StateId)} {m : List Marking} {t : PairTable n},
      (∀ r ∈ l, r ∈ pairs n) → P m t → P (m ++ (d.pass l t).1) (d.pass l t).2
  | [], m, _, _, ht => by rwa [pass, List.append_nil]
  | (p, q) :: l, m, t, hl, ht => by
      obtain ⟨hpq, hl⟩ := List.forall_mem_cons.mp hl
      rw [pass]
      split
      · exact pass_extends hmark hl ht
      · rename_i hunmarked
        split
        · exact pass_extends hmark hl ht
        · rename_i a ha
          have hext := pass_extends hmark hl
            (hmark m t p q a hpq ht (Bool.eq_false_iff.mpr hunmarked) ha)
          rwa [List.append_assoc] at hext

/-- **What every mark of a pass keeps, the pass keeps.** -/
theorem pass_preserves {P : PairTable n → Prop}
    (hmark : ∀ t p q a, (p, q) ∈ pairs n → P t → t.isMarked p q = false →
      d.splitter? t p q = some a → P (t.mark p q)) {l : List (StateId × StateId)}
    {t : PairTable n} (hl : ∀ r ∈ l, r ∈ pairs n) (ht : P t) : P (d.pass l t).2 :=
  pass_extends (P := fun _ => P) (m := []) (fun _ => hmark) hl ht

/-- **A pass that marks nothing finds no pair to mark**, and leaves the table as it is. -/
theorem of_pass_eq_nil : ∀ {l : List (StateId × StateId)} {t : PairTable n},
    (d.pass l t).1 = [] → (d.pass l t).2 = t ∧
      ∀ r ∈ l, t.isMarked r.1 r.2 = true ∨ d.splitter? t r.1 r.2 = none
  | [], _, _ => ⟨rfl, fun _ hr => absurd hr List.not_mem_nil⟩
  | (p, q) :: l, t, h => by
      rw [pass] at h ⊢
      split at h
      · rename_i hmarked
        obtain ⟨htable, hall⟩ := of_pass_eq_nil h
        rw [if_pos hmarked]
        exact ⟨htable, List.forall_mem_cons.mpr ⟨.inl hmarked, hall⟩⟩
      · rename_i hunmarked
        rw [if_neg hunmarked]
        split at h
        · rename_i hnone
          obtain ⟨htable, hall⟩ := of_pass_eq_nil h
          exact ⟨htable, List.forall_mem_cons.mpr ⟨.inr hnone, hall⟩⟩
        · exact absurd h (List.cons_ne_nil _ _)

/-! ## All passes -/

theorem propagate_of_pass_eq_nil (h : (d.pass (pairs n) t).1 = []) :
    d.propagate t = ⟨(d.pass (pairs n) t).2, [], 1⟩ := by
  rw [propagate]
  split
  · rename_i heq
    rw [heq]
  · rename_i heq
    rw [heq] at h
    exact absurd h (List.cons_ne_nil _ _)

theorem propagate_of_pass_ne_nil (h : (d.pass (pairs n) t).1 ≠ []) :
    d.propagate t = ⟨(d.propagate (d.pass (pairs n) t).2).table,
      (d.pass (pairs n) t).1 ++ (d.propagate (d.pass (pairs n) t).2).markings,
      (d.propagate (d.pass (pairs n) t).2).passes + 1⟩ := by
  rw [propagate]
  split
  · rename_i heq
    rw [heq] at h
    exact absurd rfl h
  · rename_i heq
    simp only [heq]

/-- **Passes are followed to the last one** — a pass that marks something leaves less to mark. -/
theorem pass_induction {P : PairTable n → Prop}
    (last : ∀ t, (d.pass (pairs n) t).1 = [] → P t)
    (more : ∀ t, (d.pass (pairs n) t).1 ≠ [] → P (d.pass (pairs n) t).2 → P t)
    (t : PairTable n) : P t := by
  by_cases h : (d.pass (pairs n) t).1 = []
  · exact last t h
  · exact more t h (pass_induction last more _)
termination_by t.unmarked
decreasing_by exact d.unmarked_pass_lt h

/-- **What every mark keeps of the table and of the pairs listed so far, the passes keep.** -/
theorem propagate_extends {P : List Marking → PairTable n → Prop}
    (hmark : ∀ m t p q a, (p, q) ∈ pairs n → P m t → t.isMarked p q = false →
      d.splitter? t p q = some a → P (m ++ [⟨p, q, a⟩]) (t.mark p q)) {m : List Marking}
    (ht : P m t) : P (m ++ (d.propagate t).markings) (d.propagate t).table := by
  induction t using pass_induction (d := d) generalizing m with
  | last t h =>
      have hext := pass_extends hmark (fun _ hr => hr) ht
      rw [h] at hext
      rwa [propagate_of_pass_eq_nil h]
  | more t h ih =>
      rw [propagate_of_pass_ne_nil h, ← List.append_assoc]
      exact ih (pass_extends hmark (fun _ hr => hr) ht)

/-- **What every mark keeps, the passes keep.** -/
theorem propagate_preserves {P : PairTable n → Prop}
    (hmark : ∀ t p q a, (p, q) ∈ pairs n → P t → t.isMarked p q = false →
      d.splitter? t p q = some a → P (t.mark p q)) (ht : P t) : P (d.propagate t).table :=
  propagate_extends (P := fun _ => P) (m := []) (fun _ => hmark) ht

/-- **The passes list pairs of states.** -/
theorem mem_pairs_of_mem_markings {k : Marking} (hk : k ∈ (d.propagate t).markings) :
    (k.lower, k.upper) ∈ pairs n := by
  refine propagate_extends (d := d) (t := t) (m := [])
    (P := fun m _ => ∀ k ∈ m, (k.lower, k.upper) ∈ pairs n) (fun m _ p q a hpq hm _ _ => ?_)
    (fun k hk => absurd hk List.not_mem_nil) k hk
  exact List.forall_mem_append.mpr ⟨hm, List.forall_mem_singleton.mpr hpq⟩

/-- **The passes end with one that marks nothing.** -/
theorem pass_propagate_eq_nil (t : PairTable n) :
    (d.pass (pairs n) (d.propagate t).table).1 = [] := by
  induction t using pass_induction (d := d) with
  | last t h =>
      rw [propagate_of_pass_eq_nil h, (of_pass_eq_nil h).1]
      exact h
  | more t h ih =>
      rw [propagate_of_pass_ne_nil h]
      exact ih

/-! ## The final table -/

theorem isMarked_propagate_of_isMarked (h : t.isMarked p q = true) :
    (d.propagate t).table.isMarked p q = true := by
  refine propagate_preserves (P := fun u => u.isMarked p q = true) (fun u r s a hrs hu _ _ => ?_) h
  exact (PairTable.isMarked_mark_iff hrs).mpr (.inl hu)

/-- **In the final table every pair is marked that a symbol leads to a marked pair.** -/
theorem isMarked_propagate_of_next? (t : PairTable n) (hp : p < n) (hq : q < n) (hne : p ≠ q)
    (ha : a ∈ d.alphabet) (hp' : d.next? p a = some p') (hq' : d.next? q a = some q')
    (h : (d.propagate t).table.isMarked p' q' = true) :
    (d.propagate t).table.isMarked p q = true := by
  wlog hlt : p < q generalizing p q p' q'
  · rw [PairTable.isMarked_comm] at h ⊢
    exact this hq hp hne.symm hq' hp' h (Nat.lt_of_le_of_ne (Nat.le_of_not_lt hlt) hne.symm)
  obtain ⟨-, hall⟩ := of_pass_eq_nil (d.pass_propagate_eq_nil t)
  obtain hmarked | hnone := hall (p, q) (mem_pairs.mpr ⟨hlt, hq⟩)
  · exact hmarked
  · exact absurd h (Bool.eq_false_iff.mp (isMarked_of_splitter?_eq_none hnone ha hp' hq'))

/-- Every mark is sound: its symbol leads to states that some word separates. -/
theorem separated_of_isMarked_distinguish (h : d.WellFormed) (hp : p < d.numStates)
    (hq : q < d.numStates) (hpq : d.distinguish.table.isMarked p q = true) : d.Separated p q := by
  refine propagate_preserves (t := d.finalityTable d.numStates)
    (P := fun u => ∀ r < d.numStates, ∀ s < d.numStates, u.isMarked r s = true → d.Separated r s)
    (fun u p q a hpq hu _ ha r hr s hs hrs => ?mark) (fun r hr s hs hrs => ?start) p hp q hq hpq
  case start => exact separated_of_isFinal_ne ((isMarked_finalityTable_iff hr hs).mp hrs)
  case mark =>
    obtain ⟨-, p', q', hp', hq', hmarked⟩ := of_splitter?_eq_some ha
    have hsep : d.Separated p q :=
      .of_next? hp' hq' (hu p' (next?_lt h hp') q' (next?_lt h hq') hmarked)
    obtain hrs | ⟨rfl, rfl⟩ | ⟨rfl, rfl⟩ := (PairTable.isMarked_mark_iff hpq).mp hrs
    · exact hu r hr s hs hrs
    · exact hsep
    · exact hsep.symm

/-- **A pair is marked exactly when some word separates it.** -/
theorem isMarked_distinguish_iff (h : d.WellFormed) (hp : p < d.numStates) (hq : q < d.numStates) :
    d.distinguish.table.isMarked p q = true ↔ d.Separated p q := by
  refine ⟨separated_of_isMarked_distinguish h hp hq, ?_⟩
  rintro ⟨w, p₂, q₂, hp₂, hq₂, hne⟩
  induction w generalizing p q with
  | nil =>
      obtain rfl := Option.some.inj hp₂
      obtain rfl := Option.some.inj hq₂
      exact isMarked_propagate_of_isMarked ((isMarked_finalityTable_iff hp hq).mpr hne)
  | cons a w ih =>
      rw [runFrom_cons] at hp₂ hq₂
      obtain ⟨p', hp', hp₂⟩ := Option.bind_eq_some_iff.mp hp₂
      obtain ⟨q', hq', hq₂⟩ := Option.bind_eq_some_iff.mp hq₂
      have hmarked := ih (next?_lt h hp') (next?_lt h hq') hp₂ hq₂
      refine isMarked_propagate_of_next? _ hp hq ?_ (mem_alphabet_of_next? h hp') hp' hq' hmarked
      rintro rfl
      exact PairTable.ne_of_isMarked hmarked (Option.some.inj (hp'.symm.trans hq'))

end Automata.Dfa
