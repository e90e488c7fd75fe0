import Automata.Minimize.PairTable

/-!
# Proofs/Minimize/PairTable — a table of marks is a set of unordered pairs

The place of a pair tells its states (`pairIndex_inj`), so marking one pair marks no other
(`isMarked_mark_iff_of_ne`), and the pairs marked in turn are those on the list
(`isMarked_foldl_mark_iff`).  The marked pairs are listed by the higher state and then by the lower
(`pairwise_markedPairs`).
-/

namespace Automata

variable {n p q r s : Nat}

theorem pairIndex_comm (p q : Nat) : pairIndex p q = pairIndex q p := by
  rw [pairIndex, pairIndex, Nat.max_comm, Nat.min_comm]

/-- The places of the pairs with one higher state come before those with the next. -/
theorem pairIndex_lt_succ (h : p ≠ q) : pairIndex p q < numPairs (max p q + 1) := by
  rw [numPairs_succ, pairIndex]
  omega

/-- **The place of a pair tells its states.** -/
theorem pairIndex_inj (hpq : p ≠ q) (hrs : r ≠ s) :
    pairIndex p q = pairIndex r s ↔ p = r ∧ q = s ∨ p = s ∧ q = r := by
  constructor
  · intro h
    have hp := pairIndex_lt_succ hpq
    have hr := pairIndex_lt_succ hrs
    rw [pairIndex, pairIndex] at h
    rw [pairIndex] at hp hr
    have hmax : max p q = max r s := by
      obtain hlt | heq | hlt := Nat.lt_trichotomy (max p q) (max r s)
      · have := numPairs_mono (show max p q + 1 ≤ max r s from hlt)
        omega
      · exact heq
      · have := numPairs_mono (show max r s + 1 ≤ max p q from hlt)
        omega
    rw [hmax] at h
    omega
  · rintro (⟨rfl, rfl⟩ | ⟨rfl, rfl⟩)
    · rfl
    · exact pairIndex_comm p q

/-- **Pairs come in the order of the higher state**, and then of the lower. -/
theorem pairwise_pairs (n : Nat) :
    (pairs n).Pairwise fun r s => r.2 < s.2 ∨ r.2 = s.2 ∧ r.1 < s.1 := by
  refine List.pairwise_flatMap.mpr ⟨fun q _ => ?row, List.pairwise_lt_range.imp fun hqs => ?rows⟩
  case row => exact List.pairwise_map.mpr (List.pairwise_lt_range.imp fun h => .inr ⟨rfl, h⟩)
  case rows =>
    intro r hr s hs
    obtain ⟨_, -, rfl⟩ := List.mem_map.mp hr
    obtain ⟨_, -, rfl⟩ := List.mem_map.mp hs
    exact .inl hqs

namespace PairTable

variable {t : PairTable n}

theorem isMarked_comm (t : PairTable n) (p q : Nat) : t.isMarked p q = t.isMarked q p := by
  rw [isMarked, isMarked, pairIndex_comm, bne_comm]

@[simp] theorem isMarked_self (t : PairTable n) (p : Nat) : t.isMarked p p = false := by
  simp [isMarked]

theorem ne_of_isMarked (h : t.isMarked p q = true) : p ≠ q := by
  rintro rfl
  simp at h

@[simp] theorem isMarked_empty (n p q : Nat) : (empty n).isMarked p q = false := by
  simp only [isMarked, empty, Vector.getElem?_replicate]
  split <;> simp

/-- **Marking a pair marks that pair and no other.** -/
theorem isMarked_mark_iff_of_ne (hne : p ≠ q) (hp : p < n) (hq : q < n) :
    (t.mark p q).isMarked r s = true ↔
      t.isMarked r s = true ∨ r = p ∧ s = q ∨ r = q ∧ s = p := by
  by_cases hrs : r = s
  · subst hrs
    simp only [isMarked_self, Bool.false_eq_true, false_or, false_iff]
    omega
  · have hindex : pairIndex p q < numPairs n := pairIndex_lt hne hp hq
    have hinj := pairIndex_inj hrs hne
    simp only [isMarked, mark, bne_iff_ne.mpr hrs, Bool.true_and]
    by_cases h : pairIndex r s = pairIndex p q
    · rw [h, Vector.getElem?_setIfInBounds_self_of_lt hindex]
      exact iff_of_true rfl (.inr (hinj.mp h))
    · rw [Vector.getElem?_setIfInBounds_ne (Ne.symm h)]
      exact ⟨.inl, fun hm => hm.elim id fun hm => absurd (hinj.mpr hm) h⟩

theorem isMarked_mark_iff (hpq : (p, q) ∈ pairs n) : (t.mark p q).isMarked r s = true ↔
    t.isMarked r s = true ∨ r = p ∧ s = q ∨ r = q ∧ s = p := by
  obtain ⟨hlt, hq⟩ := mem_pairs.mp hpq
  exact isMarked_mark_iff_of_ne (Nat.ne_of_lt hlt) (Nat.lt_trans hlt hq) hq

/-- **The pairs marked in turn are those on the list**, beside those marked before. -/
theorem isMarked_foldl_mark_iff : ∀ {l : List (Nat × Nat)} {t : PairTable n},
    (∀ r ∈ l, r ∈ pairs n) → ((l.foldl (fun t r => t.mark r.1 r.2) t).isMarked r s = true ↔
      t.isMarked r s = true ∨ (r, s) ∈ l ∨ (s, r) ∈ l)
  | [], _, _ => by simp
  | (p, q) :: l, t, h => by
      rw [List.foldl_cons, isMarked_foldl_mark_iff fun e he => h e (List.mem_cons_of_mem _ he),
        isMarked_mark_iff (h (p, q) List.mem_cons_self)]
      simp only [List.mem_cons, Prod.mk.injEq]
      grind

/-! ## The list of marked pairs -/

theorem mem_markedPairs :
    (p, q) ∈ t.markedPairs ↔ p < q ∧ q < n ∧ t.isMarked p q = true := by
  rw [markedPairs, List.mem_filter, mem_pairs, and_assoc]

theorem pairwise_markedPairs (t : PairTable n) :
    t.markedPairs.Pairwise fun r s => r.2 < s.2 ∨ r.2 = s.2 ∧ r.1 < s.1 :=
  (pairwise_pairs n).filter _

end PairTable

end Automata
