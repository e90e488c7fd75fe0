/-!
# Minimize/PairTable — a set of unordered pairs of states

One bit for each pair of distinct states below `n`, the pairs in the order of the higher state and
then of the lower (`pairs`).  Marks are never taken back, so the number of unmarked pairs
(`PairTable.unmarked`) goes down with every pair that is newly marked (`unmarked_mark_lt`).
-/

namespace Automata

/-- The pairs `(p, q)` with `p < q < n`, by `q` and then by `p`. -/
def pairs (n : Nat) : List (Nat × Nat) :=
  (List.range n).flatMap fun q => (List.range q).map fun p => (p, q)

theorem mem_pairs {n p q : Nat} : (p, q) ∈ pairs n ↔ p < q ∧ q < n := by
  simp only [pairs, List.mem_flatMap, List.mem_range, List.mem_map, Prod.mk.injEq]
  exact ⟨fun ⟨r, hr, s, hs, e, e'⟩ => by omega, fun ⟨h, h'⟩ => ⟨q, h', p, h, rfl, rfl⟩⟩

/-- The number of pairs of distinct states below `n`.  It is not limited here; on 64 bits the product
has room for up to `2 ^ 32` states (`MarkTable.new?`). -/
def numPairs (n : Nat) : Nat := n * (n - 1) / 2

/-- The place of a pair: the number of pairs of states below its higher one, and of those before it
with its higher state.  On 64 bits it is `MarkTable.place?`. -/
def pairIndex (p q : Nat) : Nat := numPairs (max p q) + min p q

theorem numPairs_succ (n : Nat) : numPairs (n + 1) = numPairs n + n := by
  cases n with
  | zero => rfl
  | succ m =>
      have h : (m + 1 + 1) * (m + 1) = (m + 1) * m + 2 * (m + 1) := by
        rw [Nat.mul_comm (m + 1 + 1), Nat.mul_comm 2, ← Nat.mul_add]
      rw [numPairs, numPairs, Nat.add_sub_cancel, Nat.add_sub_cancel, h,
        Nat.add_mul_div_left _ _ (by decide)]

theorem numPairs_mono {m n : Nat} (h : m ≤ n) : numPairs m ≤ numPairs n := by
  induction n with
  | zero => obtain rfl := Nat.le_zero.mp h; exact Nat.le_refl _
  | succ n ih =>
      rcases Nat.lt_or_eq_of_le h with h | rfl
      · rw [numPairs_succ]
        have := ih (by omega)
        omega
      · exact Nat.le_refl _

/-- **Every pair has a place in the table.** -/
theorem pairIndex_lt {n p q : Nat} (hne : p ≠ q) (hp : p < n) (hq : q < n) :
    pairIndex p q < numPairs n := by
  have h := numPairs_succ (max p q)
  have := numPairs_mono (show max p q + 1 ≤ n by omega)
  rw [pairIndex]
  omega

/-- A set of pairs of distinct states below `n`. -/
structure PairTable (n : Nat) where
  marks : Vector Bool (numPairs n)
deriving DecidableEq

namespace PairTable

variable {n : Nat}

/-- No pair is marked. -/
def empty (n : Nat) : PairTable n := ⟨Vector.replicate _ false⟩

/-- Whether the pair of two states is marked; a state makes no pair with itself. -/
def isMarked (t : PairTable n) (p q : Nat) : Bool :=
  p != q && (t.marks[pairIndex p q]?).getD false

/-- Marks the pair of two states. -/
def mark (t : PairTable n) (p q : Nat) : PairTable n :=
  ⟨t.marks.setIfInBounds (pairIndex p q) true⟩

/-- Marks the pair of two states, and tells whether it is new. -/
def add (t : PairTable n) (p q : Nat) : Bool × PairTable n := (!t.isMarked p q, t.mark p q)

/-- The marked pairs, each with the lower state first. -/
def markedPairs (t : PairTable n) : List (Nat × Nat) :=
  (pairs n).filter fun r => t.isMarked r.1 r.2

/-- The number of pairs that are not marked. -/
def unmarked (t : PairTable n) : Nat := t.marks.count false

/-- **Marking a new pair leaves one pair less to mark.** -/
theorem unmarked_mark_lt {t : PairTable n} {p q : Nat} (hpq : (p, q) ∈ pairs n)
    (h : t.isMarked p q = false) : (t.mark p q).unmarked < t.unmarked := by
  obtain ⟨hlt, hq⟩ := mem_pairs.mp hpq
  have hi : pairIndex p q < numPairs n := pairIndex_lt (by omega) (by omega) hq
  have hf : t.marks[pairIndex p q] = false := by
    have hne : (p != q) = true := by simp; omega
    simpa [isMarked, hne, hi] using h
  have hpos : 0 < t.marks.count false :=
    Vector.count_pos_iff.mpr (hf ▸ Vector.getElem_mem hi)
  have hset : t.marks.setIfInBounds (pairIndex p q) true = t.marks.set (pairIndex p q) true hi := by
    refine Vector.toArray_inj.mp ?_
    rw [Vector.toArray_setIfInBounds, Vector.toArray_set, Array.setIfInBounds, dif_pos]
  rw [unmarked, mark, hset, Vector.count_set hi, hf, if_pos (beq_self_eq_true _),
    if_neg (by decide)]
  exact Nat.sub_lt hpos Nat.one_pos

end PairTable

end Automata
