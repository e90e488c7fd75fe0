import Automata.Sorted.Set

/-!
# Proofs/Indexed/Bisection — a value is looked for in an ascending list by halves

The search keeps a stretch of the list: what stands before it is less than the value, what stands
behind it is greater (`Parts`), and a round drops the half that cannot hold it (`bisect_parts`).  So
the value is found if it is there, and the position where it belongs if it is not
(`binarySearch_spec`).
-/

namespace Automata

open Ranked (rank rank_inj)

section

variable {α : Type} [Ranked α] {l : List α} {a : α} {i : Nat}

/-! ## Stretches of an ascending list -/

/-- **What stands before the `i`-th position is less, and from the `j`-th on all is greater.** -/
structure Parts (l : List α) (a : α) (i j : Nat) : Prop where
  below : ∀ b ∈ l.take i, rank b < rank a
  above : ∀ b ∈ l.drop j, rank a < rank b

theorem Parts.mono {j k : Nat} (h : Parts l a i j) (hjk : j ≤ k) : Parts l a i k :=
  ⟨h.below, fun b hb => h.above b (List.drop_subset_drop_left l hjk hb)⟩

/-- A value that is not on the list is inserted between the less and the greater. -/
theorem Parts.insertAscending_eq (h : Parts l a i i) :
    insertAscending a l = l.take i ++ a :: l.drop i := by
  have insert_append : ∀ {k m : List α}, (∀ b ∈ k, rank b < rank a) → (∀ b ∈ m, rank a < rank b) →
      insertAscending a (k ++ m) = k ++ a :: m := by
    intro k m hk hm
    induction k with
    | nil =>
        cases m with
        | nil => rfl
        | cons b m => exact if_pos (hm b List.mem_cons_self)
    | cons c k ih =>
        obtain ⟨hc, hk⟩ := List.forall_mem_cons.mp hk
        rw [List.cons_append, insertAscending, if_neg (by omega), if_neg (by omega), ih hk]
        rfl
  rw [← insert_append h.below h.above, List.take_append_drop]

theorem Parts.not_mem (h : Parts l a i i) : a ∉ l := fun ha => by
  rw [← List.take_append_drop i l] at ha
  obtain ha | ha := List.mem_append.mp ha
  · exact absurd (h.below a ha) (Nat.lt_irrefl _)
  · exact absurd (h.above a ha) (Nat.lt_irrefl _)

/-- Whether a position holds more than a value, or nothing. -/
def exceeds (l : List α) (a : α) (i : Nat) : Bool := l[i]?.all fun b => decide (rank a < rank b)

/-- What stands behind more than a value is more, too. -/
theorem above_of_exceeds (hl : l.Pairwise (rank · < rank ·)) (h : exceeds l a i = true) :
    ∀ b ∈ l.drop i, rank a < rank b := by
  intro b hb
  obtain ⟨k, hk, rfl⟩ := List.mem_drop_iff_getElem.mp hb
  rw [exceeds, List.getElem?_eq_getElem (by omega), Option.all_some, decide_eq_true_iff] at h
  obtain rfl | hpos := Nat.eq_zero_or_pos k
  · exact h
  · exact Nat.lt_trans h (List.pairwise_iff_getElem.mp hl i (i + k) _ _ (by omega))

/-- What stands before no more than a value is less. -/
theorem below_of_not_exceeds (hl : l.Pairwise (rank · < rank ·)) (h : ¬ exceeds l a i = true) :
    ∀ b ∈ l.take i, rank b < rank a := by
  intro b hb
  obtain ⟨k, hk, rfl⟩ := List.mem_take_iff_getElem.mp hb
  have hlt : i < l.length := Nat.lt_of_not_le fun hge => h (by
    rw [exceeds, List.getElem?_eq_none hge]
    rfl)
  rw [exceeds, List.getElem?_eq_getElem hlt, Option.all_some, decide_eq_true_iff] at h
  have := List.pairwise_iff_getElem.mp hl k i (by omega) hlt (by omega)
  omega

/-! ## The search -/

/-- Halves a stretch of a list until one position is left. -/
def bisect (l : List α) (a : α) (base size : Nat) : Nat :=
  if size ≤ 1 then base
  else if exceeds l a (base + size / 2) then bisect l a base (size - size / 2)
  else bisect l a (base + size / 2) (size - size / 2)
termination_by size

/-- **No half is dropped that could hold the value.** -/
theorem bisect_parts (hl : l.Pairwise (rank · < rank ·)) (base size : Nat)
    (h : Parts l a base (base + size)) :
    Parts l a (bisect l a base size) (bisect l a base size + 1) := by
  fun_induction bisect l a base size with
  | case1 base size hsize => exact h.mono (by omega)
  | case2 base size hsize hmid ih =>
      exact ih ((Parts.mk h.below (above_of_exceeds hl hmid)).mono (by omega))
  | case3 base size hsize hmid ih =>
      exact ih ((Parts.mk (below_of_not_exceeds hl hmid) h.above).mono (by omega))

/-- The position of a value, or else the position where it belongs. -/
def binarySearch (l : List α) (a : α) : Except Nat Nat :=
  let i := bisect l a 0 l.length
  match l[i]? with
  | none => .error i
  | some b =>
    if rank b = rank a then .ok i else if rank b < rank a then .error (i + 1) else .error i

/-- **The search finds the value, or where it belongs.** -/
theorem binarySearch_spec (hl : l.Pairwise (rank · < rank ·)) (a : α) :
    (∃ i, binarySearch l a = .ok i ∧ l[i]? = some a) ∨
      ∃ i, binarySearch l a = .error i ∧ Parts l a i i := by
  have hparts : Parts l a (bisect l a 0 l.length) (bisect l a 0 l.length + 1) :=
    bisect_parts hl 0 l.length ⟨by simp, by simp⟩
  rw [binarySearch]
  generalize bisect l a 0 l.length = i at hparts
  cases hi : l[i]? with
  | none =>
      refine .inr ⟨i, rfl, hparts.below, ?_⟩
      rw [List.drop_eq_nil_of_le (List.getElem?_eq_none_iff.mp hi)]
      exact fun b hb => absurd hb List.not_mem_nil
  | some b =>
      obtain ⟨hlt, rfl⟩ := List.getElem?_eq_some_iff.mp hi
      dsimp only
      split
      case isTrue heq => exact .inl ⟨i, rfl, by rw [hi, rank_inj heq]⟩
      split
      case isTrue hless =>
        refine .inr ⟨i + 1, rfl, fun b hb => ?_, hparts.above⟩
        rw [List.take_succ_eq_append_getElem hlt] at hb
        obtain hb | hb := List.mem_append.mp hb
        · exact hparts.below b hb
        · exact List.mem_singleton.mp hb ▸ hless
      case isFalse heq hless =>
        refine .inr ⟨i, rfl, hparts.below, fun b hb => ?_⟩
        rw [List.drop_eq_getElem_cons hlt] at hb
        obtain rfl | hb := List.mem_cons.mp hb
        · omega
        · exact hparts.above b hb

theorem isOk_binarySearch_iff (hl : l.Pairwise (rank · < rank ·)) :
    (binarySearch l a).isOk = true ↔ a ∈ l := by
  obtain ⟨i, hi, ha⟩ | ⟨i, hi, hparts⟩ := binarySearch_spec hl a
  · exact iff_of_true (by rw [hi]; rfl) (List.mem_of_getElem? ha)
  · exact iff_of_false (by rw [hi]; exact Bool.false_ne_true) hparts.not_mem

end

end Automata
