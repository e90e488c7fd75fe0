/-!
# Sorted/Set — finite sets kept as strictly ascending lists

A set of symbols and a set of states are both held as the one list of their members in ascending
order, so equality of sets is equality of lists (`SortedSet.ext_mem`) and every walk over a set
visits its members in the same order.  `mem_insert`, `mem_insertAll`, `mem_ofList` and
`mem_filter` say what each operation does to membership; nothing else about the lists is needed.
-/

namespace Automata

/-- A type whose values are told apart, and ordered, by a number. -/
class Ranked (α : Type) where
  /-- The number a value is ordered by. -/
  rank : α → Nat
  rank_inj : ∀ {a b : α}, rank a = rank b → a = b

open Ranked (rank rank_inj)

instance : Ranked Nat := ⟨id, id⟩

/-- Characters are ordered by code point. -/
instance : Ranked Char := ⟨Char.toNat, Char.toNat_inj.mp⟩

@[simp] theorem rank_nat (n : Nat) : rank n = n := rfl

@[simp] theorem rank_char (c : Char) : rank c = c.toNat := rfl

/-- **A strictly ascending list is determined by its members.** -/
theorem eq_of_ascending {β : Type} {key : β → Nat} {l m : List β}
    (hl : l.Pairwise (key · < key ·)) (hm : m.Pairwise (key · < key ·))
    (h : ∀ a, a ∈ l ↔ a ∈ m) : l = m := by
  have nodup : ∀ {l : List β}, l.Pairwise (key · < key ·) → l.Nodup := fun hl =>
    hl.imp fun h e => by subst e; exact Nat.lt_irrefl _ h
  exact ((List.perm_ext_iff_of_nodup (nodup hl) (nodup hm)).mpr h).eq_of_pairwise
    (fun _ _ _ _ hab hba => absurd (Nat.lt_trans hab hba) (Nat.lt_irrefl _)) hl hm

variable {α : Type} [Ranked α]

/-- Adds `a` to an ascending list, which stays as it is when `a` is on it already. -/
def insertAscending (a : α) : List α → List α
  | [] => [a]
  | b :: l =>
    if rank a < rank b then a :: b :: l
    else if rank a = rank b then b :: l
    else b :: insertAscending a l

theorem mem_insertAscending {a b : α} :
    ∀ {l : List α}, b ∈ insertAscending a l ↔ b = a ∨ b ∈ l
  | [] => by simp [insertAscending]
  | c :: l => by
      rw [insertAscending]
      split
      · simp
      · split
        · rename_i h
          obtain rfl := rank_inj h
          simp
        · simp only [List.mem_cons, mem_insertAscending (l := l)]
          exact ⟨fun h => h.elim (fun h => .inr (.inl h)) (·.elim .inl fun h => .inr (.inr h)),
            fun h => h.elim (fun h => .inr (.inl h)) (·.elim .inl fun h => .inr (.inr h))⟩

theorem pairwise_insertAscending (a : α) : ∀ {l : List α},
    l.Pairwise (rank · < rank ·) → (insertAscending a l).Pairwise (rank · < rank ·)
  | [], _ => by simp [insertAscending]
  | b :: l, h => by
      obtain ⟨hb, hl⟩ := List.pairwise_cons.mp h
      rw [insertAscending]
      split
      · rename_i hab
        refine List.pairwise_cons.mpr ⟨fun c hc => ?_, h⟩
        rcases List.mem_cons.mp hc with rfl | hc
        · exact hab
        · exact Nat.lt_trans hab (hb c hc)
      · split
        · exact h
        · refine List.pairwise_cons.mpr ⟨fun c hc => ?_, pairwise_insertAscending a hl⟩
          rcases mem_insertAscending.mp hc with rfl | hc
          · omega
          · exact hb c hc

/-- A finite set, as the strictly ascending list of its members. -/
structure SortedSet (α : Type) [Ranked α] where
  toList : List α
  ascending : toList.Pairwise (rank · < rank ·)
deriving DecidableEq

namespace SortedSet

instance : Membership α (SortedSet α) := ⟨fun s a => a ∈ s.toList⟩

@[simp] theorem mem_toList {s : SortedSet α} {a : α} : a ∈ s.toList ↔ a ∈ s := Iff.rfl

instance [DecidableEq α] (s : SortedSet α) (a : α) : Decidable (a ∈ s) :=
  inferInstanceAs (Decidable (a ∈ s.toList))

instance : EmptyCollection (SortedSet α) := ⟨⟨[], List.Pairwise.nil⟩⟩

instance : Inhabited (SortedSet α) := ⟨∅⟩

@[simp] theorem not_mem_empty (a : α) : a ∉ (∅ : SortedSet α) := List.not_mem_nil

/-- The number of members. -/
def size (s : SortedSet α) : Nat := s.toList.length

/-- Whether there is no member. -/
def isEmpty (s : SortedSet α) : Bool := s.toList.isEmpty

/-- Adds one member. -/
def insert (s : SortedSet α) (a : α) : SortedSet α :=
  ⟨insertAscending a s.toList, pairwise_insertAscending a s.ascending⟩

/-- Adds every value on a list. -/
def insertAll (s : SortedSet α) (l : List α) : SortedSet α := l.foldl insert s

/-- The set of the values on a list. -/
def ofList (l : List α) : SortedSet α := insertAll ∅ l

/-- The members that pass a test. -/
def filter (p : α → Bool) (s : SortedSet α) : SortedSet α :=
  ⟨s.toList.filter p, s.ascending.filter p⟩

@[simp] theorem mem_insert {s : SortedSet α} {a b : α} : b ∈ s.insert a ↔ b = a ∨ b ∈ s :=
  mem_insertAscending

@[simp] theorem mem_insertAll {b : α} : ∀ {l : List α} {s : SortedSet α},
    b ∈ s.insertAll l ↔ b ∈ s ∨ b ∈ l
  | [], s => by simp [insertAll]
  | a :: l, s => by
      have ih : b ∈ (s.insert a).insertAll l ↔ b ∈ s.insert a ∨ b ∈ l := mem_insertAll
      rw [insertAll, List.foldl_cons, ← insertAll, ih, mem_insert, List.mem_cons]
      exact ⟨fun h => h.elim (·.elim (fun h => .inr (.inl h)) .inl) fun h => .inr (.inr h),
        fun h => h.elim (fun h => .inl (.inr h)) (·.elim (fun h => .inl (.inl h)) .inr)⟩

@[simp] theorem mem_ofList {l : List α} {b : α} : b ∈ ofList l ↔ b ∈ l := by simp [ofList]

@[simp] theorem mem_filter {p : α → Bool} {s : SortedSet α} {b : α} :
    b ∈ s.filter p ↔ b ∈ s ∧ p b = true :=
  List.mem_filter

theorem nodup (s : SortedSet α) : s.toList.Nodup :=
  s.ascending.imp fun h e => by subst e; exact absurd h (Nat.lt_irrefl _)

/-- **Sets with the same members are equal.** -/
theorem ext_mem {s t : SortedSet α} (h : ∀ a, a ∈ s ↔ a ∈ t) : s = t := by
  obtain ⟨l, hl⟩ := s
  obtain ⟨m, hm⟩ := t
  obtain rfl := eq_of_ascending hl hm h
  rfl

/-- Adding what is there changes nothing. -/
theorem insert_of_mem {s : SortedSet α} {a : α} (h : a ∈ s) : s.insert a = s :=
  ext_mem fun _ => mem_insert.trans (or_iff_right_of_imp fun hb => hb ▸ h)

/-- The numbers below `n`. -/
def range (n : Nat) : SortedSet Nat := ⟨List.range n, List.pairwise_lt_range⟩

@[simp] theorem mem_range {n i : Nat} : i ∈ range n ↔ i < n := List.mem_range

end SortedSet

end Automata
