import Automata.Proofs.Indexed.Marking
import Automata.Word

/-!
# Proofs/Indexed/Pairs — a table of marks remembers which pairs were marked, and nothing else

Pairs are marked in turn, the two states of a pair in either order, and each time the table tells
whether the pair is new (`PairTable.addAll`).  No mark is that of another pair
(`PairTable.isMarked_addAll_iff`), and so a pair is new the first time only
(`PairTable.getElem?_addAll_iff`).

In memory the places are words.  Up to `2 ^ 32` states every place is a number that has room in one
and that the table has (`MarkTable.exists_place?_eq`, `MarkTable.mark?_stored`), so the table there
is that of the pairs: `MarkTable.addAll?_remembers`.  With one state more the number of places has no
room (`MarkTable.new?_of_lt`).  How much memory there is for a table is not asked.
-/

namespace Automata

namespace PairTable

variable {n p q i : Nat} {t : PairTable n} {l : List (Nat × Nat)}

/-! ## Pairs marked in turn -/

/-- Marks one more pair; the answers so far stand before the table. -/
def addNext (s : List Bool × PairTable n) (r : Nat × Nat) : List Bool × PairTable n :=
  (s.1 ++ [(s.2.add r.1 r.2).1], (s.2.add r.1 r.2).2)

/-- Marks some pairs in turn, and tells of each whether it is new. -/
def addAll (t : PairTable n) (l : List (Nat × Nat)) : List Bool × PairTable n :=
  l.foldl addNext ([], t)

/-! ## What the table remembers -/

theorem addAll_concat (t : PairTable n) (l : List (Nat × Nat)) (r : Nat × Nat) :
    t.addAll (l ++ [r]) = ((t.addAll l).1 ++ [!(t.addAll l).2.isMarked r.1 r.2],
      (t.addAll l).2.mark r.1 r.2) := by
  rw [addAll, List.foldl_concat]
  rfl

@[simp] theorem length_addAll (t : PairTable n) (l : List (Nat × Nat)) :
    (t.addAll l).1.length = l.length := by
  induction l using List.reverseRecOn with
  | nil => rfl
  | append_singleton l r ih => simp [addAll_concat, ih]

/-- **The pairs marked are those that were given**, in one order or the other. -/
theorem isMarked_addAll_iff (h : ∀ r ∈ l, r.1 ≠ r.2 ∧ r.1 < n ∧ r.2 < n) :
    ((empty n).addAll l).2.isMarked p q = true ↔ (p, q) ∈ l ∨ (q, p) ∈ l := by
  induction l using List.reverseRecOn with
  | nil => exact iff_of_false (by rw [addAll]; simp) (by simp)
  | append_singleton l r ih =>
      obtain ⟨hl, hr⟩ := List.forall_mem_append.mp h
      obtain ⟨hne, hp, hq⟩ := hr r (List.mem_singleton_self r)
      rw [addAll_concat, isMarked_mark_iff_of_ne hne hp hq, ih hl]
      simp only [List.mem_append, List.mem_singleton, Prod.ext_iff]
      grind

/-- **A pair is new unless it was given before**, in one order or the other. -/
theorem getElem?_addAll_iff (h : ∀ r ∈ l, r.1 ≠ r.2 ∧ r.1 < n ∧ r.2 < n)
    (hi : l[i]? = some (p, q)) :
    ((empty n).addAll l).1[i]? = some true ↔ (p, q) ∉ l.take i ∧ (q, p) ∉ l.take i := by
  induction l using List.reverseRecOn with
  | nil => exact absurd hi (by simp)
  | append_singleton l r ih =>
      obtain ⟨hl, -⟩ := List.forall_mem_append.mp h
      have hlength := length_addAll (empty n) l
      have hlast : i < l.length + 1 := by simpa using (List.getElem?_eq_some_iff.mp hi).1
      rw [addAll_concat]
      obtain hlt | rfl := Nat.lt_succ_iff_lt_or_eq.mp hlast
      · rw [List.getElem?_append_left (hlength ▸ hlt), List.take_append_of_le_length hlt.le]
        rw [List.getElem?_append_left hlt] at hi
        exact ih hl hi
      · -- the last pair is compared with all that are marked by then
        obtain rfl : r = (p, q) := by simpa using hi
        rw [← hlength, List.getElem?_concat_length, hlength, List.take_left, ← not_or,
          ← isMarked_addAll_iff hl]
        simp

end PairTable

/-! ## The table in memory -/

/-- A table of marks as it is kept in memory — the number of states, and a mark for each place. -/
structure MarkTable where
  size : Word
  marks : Array Bool
deriving DecidableEq

/-- A pair of words as a pair of numbers. -/
def Word.toNats (r : Word × Word) : Nat × Nat := (r.1.toNat, r.2.toNat)

theorem Word.toNats_injective : Function.Injective Word.toNats := fun _ _ h =>
  Prod.ext (BitVec.eq_of_toNat_eq (congrArg Prod.fst h))
    (BitVec.eq_of_toNat_eq (congrArg Prod.snd h))

theorem Word.mem_map_toNats {p q : Word} {l : List (Word × Word)} :
    (p.toNat, q.toNat) ∈ l.map toNats ↔ (p, q) ∈ l :=
  List.mem_map_of_injective (a := (p, q)) toNats_injective

namespace MarkTable

/-- A table without marks, with a place for each pair of states below a size. -/
def new? (b : Build) (n : Word) : Option MarkTable := do
  let k ← b.mul? n n.pred
  return ⟨n, Array.replicate (k / 2).toNat false⟩

/-- The place of a pair of states, the lower one given first. -/
def orderedPlace? (b : Build) (low high : Word) : Option Word := do
  let k ← b.mul? high (← b.sub? high 1)
  b.add? (k / 2) low

/-- The place of the pair of two states. -/
def place? (b : Build) (p q : Word) : Option Word :=
  if p < q then orderedPlace? b p q else orderedPlace? b q p

/-- Whether the pair of two states is marked, its place looked up unless they are the same state. -/
def isMarked? (t : MarkTable) (b : Build) (p q : Word) : Option Bool :=
  if p = q then some false
  else do
    let i ← place? b p q
    t.marks[i.toNat]?

/-- Marks the pair of two states and tells whether it is new.  A debug build asserts that the states
differ. -/
def mark? (t : MarkTable) (b : Build) (p q : Word) : Option (Bool × MarkTable) :=
  if b = .debug ∧ p = q then none
  else do
    let i ← place? b p q
    let old ← t.marks[i.toNat]?
    return (!old, { t with marks := t.marks.setIfInBounds i.toNat true })

/-- Marks one more pair; the answers so far stand before the table. -/
def addNext? (b : Build) (s : List Bool × MarkTable) (r : Word × Word) :
    Option (List Bool × MarkTable) := do
  let a ← s.2.mark? b r.1 r.2
  return (s.1 ++ [a.1], a.2)

/-- Marks some pairs in turn in a new table, and tells of each whether it is new. -/
def addAll? (b : Build) (n : Word) (l : List (Word × Word)) :
    Option (List Bool × MarkTable) := do
  let t ← new? b n
  l.foldlM (addNext? b) ([], t)

/-- The pairs `(p, q)` of words with `p < q < n`, by `q` and then by `p`. -/
def wordPairs (n : Word) : List (Word × Word) :=
  (pairs n.toNat).map fun r => (BitVec.ofNat 64 r.1, BitVec.ofNat 64 r.2)

/-- The marked pairs, each mark looked up. -/
def markedPairs? (t : MarkTable) (b : Build) : Option (List (Word × Word)) :=
  (wordPairs t.size).filterMapM fun r => do
    return if ← t.isMarked? b r.1 r.2 then some r else none

end MarkTable

/-- A set of pairs of states below a word, in memory. -/
def PairTable.stored {n : Word} (t : PairTable n.toNat) : MarkTable := ⟨n, t.marks.toArray⟩

namespace MarkTable

variable {b : Build} {n p q : Word} {t : PairTable n.toNat} {l : List (Word × Word)}

/-! ## All results have room -/

/-- **A number has room for the pairs of `2 ^ 32` states**, counted twice. -/
theorem mul_sub_one_lt {n : Nat} (h : n ≤ 2 ^ 32) : n * (n - 1) < 2 ^ 64 :=
  calc n * (n - 1) ≤ 2 ^ 32 * (2 ^ 32 - 1) := Nat.mul_le_mul h (Nat.sub_le_sub_right h 1)
    _ < 2 ^ 64 := by decide

theorem numPairs_lt {n : Nat} (h : n ≤ 2 ^ 32) : numPairs n < 2 ^ 63 :=
  Nat.div_lt_of_lt_mul (mul_sub_one_lt h)

/-- **There is a place for each pair.** -/
theorem new?_eq (hn : n.toNat ≤ 2 ^ 32) : new? b n = some (PairTable.empty n.toNat).stored := by
  have hroom : n.toNat * n.pred.toNat < 2 ^ 64 := n.toNat_pred ▸ mul_sub_one_lt hn
  have hplaces : (n * n.pred / 2).toNat = numPairs n.toNat := by
    rw [BitVec.toNat_udiv, BitVec.toNat_mul_of_lt hroom, n.toNat_pred]
    rfl
  rw [new?, Build.mul?_eq hroom, Option.bind_eq_bind, Option.bind_some, hplaces]
  rfl

/-- **The place of a pair has room in a word.** -/
theorem exists_orderedPlace?_eq (hq : q.toNat ≤ 2 ^ 32) (h : p < q) :
    ∃ i, orderedPlace? b p q = some i ∧ i.toNat = pairIndex p.toNat q.toNat := by
  rw [BitVec.lt_def] at h
  have hone : (1 : Word).toNat ≤ q.toNat := Nat.one_le_of_lt h
  have hpred : (q - 1).toNat = q.toNat - 1 := BitVec.toNat_sub_of_le hone
  have hroom : q.toNat * (q - 1).toNat < 2 ^ 64 := hpred ▸ mul_sub_one_lt hq
  have hhalf : (q * (q - 1) / 2).toNat = numPairs q.toNat := by
    rw [BitVec.toNat_udiv, BitVec.toNat_mul_of_lt hroom, hpred]
    rfl
  have hsum : (q * (q - 1) / 2).toNat + p.toNat < 2 ^ 64 := by
    have := numPairs_lt hq
    omega
  refine ⟨q * (q - 1) / 2 + p, ?_, ?_⟩
  · rw [orderedPlace?, Build.sub?_eq hone, Option.bind_eq_bind, Option.bind_some,
      Build.mul?_eq hroom]
    exact Build.add?_eq hsum
  · rw [BitVec.toNat_add_of_lt hsum, hhalf, pairIndex, Nat.max_eq_right h.le,
      Nat.min_eq_left h.le]

theorem exists_place?_eq (hn : n.toNat ≤ 2 ^ 32) (hne : p ≠ q) (hp : p < n) (hq : q < n) :
    ∃ i, place? b p q = some i ∧ i.toNat = pairIndex p.toNat q.toNat := by
  rw [place?]
  split
  case isTrue h => exact exists_orderedPlace?_eq (Nat.le_trans (Nat.le_of_lt hq) hn) h
  case isFalse h =>
    rw [pairIndex_comm]
    exact exists_orderedPlace?_eq (Nat.le_trans (Nat.le_of_lt hp) hn) (by bv_omega)

/-! ## The table in memory is that of the pairs -/

theorem isMarked?_stored (hn : n.toNat ≤ 2 ^ 32) (hp : p < n) (hq : q < n) :
    t.stored.isMarked? b p q = some (t.isMarked p.toNat q.toNat) := by
  rw [← PairTable.isMarked?_eq hp hq, isMarked?, PairTable.isMarked?]
  by_cases hpq : p = q
  · rw [if_pos hpq, if_pos (congrArg BitVec.toNat hpq)]
  · obtain ⟨i, hi, hplace⟩ := exists_place?_eq (b := b) hn hpq hp hq
    rw [if_neg hpq, if_neg (mt BitVec.toNat_inj.mp hpq), hi, ← hplace]
    exact Vector.getElem?_toArray

/-- **Marking a pair in memory marks that pair.** -/
theorem mark?_stored (hn : n.toNat ≤ 2 ^ 32) (hne : p ≠ q) (hp : p < n) (hq : q < n) :
    t.stored.mark? b p q =
      some ((t.add p.toNat q.toNat).1, (t.add p.toNat q.toNat).2.stored) := by
  obtain ⟨i, hi, hplace⟩ := exists_place?_eq (b := b) hn hne hp hq
  have hold : t.stored.marks[i.toNat]? = some (t.isMarked p.toNat q.toNat) := by
    rw [← isMarked?_stored (b := b) hn hp hq, isMarked?, if_neg hne, hi]
    rfl
  rw [mark?, if_neg fun h => hne h.2, hi, Option.bind_eq_bind, Option.bind_some, hold, hplace]
  rfl

/-- **Pairs marked in turn in memory are marked in turn**, with the same answers. -/
theorem addAll?_eq (hn : n.toNat ≤ 2 ^ 32) (h : ∀ r ∈ l, r.1 ≠ r.2 ∧ r.1 < n ∧ r.2 < n) :
    addAll? b n l =
      some (((PairTable.empty n.toNat).addAll (l.map Word.toNats)).map id PairTable.stored) := by
  have hnext : ∀ s : List Bool × PairTable n.toNat, ∀ r ∈ l,
      addNext? b (s.map id PairTable.stored) r =
        some ((PairTable.addNext s (Word.toNats r)).map id PairTable.stored) := fun s r hr => by
    obtain ⟨hne, hp, hq⟩ := h r hr
    rw [addNext?, Prod.map_snd, mark?_stored hn hne hp hq]
    rfl
  rw [addAll?, new?_eq hn, PairTable.addAll, List.foldl_map]
  exact foldlM_map_eq_some hnext ([], PairTable.empty n.toNat)

theorem map_toNats_wordPairs (n : Word) : (wordPairs n).map Word.toNats = pairs n.toNat := by
  rw [wordPairs, List.map_map]
  refine (List.map_congr_left fun r hr => ?_).trans (List.map_id _)
  obtain ⟨hlt, hq⟩ := mem_pairs.mp hr
  have hlimit := n.isLt
  refine Prod.ext ?_ ?_
  · exact Nat.mod_eq_of_lt (by omega)
  · exact Nat.mod_eq_of_lt (by omega)

/-- **The marks are listed without a look-up that fails.** -/
theorem exists_markedPairs?_eq (hn : n.toNat ≤ 2 ^ 32) (t : PairTable n.toNat) :
    ∃ m, t.stored.markedPairs? b = some m ∧ m.map Word.toNats = t.markedPairs := by
  have hlookup : ∀ r ∈ wordPairs n,
      (do return if ← t.stored.isMarked? b r.1 r.2 then some r else none) =
        some (if t.isMarked r.1.toNat r.2.toNat then some r else none) := fun r hr => by
    have hr' := map_toNats_wordPairs n ▸ List.mem_map_of_mem (f := Word.toNats) hr
    obtain ⟨hlt, hq⟩ := mem_pairs.mp hr'
    rw [isMarked?_stored hn (Nat.lt_trans hlt hq) hq]
    rfl
  refine ⟨_, filterMapM_eq_some hlookup, ?_⟩
  rw [PairTable.markedPairs, ← map_toNats_wordPairs, List.filter_map]
  refine congrArg _ ?_
  rw [← List.filterMap_eq_filter]
  rfl

/-- **Whatever pairs are marked, a table of up to `2 ^ 32` states remembers them and no others.**  No
result lacks room and no place is outside the table, in a debug build and in a release build; a pair
is new the first time it is marked and never again, whatever the order of its states; and the marked
pairs are listed once each, the lower state first, by the higher state and then by the lower. -/
theorem addAll?_remembers (b : Build) (hn : n.toNat ≤ 2 ^ 32)
    (h : ∀ r ∈ l, r.1 ≠ r.2 ∧ r.1 < n ∧ r.2 < n) :
    ∃ (answers : List Bool) (t : MarkTable), addAll? b n l = some (answers, t) ∧
      answers.length = l.length ∧
      (∀ i p q, l[i]? = some (p, q) →
        (answers[i]? = some true ↔ (p, q) ∉ l.take i ∧ (q, p) ∉ l.take i)) ∧
      (∀ p q, p < n → q < n →
        t.isMarked? b p q = some (decide (p ≠ q ∧ ((p, q) ∈ l ∨ (q, p) ∈ l)))) ∧
      ∃ m, t.markedPairs? b = some m ∧
        (∀ p q, (p, q) ∈ m ↔ p < q ∧ ((p, q) ∈ l ∨ (q, p) ∈ l)) ∧ m.Nodup ∧
        m.Pairwise fun r s => r.2 < s.2 ∨ r.2 = s.2 ∧ r.1 < s.1 := by
  have hl : ∀ r ∈ l.map Word.toNats, r.1 ≠ r.2 ∧ r.1 < n.toNat ∧ r.2 < n.toNat :=
    List.forall_mem_map.mpr fun r hr =>
      ⟨mt BitVec.toNat_inj.mp (h r hr).1, (h r hr).2.1, (h r hr).2.2⟩
  obtain ⟨u, hu⟩ : ∃ u, u = (PairTable.empty n.toNat).addAll (l.map Word.toNats) := ⟨_, rfl⟩
  have hmarked : ∀ p q : Word, u.2.isMarked p.toNat q.toNat = true ↔ (p, q) ∈ l ∨ (q, p) ∈ l :=
    fun p q => by
      rw [hu, PairTable.isMarked_addAll_iff hl, Word.mem_map_toNats, Word.mem_map_toNats]
  obtain ⟨m, hm, hlist⟩ := exists_markedPairs?_eq (b := b) hn u.2
  have hpairwise := u.2.pairwise_markedPairs
  rw [← hlist, List.pairwise_map] at hpairwise
  refine ⟨u.1, u.2.stored, hu ▸ addAll?_eq hn h, ?length, fun i p q hi => ?answer,
    fun p q hp hq => ?isMarked, m, hm, fun p q => ?mem, ?once, ?order⟩
  case length => rw [hu, PairTable.length_addAll, List.length_map]
  case answer =>
    have hi' : (l.map Word.toNats)[i]? = some (p.toNat, q.toNat) := by
      rw [List.getElem?_map, hi]
      rfl
    rw [hu, PairTable.getElem?_addAll_iff hl hi', ← List.map_take, Word.mem_map_toNats,
      Word.mem_map_toNats]
  case isMarked =>
    rw [isMarked?_stored hn hp hq]
    refine congrArg some (Bool.eq_iff_iff.mpr ?_)
    rw [decide_eq_true_iff, hmarked]
    refine ⟨fun hpq => ⟨?_, hpq⟩, And.right⟩
    exact fun heq => PairTable.ne_of_isMarked ((hmarked p q).mpr hpq) (congrArg _ heq)
  case mem =>
    rw [← Word.mem_map_toNats, hlist, PairTable.mem_markedPairs, hmarked, BitVec.lt_def]
    refine and_congr_right fun _ => ⟨And.right, fun hpq => ⟨?_, hpq⟩⟩
    exact hpq.elim (fun hr => (h _ hr).2.2) fun hr => (h _ hr).2.1
  case once =>
    refine hpairwise.imp fun {r s} hrs heq => ?_
    subst heq
    omega
  case order =>
    refine hpairwise.imp fun {r s} hrs => hrs.imp_right fun hrs => ⟨?_, hrs.2⟩
    exact BitVec.eq_of_toNat_eq hrs.1

/-- The second mark is that of the first pair, and the third comes with its states turned round. -/
theorem addAll?_remembers_turned : ∃ t : MarkTable,
    addAll? .debug 4 [(1, 2), (2, 1), (3, 0)] = some ([true, false, true], t) ∧
      t.isMarked? .debug 1 2 = some true ∧ t.isMarked? .debug 3 3 = some false ∧
      ∃ m, t.markedPairs? .debug = some m ∧ (0, 3) ∈ m ∧ (3, 0) ∉ m := by
  obtain ⟨answers, t, hall, -, -, hlookup, m, hm, hmem, -⟩ :=
    addAll?_remembers (n := 4) (l := [(1, 2), (2, 1), (3, 0)]) .debug (by decide) (by simp)
  have hanswers : (addAll? .debug 4 [(1, 2), (2, 1), (3, 0)]).map Prod.fst =
      some [true, false, true] := by decide
  rw [hall] at hanswers
  obtain rfl : answers = [true, false, true] := Option.some.inj hanswers
  refine ⟨t, hall, ?_, ?_, m, hm, (hmem 0 3).mpr (by decide), mt (hmem 3 0).mp (by decide)⟩
  · exact (hlookup 1 2 (by decide) (by decide)).trans (congrArg some (by decide))
  · exact (hlookup 3 3 (by decide) (by decide)).trans (congrArg some (by decide))

/-! ## Beyond `2 ^ 32` states -/

/-- A pair whose place is outside the table is not marked. -/
theorem mark?_eq_none {t : MarkTable} {i : Word} (hi : place? b p q = some i)
    (h : t.marks.size ≤ i.toNat) : t.mark? b p q = none := by
  rw [mark?]
  split
  · rfl
  · rw [hi, Option.bind_eq_bind, Option.bind_some, Array.getElem?_eq_none h]
    rfl

/-- **The places of more than `2 ^ 32` states lack room** — a debug build makes no table for them, and
a release build one with fewer places than there are pairs. -/
theorem new?_of_lt (hn : 2 ^ 32 < n.toNat) : new? .debug n = none ∧
    ∃ t, new? .release n = some t ∧ t.size = n ∧ t.marks.size < numPairs n.toNat := by
  have hover : 2 ^ 64 ≤ n.toNat * (n.toNat - 1) :=
    calc 2 ^ 64 ≤ (2 ^ 32 + 1) * (2 ^ 32 + 1 - 1) := by decide
      _ ≤ n.toNat * (n.toNat - 1) := Nat.mul_le_mul hn (Nat.sub_le_sub_right hn 1)
  constructor
  · rw [new?, Build.mul?_debug_eq_none (n.toNat_pred ▸ hover)]
    rfl
  · refine ⟨⟨n, Array.replicate (n * n.pred / 2).toNat false⟩, ?_, rfl, ?_⟩
    · rw [new?, Build.mul?, Build.result?_release]
      rfl
    · have htwo : (2 : Word).toNat = 2 := rfl
      rw [Array.size_replicate, BitVec.toNat_udiv, BitVec.toNat_mul, n.toNat_pred, htwo, numPairs]
      omega

/-- With `2 ^ 32 + 1` states a debug build makes no table.  A release build makes one with `2 ^ 31`
places, and the place of the first state and the last is far outside. -/
theorem addAll?_outside :
    ((0 : Word) ≠ 0x100000000 ∧ (0 : Word) < 0x100000001 ∧ (0x100000000 : Word) < 0x100000001) ∧
    addAll? .debug 0x100000001 [(0, 0x100000000)] = none ∧
    addAll? .release 0x100000001 [(0, 0x100000000)] = none ∧
    place? .release 0 0x100000000 = some 0x7fffffff80000000 ∧
    ∃ t, new? .release 0x100000001 = some t ∧ t.marks.size = 0x80000000 := by
  have hnew : new? .release 0x100000001 =
      some ⟨0x100000001, Array.replicate 0x80000000 false⟩ := by
    have hmul : Build.mul? .release 0x100000001 (Word.pred 0x100000001) = some 0x100000000 := by
      decide
    rw [new?, hmul]
    rfl
  have hplace : place? .release 0 0x100000000 = some 0x7fffffff80000000 := by decide
  refine ⟨by decide, ?_, ?_, hplace, _, hnew, Array.size_replicate⟩
  · rw [addAll?, (new?_of_lt (n := 0x100000001) (by decide)).1]
    rfl
  · rw [addAll?, hnew, Option.bind_eq_bind, Option.bind_some, List.foldlM_cons, addNext?,
      mark?_eq_none hplace (by rw [Array.size_replicate]; decide)]
    rfl

end MarkTable

end Automata
