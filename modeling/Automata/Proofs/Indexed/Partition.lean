import Automata.Proofs.Indexed.Marking
import Automata.Proofs.Minimize.Classes

/-!
# Proofs/Indexed/Partition — classes are found in a list of class numbers

Each state without a class number opens a class and gives its number to the later states it is not
marked with that have none.  After the states below `k` those have a number whose class has a least
member below `k` (`Dfa.Opened`), and as least members ascend with the class, the number given is the
number of the class (`Dfa.Opened.step`).  So in the end every state has a number
(`Dfa.partition?_eq`), and every class a member (`Dfa.members?_eq`).
-/

namespace Automata

/-! ## Lists changed in place -/

/-- Other numbers are below the next number if they are below a number. -/
theorem lt_succ_iff_of_ne {m k : Nat} (h : m ≠ k) : m < k + 1 ↔ m < k := by omega

section

variable {α : Type} {n b i : Nat} {f g : Nat → α}

/-- Puts a value at a place of a list, if the list has it. -/
def put? (l : List α) (i : Nat) (x : α) : Option (List α) :=
  if i < l.length then some (l.set i x) else none

/-- **Putting a value at a place changes one entry.** -/
theorem put?_map_range {x : α} (hb : b < n) (hself : g b = x) (hne : ∀ i, i ≠ b → g i = f i) :
    put? ((List.range n).map f) b x = some ((List.range n).map g) := by
  rw [put?, if_pos (by simpa using hb)]
  refine congrArg some (List.ext_getElem (by simp) fun i hi _ => ?_)
  rw [List.getElem_set, List.getElem_map, List.getElem_map, List.getElem_range]
  split
  · rename_i hbi
    rw [← hbi, hself]
  · rename_i hbi
    exact (hne i (Ne.symm hbi)).symm

/-- One function below a bound, another from there on. -/
def patched (f g : Nat → α) (b i : Nat) : α := if i < b then f i else g i

/-- The bound may be moved past a place where the functions agree. -/
theorem map_patched_succ (h : f b = g b) :
    (List.range n).map (patched f g b) = (List.range n).map (patched f g (b + 1)) := by
  refine List.map_congr_left fun i _ => ?_
  by_cases hi : i = b
  · rw [hi, patched, if_neg (Nat.lt_irrefl b), patched, if_pos (Nat.lt_succ_self b), h]
  · rw [patched, patched]
    exact if_congr (lt_succ_iff_of_ne hi).symm rfl rfl

/-- It is moved past any other by putting the value of the first function there. -/
theorem put?_patched (hb : b < n) :
    put? ((List.range n).map (patched f g b)) b (f b) =
      some ((List.range n).map (patched f g (b + 1))) := by
  refine put?_map_range hb (if_pos (Nat.lt_succ_self b)) fun i hi => ?_
  rw [patched, patched]
  exact if_congr (lt_succ_iff_of_ne hi) rfl rfl

/-- **A walk that moves the bound by one at each place** ends with the first function everywhere. -/
theorem foldlM_patched {step : List α → Nat → Option (List α)} (hb : b ≤ n)
    (hstep : ∀ i, b ≤ i → i < n → step ((List.range n).map (patched f g i)) i =
      some ((List.range n).map (patched f g (i + 1)))) :
    (List.range' b (n - b)).foldlM step ((List.range n).map (patched f g b)) =
      some ((List.range n).map f) := by
  obtain ⟨m, rfl⟩ := Nat.exists_eq_add_of_le hb
  rw [Nat.add_sub_cancel_left]
  clear hb
  induction m generalizing b with
  | zero =>
      refine congrArg some (List.map_congr_left fun i hi => ?_)
      exact if_pos (List.mem_range.mp hi)
  | succ m ih =>
      rw [List.range'_succ, List.foldlM_cons, hstep b (Nat.le_refl b) (by omega)]
      have hsum : b + (m + 1) = b + 1 + m := by omega
      rw [hsum] at hstep ⊢
      exact ih fun i hi => hstep i (by omega)

end

/-! ## Class numbers -/

/-- The class numbers given so far, and how many classes there are. -/
structure Assignment where
  classOf : List (Option StateId)
  count : Nat

namespace PairTable

variable {n : Nat} (t : PairTable n)

/-- Gives a class number to a state that has none and is not marked with the state that opened the
class. -/
def gather? (p k : Nat) (xs : List (Option StateId)) (q : StateId) :
    Option (List (Option StateId)) := do
  if (← xs[q]?).isSome then
    return xs
  else if ← t.isMarked? p q then
    return xs
  else
    put? xs q (some k)

/-- Opens a class with a state, unless the state has a class number. -/
def open? (e : Assignment) (p : StateId) : Option Assignment := do
  if (← e.classOf[p]?).isSome then
    return e
  else
    let xs ← put? e.classOf p (some e.count)
    let xs ← (List.range' (p + 1) (n - (p + 1))).foldlM (t.gather? p e.count) xs
    return ⟨xs, e.count + 1⟩

/-- The class number of each state.  There is no result if a state is left without one. -/
def partition? : Option (List StateId) := do
  let e ← (List.range n).foldlM t.open? ⟨List.replicate n none, 0⟩
  e.classOf.mapM id

end PairTable

namespace Dfa

variable {d : Dfa} {k p q : StateId} {e : Assignment}

/-- The class number a state has once the states below `k` had their turn. -/
def numberAt (d : Dfa) (k q : StateId) : Option StateId :=
  if d.leastOf (d.classOf q) < k then some (d.classOf q) else none

/-- **Once the states below `k` had their turn**, the classes with a least member below `k` are
open, and they are the first ones. -/
structure Opened (d : Dfa) (k : Nat) (e : Assignment) : Prop where
  classOf : e.classOf = (List.range d.numStates).map (d.numberAt k)
  count : ∀ i < d.stateClasses.length, d.leastOf i < k ↔ i < e.count

theorem Opened.start (d : Dfa) : d.Opened 0 ⟨List.replicate d.numStates none, 0⟩ where
  classOf := by
    have hnone : d.numberAt 0 = fun _ => none := funext fun q => if_neg (Nat.not_lt_zero _)
    rw [hnone, List.map_const', List.length_range]
  count i _ := by simp

/-- A state changes its number in the turn of the least member of its class. -/
theorem numberAt_succ_of_ne (h : d.leastOf (d.classOf q) ≠ k) :
    d.numberAt (k + 1) q = d.numberAt k q := by
  rw [numberAt, numberAt]
  exact if_congr (lt_succ_iff_of_ne h) rfl rfl

/-- The least member of a class is below all others. -/
theorem leastOf_classOf_eq (h : d.WellFormed) (hp : p < d.numStates)
    (hq : d.leastOf (d.classOf p) = q) : d.classOf q = d.classOf p :=
  hq ▸ classOf_leastOf h (classOf_lt hp)

/-- **A mark is missing within a class, and nowhere else.** -/
theorem isMarked_eq_false_iff (h : d.WellFormed) (ht : d.isTotal = true) (hp : p < d.numStates)
    (hq : q < d.numStates) :
    d.distinguish.table.isMarked p q = false ↔ d.classOf p = d.classOf q := by
  rw [classOf_eq_iff h ht hp hq, ← isMarked_distinguish_iff h hp hq, Bool.not_eq_true]

/-- A state that has a number opens no class. -/
theorem Opened.skip (h : d.WellFormed) (ho : d.Opened k e)
    (hlt : d.leastOf (d.classOf k) < k) : d.Opened (k + 1) e := by
  have hne : ∀ i < d.stateClasses.length, d.leastOf i ≠ k := fun i hi hik => by
    have hclass : d.classOf k = i := hik ▸ classOf_leastOf h hi
    rw [hclass, hik] at hlt
    exact Nat.lt_irrefl k hlt
  refine ⟨?_, fun i hi => ?_⟩
  · rw [ho.classOf]
    refine List.map_congr_left fun q hq => (numberAt_succ_of_ne ?_).symm
    exact hne _ (classOf_lt (List.mem_range.mp hq))
  · rw [← ho.count i hi]
    exact lt_succ_iff_of_ne (hne i hi)

/-- The class a least member opens gets its own number. -/
theorem Opened.count_eq (ho : d.Opened k e) (hk : k < d.numStates)
    (hleast : d.leastOf (d.classOf k) = k) : e.count = d.classOf k := by
  have hclass : d.classOf k < d.stateClasses.length := classOf_lt hk
  obtain hlt | heq | hlt := Nat.lt_trichotomy e.count (d.classOf k)
  · -- the next class to be opened has a smaller least member
    have hleast' := leastOf_lt_leastOf hlt hclass
    rw [hleast] at hleast'
    exact absurd ((ho.count e.count (Nat.lt_trans hlt hclass)).mp hleast') (Nat.lt_irrefl _)
  · exact heq
  · have := (ho.count (d.classOf k) hclass).mpr hlt
    rw [hleast] at this
    exact absurd this (Nat.lt_irrefl k)

/-- **A state numbers the later states of the class it opens**, and no others. -/
theorem gather?_eq (h : d.WellFormed) (ht : d.isTotal = true)
    (hleast : d.leastOf (d.classOf k) = k) (hk : k < q) (hq : q < d.numStates) :
    d.distinguish.table.gather? k (d.classOf k)
        ((List.range d.numStates).map (patched (d.numberAt (k + 1)) (d.numberAt k) q)) q =
      some ((List.range d.numStates).map
        (patched (d.numberAt (k + 1)) (d.numberAt k) (q + 1))) := by
  have hentry : ((List.range d.numStates).map
      (patched (d.numberAt (k + 1)) (d.numberAt k) q))[q]? = some (d.numberAt k q) := by
    rw [getElem?_map_range _ hq]
    exact congrArg some (if_neg (Nat.lt_irrefl q))
  rw [PairTable.gather?, hentry, PairTable.isMarked?_eq (Nat.lt_trans hk hq) hq]
  simp only [Option.bind_eq_bind, Option.bind_some]
  by_cases hlt : d.leastOf (d.classOf q) < k
  · rw [if_pos (by rw [numberAt, if_pos hlt]; rfl)]
    exact congrArg some (map_patched_succ (numberAt_succ_of_ne (Nat.ne_of_lt hlt)))
  rw [if_neg (by rw [numberAt, if_neg hlt]; exact Bool.false_ne_true)]
  by_cases hmarked : d.distinguish.table.isMarked k q = true
  · have hne : d.leastOf (d.classOf q) ≠ k := fun hqk => by
      rw [(isMarked_eq_false_iff h ht (Nat.lt_trans hk hq) hq).mpr
        (leastOf_classOf_eq h hq hqk)] at hmarked
      exact Bool.false_ne_true hmarked
    rw [if_pos hmarked]
    exact congrArg some (map_patched_succ (numberAt_succ_of_ne hne))
  · have hclass : d.classOf k = d.classOf q :=
      (isMarked_eq_false_iff h ht (Nat.lt_trans hk hq) hq).mp (Bool.eq_false_iff.mpr hmarked)
    have hnumber : d.numberAt (k + 1) q = some (d.classOf k) := by
      rw [numberAt, ← hclass, hleast, if_pos (Nat.lt_succ_self k)]
    rw [if_neg hmarked, ← hnumber]
    exact put?_patched hq

/-- A least member opens its class. -/
theorem Opened.open (h : d.WellFormed) (ht : d.isTotal = true) (ho : d.Opened k e)
    (hk : k < d.numStates) (hleast : d.leastOf (d.classOf k) = k) :
    d.distinguish.table.open? e k = some
      ⟨(List.range d.numStates).map (d.numberAt (k + 1)), d.classOf k + 1⟩ := by
  have hentry : e.classOf[k]? = some none := by
    rw [ho.classOf, getElem?_map_range _ hk, numberAt, hleast, if_neg (Nat.lt_irrefl k)]
  have hbefore : e.classOf =
      (List.range d.numStates).map (patched (d.numberAt (k + 1)) (d.numberAt k) k) := by
    rw [ho.classOf]
    refine List.map_congr_left fun q hq => ?_
    rw [patched]
    split
    · rename_i hqk
      have hle := leastOf_classOf_le (List.mem_range.mp hq)
      exact (numberAt_succ_of_ne (Nat.ne_of_lt (Nat.lt_of_le_of_lt hle hqk))).symm
    · rfl
  have hself : some (d.classOf k) = d.numberAt (k + 1) k := by
    rw [numberAt, hleast, if_pos (Nat.lt_succ_self k)]
  rw [PairTable.open?, hentry, ho.count_eq hk hleast]
  simp only [Option.bind_eq_bind, Option.bind_some, Option.isSome_none, Bool.false_eq_true, if_false]
  rw [hself, hbefore, put?_patched hk, Option.bind_some,
    foldlM_patched hk fun q hkq hq => gather?_eq h ht hleast hkq hq]
  rfl

/-- **A turn opens the class of a least member**, and leaves the others as they are. -/
theorem Opened.step (h : d.WellFormed) (ht : d.isTotal = true) (ho : d.Opened k e)
    (hk : k < d.numStates) :
    ∃ e', d.distinguish.table.open? e k = some e' ∧ d.Opened (k + 1) e' := by
  obtain hlt | hleast := Nat.lt_or_eq_of_le (leastOf_classOf_le hk)
  · refine ⟨e, ?_, ho.skip h hlt⟩
    have hentry : e.classOf[k]? = some (some (d.classOf k)) := by
      rw [ho.classOf, getElem?_map_range _ hk, numberAt, if_pos hlt]
    rw [PairTable.open?, hentry]
    rfl
  · refine ⟨_, ho.open h ht hk hleast, rfl, fun i hi => ?_⟩
    constructor
    · refine fun hle => Nat.lt_succ_of_le (Nat.le_of_not_lt fun hlt => ?_)
      have hgt := leastOf_lt_leastOf hlt hi
      rw [hleast] at hgt
      exact Nat.lt_irrefl _ (Nat.lt_of_lt_of_le hgt (Nat.le_of_lt_succ hle))
    · intro hle
      obtain hlt | rfl := Nat.lt_or_eq_of_le (Nat.le_of_lt_succ hle)
      · have hlt := leastOf_lt_leastOf hlt (classOf_lt hk)
        rw [hleast] at hlt
        exact Nat.lt_succ_of_lt hlt
      · rw [hleast]
        exact Nat.lt_succ_self k

/-- **In the end every state has the number of its class.** -/
theorem partition?_eq (h : d.WellFormed) (ht : d.isTotal = true) :
    d.distinguish.table.partition? = some ((List.range d.numStates).map d.classOf) := by
  have hturns : ∀ k ≤ d.numStates, ∃ e, (List.range k).foldlM d.distinguish.table.open?
      ⟨List.replicate d.numStates none, 0⟩ = some e ∧ d.Opened k e := by
    intro k hk
    induction k with
    | zero => exact ⟨_, rfl, .start d⟩
    | succ k ih =>
        obtain ⟨e, he, ho⟩ := ih (Nat.le_of_succ_le hk)
        obtain ⟨e', he', ho'⟩ := ho.step h ht hk
        refine ⟨e', ?_, ho'⟩
        rw [List.range_succ, List.foldlM_append, he]
        simpa using he'
  obtain ⟨e, he, ho⟩ := hturns d.numStates (Nat.le_refl _)
  have hnumbers : e.classOf = ((List.range d.numStates).map d.classOf).map some := by
    rw [ho.classOf, List.map_map]
    refine List.map_congr_left fun q hq => if_pos ?_
    have hq := List.mem_range.mp hq
    exact Nat.lt_of_le_of_lt (leastOf_classOf_le hq) hq
  rw [PairTable.partition?, he, Option.bind_eq_bind, Option.bind_some, hnumbers, List.mapM_map]
  exact (mapM_eq_some fun _ _ => rfl).trans (congrArg some (List.map_id _))

end Dfa

end Automata
