import Automata.Proofs.Indexed.Dense
import Automata.Proofs.Minimize.Marking

/-!
# Proofs/Indexed/Marking — pairs are marked at places the table has

The marks of two states stand at the place of their pair, which a table has if the states are
different and below its size.  Where a copy holds a total automaton, every state a symbol leads to
is below that size, so no pass looks up a mark, a move or finality in vain
(`Dense.Holds.distinguish?_eq`).
-/

namespace Automata

variable {n p q : Nat}

namespace PairTable

/-- Whether the pair of two states is marked, its place looked up unless they are the same state. -/
def isMarked? (t : PairTable n) (p q : Nat) : Option Bool :=
  if p = q then some false else t.marks[pairIndex p q]?

/-- Marks the pair of two different states at its place, if the table has it. -/
def mark? (t : PairTable n) (p q : Nat) : Option (PairTable n) :=
  if h : p ≠ q ∧ pairIndex p q < numPairs n then
    some ⟨t.marks.set (pairIndex p q) true h.2⟩
  else none

variable {t : PairTable n}

/-- **The place of a pair of states below the size is looked up with success.** -/
theorem isMarked?_eq (hp : p < n) (hq : q < n) : t.isMarked? p q = some (t.isMarked p q) := by
  rw [isMarked?, isMarked]
  by_cases h : p = q
  · simp [h]
  · simp [h, pairIndex_lt h hp hq]

theorem mark?_eq_of_ne (hne : p ≠ q) (hp : p < n) (hq : q < n) :
    t.mark? p q = some (t.mark p q) := by
  rw [mark?, dif_pos ⟨hne, pairIndex_lt hne hp hq⟩, mark]
  congr 2
  refine Vector.ext fun i hi => ?_
  rw [Vector.getElem_set, Vector.getElem_setIfInBounds]

theorem mark?_eq (h : (p, q) ∈ pairs n) : t.mark? p q = some (t.mark p q) := by
  obtain ⟨hlt, hq⟩ := mem_pairs.mp h
  exact mark?_eq_of_ne (Nat.ne_of_lt hlt) (Nat.lt_trans hlt hq) hq

end PairTable

namespace Dense

variable (c : Dense StateId)

/-- The first marks, finality looked up. -/
def finality? (n : Nat) : Option (PairTable n) :=
  (pairs n).foldlM (fun t r => do
    let f ← c.finals[r.1]?
    let g ← c.finals[r.2]?
    if f != g then t.mark? r.1 r.2 else some t) (PairTable.empty n)

/-- The first symbol that leads two states to a marked pair, moves and marks looked up. -/
def splitter? (t : PairTable n) (p q : StateId) : Option (Option Symbol) := do
  let s ← c.alphabet.toList.zipIdx.findM? fun s => do
    let p' ← c.target? p s.2
    let q' ← c.target? q s.2
    t.isMarked? p' q'
  return s.map Prod.fst

/-- One pass over a list of pairs, marks and moves looked up. -/
def pass? : List (StateId × StateId) → PairTable n → Option (List Marking × PairTable n)
  | [], t => some ([], t)
  | (p, q) :: l, t => do
    if ← t.isMarked? p q then
      pass? l t
    else
      match ← c.splitter? t p q with
      | none => pass? l t
      | some a =>
        let u ← t.mark? p q
        let r ← pass? l u
        return (⟨p, q, a⟩ :: r.1, r.2)

/-- Passes until one marks nothing; there is no result if a look-up fails or the rounds run out. -/
def propagate? : Nat → PairTable n → Option (Propagation n)
  | 0, _ => none
  | k + 1, t => do
    let r ← c.pass? (pairs n) t
    if r.1.isEmpty then
      return ⟨r.2, [], 1⟩
    else
      let u ← propagate? k r.2
      return ⟨u.table, r.1 ++ u.markings, u.passes + 1⟩

/-- The marked pairs of the states below `n`.  A pass that marks something leaves a pair less, so
there is a round for each pair and one more. -/
def distinguish? (n : Nat) : Option (Propagation n) := do
  let t ← c.finality? n
  c.propagate? (numPairs n + 1) t

namespace Holds

variable {c : Dense StateId} {d : Dfa} {t : PairTable d.numStates}

theorem finals_getElem? (hc : c.Holds d) (hp : p < d.numStates) :
    c.finals[p]? = some (d.isFinal p) := by
  rw [hc.finals, Machine.states, getElem?_map_range _ hp]

theorem labels_getElem? (hc : c.Holds d) (hp : p < d.numStates) :
    c.labels[p]? = some (d.label p) := by
  rw [hc.labels]
  exact d.label?_of_lt hp

theorem finality?_eq (hc : c.Holds d) :
    c.finality? d.numStates = some (d.finalityTable d.numStates) := by
  rw [finality?, Dfa.finalityTable, List.foldl_filter]
  refine foldlM_eq_some (fun t r hr => ?_) _
  obtain ⟨hlt, hq⟩ := mem_pairs.mp hr
  rw [hc.finals_getElem? (Nat.lt_trans hlt hq), hc.finals_getElem? hq]
  simp only [Option.bind_eq_bind, Option.bind_some]
  split
  · exact PairTable.mark?_eq hr
  · rfl

/-- **A splitter is looked for among states below the size.** -/
theorem splitter?_eq (hc : c.Holds d) (h : d.WellFormed) (ht : d.isTotal = true)
    (hp : p < d.numStates) (hq : q < d.numStates) :
    c.splitter? t p q = some (d.splitter? t p q) := by
  obtain ⟨g, hsplitter, hg⟩ : ∃ g : Symbol → Bool,
      d.splitter? t p q = d.alphabet.toList.find? g ∧ ∀ a p' q', d.next? p a = some p' →
        d.next? q a = some q' → g a = t.isMarked p' q' :=
    ⟨_, rfl, fun a p' q' hp hq => by simp only [hp, hq]⟩
  have hlookup : ∀ s ∈ d.alphabet.toList.zipIdx, (do
      let p' ← c.target? p s.2
      let q' ← c.target? q s.2
      t.isMarked? p' q') = some ((g ∘ Prod.fst) s) := fun s hs => by
    have ha : d.alphabet.toList[s.2]? = some s.1 := List.mk_mem_zipIdx_iff_getElem?.mp hs
    have hmem : s.1 ∈ d.alphabet := List.mem_of_getElem? ha
    obtain ⟨p', hp'⟩ := Dfa.isTotal_iff.mp ht p hp s.1 hmem
    obtain ⟨q', hq'⟩ := Dfa.isTotal_iff.mp ht q hq s.1 hmem
    rw [hc.target?_eq p hp _ _ ha, hc.target?_eq q hq _ _ ha, Function.comp_apply,
      hg _ _ _ hp' hq', hp', hq']
    exact PairTable.isMarked?_eq (Dfa.next?_lt h hp') (Dfa.next?_lt h hq')
  rw [splitter?, hc.alphabet, findM?_eq_some hlookup, Option.bind_eq_bind, Option.bind_some,
    ← List.find?_map, List.zipIdx_map_fst, hsplitter]
  rfl

theorem pass?_eq (hc : c.Holds d) (h : d.WellFormed) (ht : d.isTotal = true) :
    ∀ {l : List (StateId × StateId)} {t : PairTable d.numStates},
      (∀ r ∈ l, r ∈ pairs d.numStates) → c.pass? l t = some (d.pass l t)
  | [], _, _ => rfl
  | (p, q) :: l, t, hl => by
      obtain ⟨hpq, hl'⟩ := List.forall_mem_cons.mp hl
      obtain ⟨hlt, hq⟩ := mem_pairs.mp hpq
      have hp : p < d.numStates := Nat.lt_trans hlt hq
      rw [pass?, PairTable.isMarked?_eq hp hq, hc.splitter?_eq h ht hp hq, Dfa.pass]
      simp only [Option.bind_eq_bind, Option.bind_some]
      split
      · exact hc.pass?_eq h ht hl'
      · cases d.splitter? t p q with
        | none => exact hc.pass?_eq h ht hl'
        | some a =>
            dsimp only
            rw [PairTable.mark?_eq hpq, Option.bind_some, hc.pass?_eq h ht hl', Option.bind_some]
            rfl

/-- **The passes end before the rounds run out.** -/
theorem propagate?_eq (hc : c.Holds d) (h : d.WellFormed) (ht : d.isTotal = true) :
    ∀ {k : Nat} {t : PairTable d.numStates}, t.unmarked < k →
      c.propagate? k t = some (d.propagate t)
  | 0, _, hk => absurd hk (Nat.not_lt_zero _)
  | k + 1, t, hk => by
      rw [propagate?, hc.pass?_eq h ht fun _ hr => hr, Option.bind_eq_bind, Option.bind_some]
      by_cases hnil : (d.pass (pairs d.numStates) t).1 = []
      · rw [if_pos (List.isEmpty_iff.mpr hnil), Dfa.propagate_of_pass_eq_nil hnil]
        rfl
      · have hlt : (d.pass (pairs d.numStates) t).2.unmarked < k :=
          Nat.lt_of_lt_of_le (d.unmarked_pass_lt hnil) (Nat.le_of_lt_succ hk)
        rw [if_neg (mt List.isEmpty_iff.mp hnil), hc.propagate?_eq h ht hlt,
          Dfa.propagate_of_pass_ne_nil hnil]
        rfl

theorem distinguish?_eq (hc : c.Holds d) (h : d.WellFormed) (ht : d.isTotal = true) :
    c.distinguish? d.numStates = some d.distinguish := by
  rw [distinguish?, hc.finality?_eq, Option.bind_eq_bind, Option.bind_some]
  exact hc.propagate?_eq h ht (Nat.lt_succ_of_le Vector.count_le_size)

end Holds

end Dense

end Automata
