import Automata.Dfa
import Automata.Minimize.PairTable

/-!
# Minimize/Marking — the pairs of states that some word tells apart

A pair is marked at first if just one of its states is final, and then if some symbol leads it to a
marked pair.  Whole passes over all pairs are made until one marks nothing; a pass uses the marks
it has made itself.  `unmarked_pass_lt` is why there is a last pass: one that marks something
leaves fewer pairs unmarked.
-/

namespace Automata

/-- A pair that was marked because a symbol leads it to a marked pair. -/
structure Marking where
  lower : StateId
  upper : StateId
  symbol : Symbol
deriving DecidableEq

namespace Dfa

variable (d : Dfa) {n : Nat}

/-- The pairs of states below `n` of which just one is final. -/
def finalityTable (n : Nat) : PairTable n :=
  ((pairs n).filter fun r => d.isFinal r.1 != d.isFinal r.2).foldl
    (fun t r => t.mark r.1 r.2) (PairTable.empty n)

/-- The first symbol that leads two states to a marked pair. -/
def splitter? (t : PairTable n) (p q : StateId) : Option Symbol :=
  d.alphabet.toList.find? fun a =>
    match d.next? p a, d.next? q a with
    | some p', some q' => t.isMarked p' q'
    | _, _ => false

/-- Visits pairs in turn; those newly marked are listed. -/
def pass : List (StateId × StateId) → PairTable n → List Marking × PairTable n
  | [], t => ([], t)
  | (p, q) :: l, t =>
    if t.isMarked p q then pass l t
    else match d.splitter? t p q with
      | none => pass l t
      | some a =>
        let r := pass l (t.mark p q)
        (⟨p, q, a⟩ :: r.1, r.2)

/-- A pass leaves no more pairs unmarked than it finds, and fewer if it marks any. -/
theorem unmarked_pass : ∀ {l : List (StateId × StateId)} (t : PairTable n),
    (∀ r ∈ l, r ∈ pairs n) → (d.pass l t).2.unmarked ≤ t.unmarked ∧
      ((d.pass l t).1 ≠ [] → (d.pass l t).2.unmarked < t.unmarked)
  | [], t, _ => ⟨Nat.le_refl _, fun h => absurd rfl h⟩
  | (p, q) :: l, t, hl => by
      have hl' : ∀ r ∈ l, r ∈ pairs n := fun r hr => hl r (List.mem_cons_of_mem _ hr)
      rw [pass]
      split
      · exact unmarked_pass t hl'
      · rename_i h
        split
        · exact unmarked_pass t hl'
        · have hlt := PairTable.unmarked_mark_lt (hl (p, q) List.mem_cons_self)
            (Bool.eq_false_iff.mpr h)
          have hle := (unmarked_pass (t.mark p q) hl').1
          exact ⟨Nat.le_of_lt (Nat.lt_of_le_of_lt hle hlt), fun _ => Nat.lt_of_le_of_lt hle hlt⟩

theorem unmarked_pass_lt {t : PairTable n} (h : (d.pass (pairs n) t).1 ≠ []) :
    (d.pass (pairs n) t).2.unmarked < t.unmarked :=
  (d.unmarked_pass t fun _ hr => hr).2 h

end Dfa

/-- What the passes have done. -/
structure Propagation (n : Nat) where
  /-- The marks after the last pass. -/
  table : PairTable n
  /-- The pairs the passes have marked, in the order they were. -/
  markings : List Marking
  /-- The number of passes, with the last one, which marks nothing. -/
  passes : Nat

namespace Dfa

variable (d : Dfa) {n : Nat}

/-- Makes passes until one marks nothing. -/
def propagate (t : PairTable n) : Propagation n :=
  match h : d.pass (pairs n) t with
  | ([], t') => ⟨t', [], 1⟩
  | (k :: ks, t') =>
    have : t'.unmarked < t.unmarked := by
      have hlt := d.unmarked_pass_lt (t := t) (by rw [h]; exact List.cons_ne_nil k ks)
      rwa [h] at hlt
    let r := propagate t'
    ⟨r.table, k :: ks ++ r.markings, r.passes + 1⟩
termination_by t.unmarked

/-- The pairs of states that some word tells apart, and how they were found. -/
def distinguish : Propagation d.numStates := d.propagate (d.finalityTable d.numStates)

end Dfa

end Automata
