import Automata.Alphabet
import Mathlib.Data.Char
import Mathlib.Data.List.Shortlex
import Mathlib.Data.Prod.Lex

/-!
# Proofs/Shortlex — words by length, and words of one length by code points

Adding a symbol at the end of each of two words keeps their order (`Precedes.concat`), which is all
that the order of a breadth-first search rests on.  Of the words with a property there is a first
one (`exists_leastWord`), and only one (`LeastWord.unique`).
-/

namespace Automata

variable {u v w : List Symbol} {a b : Symbol} {P : List Symbol → Prop}

/-- **A word is shorter than another, or as long and before it in the alphabet.** -/
def Precedes (u v : List Symbol) : Prop := List.Shortlex (· < ·) u v

namespace Precedes

/-- Words are ordered as their lengths and symbols are. -/
theorem iff_toLex_lt : Precedes u v ↔ toLex (u.length, u) < toLex (v.length, v) := Iff.rfl

theorem irrefl (u : List Symbol) : ¬ Precedes u u := fun h => lt_irrefl _ (iff_toLex_lt.mp h)

theorem trans (huv : Precedes u v) (hvw : Precedes v w) : Precedes u w :=
  iff_toLex_lt.mpr (lt_trans (iff_toLex_lt.mp huv) (iff_toLex_lt.mp hvw))

theorem asymm (huv : Precedes u v) (hvu : Precedes v u) : False := irrefl u (huv.trans hvu)

/-- One of two different words precedes the other. -/
theorem trichotomy (u v : List Symbol) : Precedes u v ∨ u = v ∨ Precedes v u :=
  (lt_trichotomy (toLex (u.length, u)) (toLex (v.length, v))).imp_right <|
    Or.imp_left fun h => (Prod.mk.inj h).2

theorem of_length_lt (h : u.length < v.length) : Precedes u v := List.Shortlex.of_length_lt h

/-- A word precedes what continues it. -/
theorem append_self (u : List Symbol) (hv : v ≠ []) : Precedes u (u ++ v) :=
  of_length_lt (by
    rw [List.length_append]
    exact Nat.lt_add_of_pos_right (List.length_pos_iff.mpr hv))

theorem append_right (h : Precedes u v) (w : List Symbol) : Precedes u (v ++ w) :=
  List.Shortlex.append_right w h

/-- What decides between words of one length comes before their ends. -/
private theorem lex_append (huv : List.Lex (· < ·) u v) (h : u.length = v.length)
    (s t : List Symbol) : List.Lex (· < ·) (u ++ s) (v ++ t) := by
  induction huv with
  | nil => exact absurd h (by simp)
  | cons _ ih => exact .cons (ih (Nat.succ.inj h))
  | rel hab => exact .rel hab

/-- **Adding one symbol to each keeps the order.** -/
theorem concat (h : Precedes u v) (a b : Symbol) : Precedes (u ++ [a]) (v ++ [b]) := by
  obtain hlt | ⟨heq, hlex⟩ := List.shortlex_def.mp h
  · exact of_length_lt (by simpa using hlt)
  · exact List.Shortlex.of_lex (by simp [heq]) (lex_append hlex heq [a] [b])

/-- Words that differ in the last symbol are ordered as it is. -/
theorem concat_of_lt (u : List Symbol) (h : a < b) : Precedes (u ++ [a]) (u ++ [b]) :=
  List.Shortlex.append_left ((List.shortlex_singleton_iff a b).mpr h) u

end Precedes

/-! ## First words -/

/-- **The first word with a property.** -/
structure LeastWord (P : List Symbol → Prop) (w : List Symbol) : Prop where
  holds : P w
  least : ∀ v, P v → ¬ Precedes v w

theorem LeastWord.congr {Q : List Symbol → Prop} (h : LeastWord P w) (hPQ : ∀ v, P v ↔ Q v) :
    LeastWord Q w :=
  ⟨(hPQ w).mp h.holds, fun v hv => h.least v ((hPQ v).mpr hv)⟩

theorem wellFounded_precedes : WellFounded Precedes :=
  List.Shortlex.wf (InvImage.wf Char.toNat Nat.lt_wfRel.wf)

theorem exists_leastWord (hw : P w) : ∃ v, LeastWord P v := by
  obtain ⟨v, hv, hleast⟩ := wellFounded_precedes.has_min {v | P v} ⟨w, hw⟩
  exact ⟨v, hv, hleast⟩

theorem LeastWord.unique (hu : LeastWord P u) (hv : LeastWord P v) : u = v := by
  obtain h | h | h := Precedes.trichotomy u v
  · exact absurd h (hv.least u hu.holds)
  · exact h
  · exact absurd h (hu.least v hv.holds)

end Automata
