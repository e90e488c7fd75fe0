import Mathlib.Algebra.Ring.Nat

/-!
# Word — counting on 64 bits

Sizes and positions are counted on words.  Where the result of an operation has no room in a word, a
debug build stops and a release build goes on with the low bits of it.  A result that has room is
the same number in either build (`Build.add?_eq`, `Build.sub?_eq`, `Build.mul?_eq`), so what is
proved of numbers without a limit holds of words as long as all results have room.
-/

namespace Automata

/-- A number of 64 bits. -/
abbrev Word := BitVec 64

/-- One below a word, and zero below zero. -/
def Word.pred (n : Word) : Word := if n = 0 then 0 else n - 1

theorem Word.toNat_pred (n : Word) : n.pred.toNat = n.toNat - 1 := by
  rw [pred]
  split <;> bv_omega

/-- How the program was built, and so what becomes of a result without room. -/
inductive Build where
  | debug
  | release
deriving DecidableEq

namespace Build

variable {b : Build} {x y : Word}

/-- The result of an operation that may have overflowed: a debug build stops if it did. -/
def result? (b : Build) (overflow : Bool) (r : Word) : Option Word :=
  if b = debug ∧ overflow = true then none else some r

def add? (b : Build) (x y : Word) : Option Word := b.result? (x.uaddOverflow y) (x + y)

def sub? (b : Build) (x y : Word) : Option Word := b.result? (x.usubOverflow y) (x - y)

def mul? (b : Build) (x y : Word) : Option Word := b.result? (x.umulOverflow y) (x * y)

@[simp] theorem result?_false (b : Build) (r : Word) : b.result? false r = some r := by
  simp [result?]

@[simp] theorem result?_release (o : Bool) (r : Word) : release.result? o r = some r := by
  simp [result?]

theorem result?_debug_true (r : Word) : debug.result? true r = none := rfl

theorem add?_eq (h : x.toNat + y.toNat < 2 ^ 64) : b.add? x y = some (x + y) := by
  rw [add?, BitVec.uaddOverflow, decide_eq_false (Nat.not_le.mpr h), result?_false]

theorem sub?_eq (h : y.toNat ≤ x.toNat) : b.sub? x y = some (x - y) := by
  rw [sub?, BitVec.usubOverflow, decide_eq_false (Nat.not_lt.mpr h), result?_false]

theorem mul?_eq (h : x.toNat * y.toNat < 2 ^ 64) : b.mul? x y = some (x * y) := by
  rw [mul?, BitVec.umulOverflow, decide_eq_false (Nat.not_le.mpr h), result?_false]

/-- A debug build stops at a product without room. -/
theorem mul?_debug_eq_none (h : 2 ^ 64 ≤ x.toNat * y.toNat) : debug.mul? x y = none := by
  rw [mul?, BitVec.umulOverflow, decide_eq_true h, result?_debug_true]

end Build

end Automata
