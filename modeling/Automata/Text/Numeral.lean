/-!
# Text/Numeral — counts in decimal

A count is a number below `2 ^ 64` in decimal digits, after at most one plus sign.  It is written
with neither sign nor leading zeros, and `read?_write` says that it then reads back.
-/

namespace Automata.Text.Numeral

/-- Counts are 64-bit numbers. -/
def limit : Nat := 0x10000000000000000

/-- A count in decimal. -/
def write (n : Nat) : String := n.repr

/-- The digits of a numeral, behind its sign if it has one. -/
def unsigned : List Char → List Char
  | '+' :: ds => ds
  | ds => ds

/-- The count a token stands for. -/
def read? (token : String) : Option Nat :=
  let ds := unsigned token.toList
  if ds.isEmpty || !ds.all Char.isDigit then none
  else
    let n := Nat.ofDigitChars 10 ds 0
    if n < limit then some n else none

/-- **A written count reads back.** -/
theorem read?_write {n : Nat} (h : n < limit) : read? (write n) = some n := by
  have hd : ∀ c ∈ n.repr.toList, c.isDigit = true := fun c hc => by
    rw [Nat.toList_repr] at hc
    exact Nat.isDigit_of_mem_toDigits (by decide) (by decide) hc
  have hu : unsigned n.repr.toList = n.repr.toList := by
    unfold unsigned
    split
    · rename_i ds e
      exact absurd (hd '+' (e ▸ List.mem_cons_self)) (by decide)
    · rfl
  have hne : n.repr.toList ≠ [] := by rw [Nat.toList_repr]; exact Nat.toDigits_ne_nil
  have hv : Nat.ofDigitChars 10 n.repr.toList 0 = n := by
    rw [Nat.toList_repr, Nat.ofDigitChars_toDigits (by decide) (by decide)]
  have hall : n.repr.toList.all Char.isDigit = true := List.all_eq_true.mpr hd
  rw [read?, write]
  simp only [hu, hv, hall, h, List.isEmpty_eq_false_iff.mpr hne]
  rfl

end Automata.Text.Numeral
