import Automata.Text.Utf8
import Mathlib.Tactic.SplitIfs

/-!
# Proofs/Binary/Utf8 — characters and texts read back from their bytes

The bytes of a character are read to it wherever they stand (`decodeFrom_encodeChar`), so the bytes
of a text are read to it (`decode_encode`), and the first byte of a character tells how many there
are (`width?_encodeChar`).
-/

namespace Automata.Text.Utf8

theorem toNat_ofNat {n : Nat} (h : n < 0x100) : (UInt8.ofNat n).toNat = n :=
  UInt8.toNat_ofNat_of_lt' h

/-- The code points of characters, which leave out the surrogates. -/
theorem isScalar (c : Char) : c.toNat < 0xd800 ∨ 0xdfff < c.toNat ∧ c.toNat < 0x110000 := c.valid

/-! ## One byte -/

section

variable {start n w taken low high value v : Nat} {bs : List UInt8}

/-- A byte that is a whole character. -/
theorem decodeFrom_whole (h : n < 0x80) : decodeFrom start none (.ofNat n :: bs) =
    (decodeFrom (start + 1) none bs).map (Char.ofNat n :: ·) := by
  rw [decodeFrom, toNat_ofNat (by omega), lead, width?, if_pos h]
  rfl

/-- A byte that begins a character. -/
theorem decodeFrom_lead (hn : n < 0x100) (hw : width? n = some (w + 2))
    (hv : (if w + 2 = 2 then n - 0xc0 else if w + 2 = 3 then n - 0xe0 else n - 0xf0) = v) :
    decodeFrom start none (.ofNat n :: bs) =
      decodeFrom start (some ⟨1, w + 1, (secondRange n).1, (secondRange n).2, v⟩) bs := by
  rw [decodeFrom, toNat_ofNat hn, lead, hw, ← hv]
  rfl

/-- A byte that goes on with a character. -/
theorem decodeFrom_more (hn : n < 0x100) (hlow : low ≤ n) (hhigh : n ≤ high)
    (hv : 64 * value + (n - 0x80) = v) :
    decodeFrom start (some ⟨taken, w + 2, low, high, value⟩) (.ofNat n :: bs) =
      decodeFrom start (some ⟨taken + 1, w + 1, 0x80, 0xbf, v⟩) bs := by
  rw [decodeFrom, toNat_ofNat hn]
  simp [hlow, hhigh, hv]

/-- The byte that ends a character. -/
theorem decodeFrom_last (hn : n < 0x100) (hlow : low ≤ n) (hhigh : n ≤ high)
    (hv : 64 * value + (n - 0x80) = v) :
    decodeFrom start (some ⟨taken, 1, low, high, value⟩) (.ofNat n :: bs) =
      (decodeFrom (start + taken + 1) none bs).map (Char.ofNat v :: ·) := by
  rw [decodeFrom, toNat_ofNat hn]
  simp [hlow, hhigh, hv]

end

/-! ## One character -/

theorem width?_eq_two {b : Nat} (h : 0xc2 ≤ b) (h' : b < 0xe0) : width? b = some 2 := by
  rw [width?, if_neg (by omega), if_pos (by simp [h, h'])]

theorem width?_eq_three {b : Nat} (h : 0xe0 ≤ b) (h' : b < 0xf0) : width? b = some 3 := by
  rw [width?, if_neg (by omega), if_neg (by simp; omega), if_pos (by simp [h, h'])]

theorem width?_eq_four {b : Nat} (h : 0xf0 ≤ b) (h' : b < 0xf5) : width? b = some 4 := by
  rw [width?, if_neg (by omega), if_neg (by simp; omega), if_neg (by simp; omega),
    if_pos (by simp [h, h'])]

/-- The second byte of a character of three bytes is in the range that the first one leaves. -/
theorem secondRange_three {n : Nat} (h : 0x800 ≤ n) (hn : n < 0xd800 ∨ 0xdfff < n)
    (h' : n < 0x10000) :
    (secondRange (0xe0 + n / 4096)).1 ≤ 0x80 + n / 64 % 64 ∧
      0x80 + n / 64 % 64 ≤ (secondRange (0xe0 + n / 4096)).2 := by
  unfold secondRange
  split_ifs <;> dsimp only <;> omega

/-- The second byte of a character of four bytes is in the range that the first one leaves. -/
theorem secondRange_four {n : Nat} (h : 0x10000 ≤ n) (h' : n < 0x110000) :
    (secondRange (0xf0 + n / 262144)).1 ≤ 0x80 + n / 4096 % 64 ∧
      0x80 + n / 4096 % 64 ≤ (secondRange (0xf0 + n / 262144)).2 := by
  unfold secondRange
  split_ifs <;> dsimp only <;> omega

/-- **The bytes of a character are read to it.** -/
theorem decodeFrom_encodeChar (start : Nat) (c : Char) (bs : List UInt8) :
    decodeFrom start none (encodeChar c ++ bs) =
      (decodeFrom (start + (encodeChar c).length) none bs).map (c :: ·) := by
  have hscalar := isScalar c
  have hc : Char.ofNat c.toNat = c := Char.ofNat_toNat c
  rw [encodeChar]
  generalize c.toNat = n at hscalar hc
  simp only [apply_ite List.length, List.length_cons, List.length_nil]
  split
  case isTrue h => rw [List.singleton_append, decodeFrom_whole h, hc]
  case isFalse h₁ =>
  split
  case isTrue h =>
    have hsecond : secondRange (0xc0 + n / 64) = (0x80, 0xbf) := by
      unfold secondRange
      split_ifs <;> first | omega | rfl
    simp only [List.cons_append, List.nil_append]
    rw [decodeFrom_lead (v := n / 64) (by omega) (width?_eq_two (by omega) (by omega))
        (by rw [if_pos rfl]; omega), hsecond,
      decodeFrom_last (v := n) (by omega) (by omega) (by omega) (by omega), hc]
  case isFalse h₂ =>
  split
  case isTrue h =>
    obtain ⟨hlow, hhigh⟩ := secondRange_three (by omega) (by omega) h
    simp only [List.cons_append, List.nil_append]
    rw [decodeFrom_lead (v := n / 4096) (by omega) (width?_eq_three (by omega) (by omega))
        (by rw [if_neg (by decide), if_pos rfl]; omega),
      decodeFrom_more (v := n / 64) (by omega) hlow hhigh (by omega),
      decodeFrom_last (v := n) (by omega) (by omega) (by omega) (by omega), hc]
  case isFalse h₃ =>
    obtain ⟨hlow, hhigh⟩ := secondRange_four (n := n) (by omega) (by omega)
    simp only [List.cons_append, List.nil_append]
    rw [decodeFrom_lead (v := n / 262144) (by omega) (width?_eq_four (by omega) (by omega))
        (by rw [if_neg (by decide), if_neg (by decide)]; omega),
      decodeFrom_more (v := n / 4096) (by omega) hlow hhigh (by omega),
      decodeFrom_more (v := n / 64) (by omega) (by omega) (by omega) (by omega),
      decodeFrom_last (v := n) (by omega) (by omega) (by omega) (by omega), hc]

/-- **The bytes of a text are read to it.** -/
theorem decode_encode (cs : List Char) : decode (encode cs) = .ok cs := by
  have key : ∀ (cs : List Char) (start : Nat), decodeFrom start none (encode cs) = .ok cs := by
    intro cs
    induction cs with
    | nil => exact fun _ => by rw [encode, List.flatMap_nil, decodeFrom]
    | cons c cs ih =>
        intro start
        rw [encode, List.flatMap_cons, decodeFrom_encodeChar, ← encode, ih]
        rfl
  exact key cs 0

/-- **The first byte of a character tells how many there are.** -/
theorem exists_encodeChar_eq_cons (c : Char) : ∃ b bs, encodeChar c = b :: bs ∧
    width? b.toNat = some (bs.length + 1) := by
  have hscalar := isScalar c
  rw [encodeChar]
  generalize c.toNat = n at hscalar
  split
  case isTrue h => exact ⟨_, _, rfl, by rw [toNat_ofNat (by omega), width?, if_pos h]; rfl⟩
  case isFalse h₁ =>
  split
  case isTrue h =>
    exact ⟨_, _, rfl, by rw [toNat_ofNat (by omega), width?_eq_two (by omega) (by omega)]; rfl⟩
  case isFalse h₂ =>
  split
  case isTrue h =>
    exact ⟨_, _, rfl, by rw [toNat_ofNat (by omega), width?_eq_three (by omega) (by omega)]; rfl⟩
  case isFalse h₃ =>
    exact ⟨_, _, rfl, by rw [toNat_ofNat (by omega), width?_eq_four (by omega) (by omega)]; rfl⟩

end Automata.Text.Utf8
