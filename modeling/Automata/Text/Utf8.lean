/-!
# Text/Utf8 — characters as bytes

`decode` reads bytes one at a time, between characters or inside one (`Pending`), and refuses the
first character that is cut short, overlong, a surrogate or above U+10FFFF.  The failure says how
many bytes of whole characters came before it, and how many bytes of it could have begun a
character, unless the bytes end inside it.
-/

namespace Automata.Text.Utf8

/-- The bytes of a character. -/
def encodeChar (c : Char) : List UInt8 :=
  let n := c.toNat
  if n < 0x80 then [.ofNat n]
  else if n < 0x800 then [.ofNat (0xc0 + n / 64), .ofNat (0x80 + n % 64)]
  else if n < 0x10000 then
    [.ofNat (0xe0 + n / 4096), .ofNat (0x80 + n / 64 % 64), .ofNat (0x80 + n % 64)]
  else
    [.ofNat (0xf0 + n / 262144), .ofNat (0x80 + n / 4096 % 64), .ofNat (0x80 + n / 64 % 64),
      .ofNat (0x80 + n % 64)]

/-- The bytes of a text. -/
def encode (cs : List Char) : List UInt8 := cs.flatMap encodeChar

/-- A character of which some bytes were read. -/
structure Pending where
  /-- How many bytes were read. -/
  taken : Nat
  /-- How many bytes are to come. -/
  left : Nat
  /-- The least value of the next byte. -/
  low : Nat
  /-- The greatest value of the next byte. -/
  high : Nat
  /-- The bits read so far, as a number. -/
  value : Nat

/-- The number of bytes of a character, by the first of them. -/
def width? (b : Nat) : Option Nat :=
  if b < 0x80 then some 1
  else if 0xc2 ≤ b && b < 0xe0 then some 2
  else if 0xe0 ≤ b && b < 0xf0 then some 3
  else if 0xf0 ≤ b && b < 0xf5 then some 4
  else none

/-- The range of the second byte of a character, by the first: the overlong forms, the surrogates
and what lies above U+10FFFF are left out. -/
def secondRange (b : Nat) : Nat × Nat :=
  if b = 0xe0 then (0xa0, 0xbf)
  else if b = 0xed then (0x80, 0x9f)
  else if b = 0xf0 then (0x90, 0xbf)
  else if b = 0xf4 then (0x80, 0x8f)
  else (0x80, 0xbf)

/-- The character that a first byte begins, and that one with more bytes to come. -/
def lead (b : Nat) : Option (Char ⊕ Pending) :=
  match width? b with
  | none => none
  | some 1 => some (.inl (Char.ofNat b))
  | some w =>
    let r := secondRange b
    some (.inr ⟨1, w - 1, r.1, r.2, if w = 2 then b - 0xc0 else if w = 3 then b - 0xe0 else b - 0xf0⟩)

/-- Reads the bytes of a text.  `start` counts the bytes of the whole characters before. -/
def decodeFrom : Nat → Option Pending → List UInt8 → Except (Nat × Option Nat) (List Char)
  | _, none, [] => .ok []
  | start, some _, [] => .error (start, none)
  | start, none, b :: bs =>
    match lead b.toNat with
    | none => .error (start, some 1)
    | some (.inl c) => (decodeFrom (start + 1) none bs).map (c :: ·)
    | some (.inr p) => decodeFrom start (some p) bs
  | start, some p, b :: bs =>
    if p.low ≤ b.toNat && b.toNat ≤ p.high then
      let value := 64 * p.value + (b.toNat - 0x80)
      if p.left ≤ 1 then
        (decodeFrom (start + p.taken + 1) none bs).map (Char.ofNat value :: ·)
      else decodeFrom start (some ⟨p.taken + 1, p.left - 1, 0x80, 0xbf, value⟩) bs
    else .error (start, some p.taken)

/-- The text that bytes stand for. -/
def decode (bs : List UInt8) : Except (Nat × Option Nat) (List Char) := decodeFrom 0 none bs

end Automata.Text.Utf8
