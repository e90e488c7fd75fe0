import Automata.Binary.Error
import Automata.Sorted.Map
import Automata.State
import Automata.Text.Utf8

/-!
# Binary/Codec — how values are written to bytes and read back

A codec writes a value and reads one from the front of a list of bytes, leaving the rest.  An
integer takes one byte up to 250 and is otherwise a byte that announces its width and two, four or
eight bytes, the lowest first; the shortest form is written, and any is read.  A text is its length
and its bytes, a symbol its bytes alone, and a list, set or map its length and then its members.

`Codec.Reads` is the law that what is written reads back in front of any bytes.
-/

namespace Automata

/-- A way of writing a type to bytes. -/
structure Codec (α : Type) where
  encode : α → List UInt8
  decode : List UInt8 → Except DecodeError (α × List UInt8)

namespace Codec

/-- **What is written reads back**, whatever follows it. -/
def Reads {α : Type} (c : Codec α) (x : α) : Prop :=
  ∀ rest, c.decode (c.encode x ++ rest) = .ok (x, rest)

/-! ## Integers -/

/-- The first bytes, as many as are asked for at once. -/
def take : Nat → List UInt8 → Except DecodeError (List UInt8 × List UInt8)
  | 0, bs => .ok ([], bs)
  | n + 1, [] => .error (.unexpectedEnd (n + 1))
  | n + 1, b :: bs => (take n bs).map fun r => (b :: r.1, r.2)

/-- The lowest bytes of a number, the lowest first. -/
def littleEndian : Nat → Nat → List UInt8
  | 0, _ => []
  | k + 1, n => .ofNat (n % 256) :: littleEndian k (n / 256)

/-- The number whose bytes these are, the lowest first. -/
def ofLittleEndian : List UInt8 → Nat
  | [] => 0
  | b :: bs => b.toNat + 256 * ofLittleEndian bs

/-- Reads an integer of so many bytes. -/
def decodeFixed (k : Nat) (bs : List UInt8) : Except DecodeError (Nat × List UInt8) :=
  (take k bs).map fun r => (ofLittleEndian r.1, r.2)

/-- An integer in its shortest form. -/
def encodeInt (n : Nat) : List UInt8 :=
  if n ≤ 250 then [.ofNat n]
  else if n < 0x10000 then 251 :: littleEndian 2 n
  else if n < 0x100000000 then 252 :: littleEndian 4 n
  else 253 :: littleEndian 8 n

/-- The width that a report of a misannounced integer names, given the bytes behind the
announcement: that of the integer expected, but the short one where the bytes of a whole long
integer are there. -/
def reportedWidth (w : IntWidth) (bs : List UInt8) : IntWidth :=
  if 8 ≤ bs.length then .u32 else w

/-- Reads an integer that fits a width. -/
def decodeInt (w : IntWidth) : List UInt8 → Except DecodeError (Nat × List UInt8)
  | [] => .error (.unexpectedEnd 1)
  | b :: bs =>
    if b.toNat ≤ 250 then .ok (b.toNat, bs)
    else if b = 251 then decodeFixed 2 bs
    else if b = 252 then decodeFixed 4 bs
    else if b = 253 then
      match w with
      | .u32 => .error (.wrongInteger w .u64)
      | .u64 => decodeFixed 8 bs
    else if b = 254 then .error (.wrongInteger (reportedWidth w bs) .u128)
    else .error (.wrongInteger (reportedWidth w bs) .reserved)

/-- A state is a 32-bit integer. -/
def stateId : Codec StateId where
  encode := encodeInt
  decode := decodeInt .u32

/-- A length is a 64-bit integer. -/
def length : Codec Nat where
  encode := encodeInt
  decode := decodeInt .u64

/-! ## Texts and symbols -/

/-- A text is the length of its bytes, and its bytes. -/
def text : Codec String where
  encode s :=
    let bs := Text.Utf8.encode s.toList
    length.encode bs.length ++ bs
  decode bs := do
    let (n, bs) ← length.decode bs
    let (bytes, bs) ← take n bs
    match Text.Utf8.decode bytes with
    | .ok cs => .ok (String.ofList cs, bs)
    | .error (n, l) => .error (.invalidText n l)

/-- The four bytes a failed symbol is reported with, zero where nothing was read. -/
def symbolBuffer (bs : List UInt8) : List UInt8 := (bs ++ List.replicate 4 0).take 4

/-- A symbol is its bytes; the first tells how many there are. -/
def symbol : Codec Char where
  encode := Text.Utf8.encodeChar
  decode
    | [] => .error (.unexpectedEnd 1)
    | b :: bs =>
      match Text.Utf8.width? b.toNat with
      | none => .error (.invalidSymbol (symbolBuffer [b]))
      | some w => do
        let (more, bs) ← take (w - 1) bs
        match Text.Utf8.decode (b :: more) with
        | .ok [c] => .ok (c, bs)
        | _ => .error (.invalidSymbol (symbolBuffer (b :: more)))

/-! ## Compound values -/

variable {α β : Type}

/-- One value, then the other. -/
def pair (c : Codec α) (d : Codec β) : Codec (α × β) where
  encode x := c.encode x.1 ++ d.encode x.2
  decode bs := do
    let (x, bs) ← c.decode bs
    let (y, bs) ← d.decode bs
    .ok ((x, y), bs)

/-- A value written as another. -/
def via (c : Codec α) (f : α → β) (g : β → α) : Codec β where
  encode y := c.encode (g y)
  decode bs := (c.decode bs).map fun r => (f r.1, r.2)

/-- Reads so many values. -/
def decodeMany (c : Codec α) : Nat → List UInt8 → Except DecodeError (List α × List UInt8)
  | 0, bs => .ok ([], bs)
  | n + 1, bs => do
    let (x, bs) ← c.decode bs
    let (xs, bs) ← decodeMany c n bs
    .ok (x :: xs, bs)

/-- A list is its length and its members. -/
def list (c : Codec α) : Codec (List α) where
  encode l := length.encode l.length ++ l.flatMap c.encode
  decode bs := do
    let (n, bs) ← length.decode bs
    decodeMany c n bs

/-- A set is a list of its members, in any order and with any repetitions; it is written
ascending. -/
def set [Ranked α] (c : Codec α) : Codec (SortedSet α) :=
  (list c).via SortedSet.ofList SortedSet.toList

/-- A map is a list of its entries, in any order, of which the last with a key counts; it is written
with ascending keys. -/
def map [Ranked α] (c : Codec α) (d : Codec β) : Codec (SortedMap α β) :=
  (list (c.pair d)).via SortedMap.ofEntries SortedMap.entries

end Codec

end Automata
