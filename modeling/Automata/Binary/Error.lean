/-!
# Binary/Error — what a payload of bytes can fail to decode for

Decoding stops at the first read that fails.
-/

namespace Automata

/-- The widths of integers a payload uses. -/
inductive IntWidth where
  | u32
  | u64
deriving DecidableEq

def IntWidth.name : IntWidth → String
  | u32 => "U32"
  | u64 => "U64"

/-- What the first byte of an integer announces where it may not stand. -/
inductive OddWidth where
  | u64
  | u128
  | reserved
deriving DecidableEq

def OddWidth.name : OddWidth → String
  | u64 => "U64"
  | u128 => "U128"
  | reserved => "Reserved"

/-- Why bytes cannot be decoded. -/
inductive DecodeError where
  /-- A read for which this many bytes are missing. -/
  | unexpectedEnd (missing : Nat)
  /-- An integer of a width that cannot stand here. -/
  | wrongInteger (expected : IntWidth) (found : OddWidth)
  /-- A label that is no text, with the bytes of whole characters before the fault and the bytes
  the fault takes, if the label does not end inside it. -/
  | invalidText (validUpTo : Nat) (faultLength : Option Nat)
  /-- A symbol that is no character, with the bytes read for it. -/
  | invalidSymbol (bytes : List UInt8)
deriving DecidableEq

namespace DecodeError

private def optionText : Option Nat → String
  | none => "None"
  | some n => "Some(" ++ n.repr ++ ")"

def message : DecodeError → String
  | unexpectedEnd n => "UnexpectedEnd \x7b additional: " ++ n.repr ++ " \x7d"
  | wrongInteger expected found =>
    "InvalidIntegerType \x7b expected: " ++ expected.name ++ ", found: " ++ found.name ++ " \x7d"
  | invalidText n l =>
    "Utf8 \x7b inner: Utf8Error \x7b valid_up_to: " ++ n.repr ++ ", error_len: " ++ optionText l ++
      " \x7d \x7d"
  | invalidSymbol bs =>
    "InvalidCharEncoding([" ++ ", ".intercalate (bs.map fun b => b.toNat.repr) ++ "])"

end DecodeError

end Automata
