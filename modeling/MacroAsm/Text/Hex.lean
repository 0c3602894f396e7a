import MacroAsm.Text.Basic

/-!
# Bytes and hexadecimal text

* `hexValue? c`: the value of a hexadecimal digit of either case;
* `Bytes.toHex`: two lower-case digits a byte; `Bytes.ofHex?` reads them back, an odd number of digits having a zero
  put in front;
* `Bytes.toNat`, `Bytes.ofNat`: the big-endian value of some bytes, and the fewest bytes of a value;
* `Text.toBytes`: the UTF-8 form of a text.
-/

namespace MacroAsm

/-- Bytes of code, first byte first. -/
abbrev Bytes := List UInt8

/-- The value of a decimal digit. -/
def digitValue? (c : Char) : Option Nat :=
  if c.isDigit then some (c.toNat - '0'.toNat) else none

/-- The value of a hexadecimal digit of either case. -/
def hexValue? (c : Char) : Option Nat :=
  if c.isDigit then some (c.toNat - '0'.toNat)
  else if 'a' ≤ c ∧ c ≤ 'f' then some (c.toNat - 'a'.toNat + 10)
  else if 'A' ≤ c ∧ c ≤ 'F' then some (c.toNat - 'A'.toNat + 10)
  else none

/-- A hexadecimal digit of either case. -/
def isHexDigit (c : Char) : Bool := (hexValue? c).isSome

namespace Bytes

/-- The two digits of a byte. -/
def hexDigits (b : UInt8) : Text :=
  [Nat.digitChar (b.toNat / 16), Nat.digitChar (b.toNat % 16)]

/-- The lower-case digits of some bytes. -/
def toHex (bs : Bytes) : Text := bs.flatMap hexDigits

/-- A byte for each two digits. -/
def ofDigitPairs : List Nat → Bytes
  | hi :: lo :: ds => UInt8.ofNat (16 * hi + lo) :: ofDigitPairs ds
  | _ => []

/-- The bytes of hexadecimal digits; nothing for an empty text or one that holds anything else. -/
def ofHex? (t : Text) : Option Bytes :=
  if t.isEmpty then none
  else (t.mapM hexValue?).map fun ds => ofDigitPairs (if t.length % 2 = 1 then 0 :: ds else ds)

/-- The value of some bytes, the first one weighing most. -/
def toNat (bs : Bytes) : Nat := bs.foldl (fun n b => 256 * n + b.toNat) 0

/-- The bytes of a positive value without a zero in front; none for zero. -/
def significant (n : Nat) : Bytes :=
  if n = 0 then [] else significant (n / 256) ++ [UInt8.ofNat (n % 256)]
termination_by n
decreasing_by omega

/-- The fewest bytes of a value, and one byte for zero. -/
def ofNat (n : Nat) : Bytes := if n = 0 then [0] else significant n

/-- The two bytes of an offset below `0x10000`. -/
def ofOffset (n : Nat) : Bytes := [UInt8.ofNat (n / 256), UInt8.ofNat (n % 256)]

end Bytes

/-- The UTF-8 form of a text. -/
def Text.toBytes (t : Text) : Bytes := t.flatMap String.utf8EncodeChar

end MacroAsm
