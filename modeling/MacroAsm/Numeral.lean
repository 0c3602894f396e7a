import MacroAsm.Text.Blank
import MacroAsm.Text.Hex

/-!
# Numerals

* `Numeral.value? t`: the value of `0x` with hexadecimal digits, or of decimal digits;
* `Numeral.count? t`: a value that fits 64 bits, blanks at the ends allowed; `Numeral.wrapCount`: the range of such a
  count;
* `Word.modulus`, `Word.wrap`: the range of a machine word.
-/

namespace MacroAsm
namespace Numeral

/-- The value of some digits in a base, the first one weighing most. -/
def ofDigits (base : Nat) (ds : List Nat) : Nat := ds.foldl (fun n d => base * n + d) 0

/-- The value of one or more digits; nothing if any character is not a digit. -/
def digits? (base : Nat) (digit? : Char → Option Nat) (t : Text) : Option Nat :=
  if t.isEmpty then none else (t.mapM digit?).map (ofDigits base)

/-- The value of a hexadecimal numeral marked `0x` or of a decimal one. -/
def value? (t : Text) : Option Nat :=
  match Text.dropStart? "0x".toList t with
  | some hex => digits? 16 hexValue? hex
  | none => digits? 10 digitValue? t

/-- One more than the greatest count. -/
def countLimit : Nat := Nat.pow 2 64

theorem countLimit_eq : countLimit = 18446744073709551616 := rfl

/-- A number brought into the range of a count. -/
def wrapCount (n : Nat) : Nat := n % countLimit

/-- A numeral between optional blanks whose value is a count. -/
def count? (t : Text) : Option Nat := (value? (Text.trim t)).filter (· < countLimit)

end Numeral

namespace Word

/-- The number of values of a machine word. -/
def modulus : Nat := Nat.pow 2 256

/-- The value brought into the range of a word. -/
def wrap (n : Nat) : Nat := n % modulus

end Word
end MacroAsm
