import MacroAsm.Fault
import MacroAsm.Arith

/-!
# Stack operations with an offset

`dup` and `swap` reach a place in the stack that may be written as a sum or a difference.

* `StackOffset.read? t`: the parts of `dup N ± M` or `swap N ± M`;
* `StackOffset.opcode`: the operation for the place that they give, from 1 to 16;
* `Text.isLiteral t`: `t` is to be evaluated as a number.
-/

namespace MacroAsm

/-- The operations that reach into the stack. -/
inductive StackFamily where
  | dup
  | swap
  deriving DecidableEq

def StackFamily.stem : StackFamily → Text
  | .dup => "dup".toList
  | .swap => "swap".toList

/-- The written parts of `dup N ± M` or `swap N ± M`, both numerals. -/
structure StackOffset where
  family : StackFamily
  base : Text
  sign : Char
  offset : Text
  deriving DecidableEq

namespace StackOffset

/-- The family that a text starts with and the text behind its stem. -/
def family? (t : Text) : Option (StackFamily × Text) :=
  match Text.dropStart? StackFamily.dup.stem t with
  | some rest => some (.dup, rest)
  | none => (Text.dropStart? StackFamily.swap.stem t).map (.swap, ·)

/-- A plus or a minus. -/
def isSign (c : Char) : Bool := c == '+' || c == '-'

/-- The parts of a text of this form. -/
def read? (t : Text) : Option StackOffset :=
  match family? (Text.trim t) with
  | none => none
  | some (family, rest) => match rest.dropWhile fun c => !isSign c with
    | [] => none
    | sign :: after =>
      let base := Text.trim (rest.takeWhile fun c => !isSign c)
      let offset := Text.trim after
      if (Numeral.value? base).isSome && (Numeral.value? offset).isSome then
        some ⟨family, base, sign, offset⟩
      else none

/-- The place in the stack; nothing below zero. -/
def position? (s : StackOffset) : Option Nat :=
  let base := (Numeral.value? s.base).getD 0
  let offset := (Numeral.value? s.offset).getD 0
  if s.sign = '+' then some (base + offset)
  else if offset ≤ base then some (base - offset) else none

/-- The operation for the place. -/
def opcode (s : StackOffset) : Except Cause Opcode :=
  match s.position?.filter fun p => 1 ≤ p && p ≤ 16 with
  | none => .error (.stackPosition s.base s.sign s.offset s.position?)
  | some p =>
    let mnemonic := s.family.stem ++ Text.decimal p
    match Opcode.ofMnemonic? mnemonic with
    | some b => .ok b
    | none => .error (.unknownStackOpcode mnemonic)

/-- The operation that a text of this form stands for. -/
def opcodeOf (t : Text) : Except Cause Opcode :=
  match read? t with
  | some s => s.opcode
  | none => .error (.notStackOffset t)

end StackOffset

/-- A numeral, or an expression that is not a stack operation with an offset. -/
def Text.isLiteral (t : Text) : Bool :=
  (Numeral.value? (Text.trim t)).isSome
    || (Text.hasOperator (Text.trim t) && (StackOffset.read? (Text.trim t)).isNone)

end MacroAsm
