import MacroAsm.Numeral
import MacroAsm.Origin
import MacroAsm.Opcode

/-!
# Operations of a macro body

* `OpKind`: what an operation does; `Op`: an operation with its place in the source;
* `OpKind.push?`, `OpKind.pushValue?`: pushes of given bytes and of a value in the fewest bytes;
* `OpKind.encodedLength?`: the number of bytes of an operation that does not depend on other macros.
-/

namespace MacroAsm

/-- What an operation does. Arguments are kept as the text that was written. -/
inductive OpKind where
  /-- a machine operation without operand bytes -/
  | opcode (byte : Opcode)
  /-- a push and the bytes that it carries -/
  | push (byte : Opcode) (data : Bytes)
  /-- defines a label here -/
  | labelDef (label : Text)
  /-- pushes the offset of a label -/
  | labelRef (label : Text)
  /-- expands another macro here -/
  | call (callee : Text) (args : List Text)
  /-- expands a template argument here -/
  | template (text : Text)
  /-- pushes the size of the expansion of a macro -/
  | codeSize (callee : Text) (args : List Text)
  /-- pushes the offset of a table -/
  | tableStart (table : Text)
  deriving DecidableEq

/-- An operation, the byte of the source at which it is written, and its origin. -/
structure Op where
  kind : OpKind
  index : Nat
  origin : Origin
  deriving DecidableEq

namespace OpKind

/-- The push of some bytes; nothing if no push carries so many. -/
def push? (data : Bytes) : Option OpKind := (Opcode.pushOf? data.length).map (push · data)

/-- The push of a value in the fewest bytes. -/
def pushValue? (n : Nat) : Option OpKind := push? (Bytes.ofNat n)

/-- The number of bytes, where it does not depend on other macros. A reference is a two-byte push. -/
def encodedLength? : OpKind → Option Nat
  | opcode _ | labelDef _ => some 1
  | push b _ => (Opcode.pushWidth? b).map (· + 1)
  | labelRef _ | tableStart _ => some 3
  | call .. | template _ | codeSize .. => none

/-- The label that an operation defines. -/
def defines : OpKind → List Text
  | labelDef l => [l]
  | _ => []

end OpKind
end MacroAsm
