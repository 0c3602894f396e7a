import MacroAsm.Text.Hex

/-!
# Opcodes of the stack machine

* `Opcode.table`: every mnemonic with its byte; `Opcode.ofMnemonic?` and `Opcode.mnemonic?` look it up both ways;
* `Opcode.pushOf? n`: the push that carries `n` bytes; `Opcode.pushWidth? b`: the number of bytes that `b` carries.
-/

namespace MacroAsm

/-- The byte of an operation. -/
abbrev Opcode := UInt8

namespace Opcode

/-- Mnemonics with consecutive bytes. -/
def row : Opcode → List String → List (Text × Opcode)
  | _, [] => []
  | b, m :: ms => (m.toList, b) :: row (b + 1) ms

/-- Mnemonics made of a stem and a number, from `first` on. -/
def numbered (stem : String) (first : Nat) : Nat → Opcode → List (Text × Opcode)
  | 0, _ => []
  | n + 1, b => (stem.toList ++ Text.decimal first, b) :: numbered stem (first + 1) n (b + 1)

/-- Every mnemonic and its byte. -/
def table : List (Text × Opcode) :=
  row 0x00 ["stop", "add", "mul", "sub", "div", "sdiv", "mod", "smod", "addmod", "mulmod", "exp", "signextend"]
  ++ row 0x10 ["lt", "gt", "slt", "sgt", "eq", "iszero", "and", "or", "xor", "not", "byte", "shl", "shr", "sar"]
  ++ row 0x20 ["sha3"]
  ++ row 0x30 ["address", "balance", "origin", "caller", "callvalue", "calldataload", "calldatasize",
    "calldatacopy", "codesize", "codecopy", "gasprice", "extcodesize", "extcodecopy", "returndatasize",
    "returndatacopy", "extcodehash"]
  ++ row 0x40 ["blockhash", "coinbase", "timestamp", "number", "difficulty", "gaslimit"]
  ++ row 0x50 ["pop", "mload", "mstore", "mstore8", "sload", "sstore", "jump", "jumpi", "pc", "msize", "gas",
    "jumpdest"]
  ++ numbered "push" 1 32 0x60
  ++ numbered "dup" 1 16 0x80
  ++ numbered "swap" 1 16 0x90
  ++ numbered "log" 0 5 0xa0
  ++ row 0xf0 ["create", "call", "callcode", "return", "delegatecall", "create2"]
  ++ row 0xfa ["staticcall"]
  ++ row 0xfd ["revert", "invalid", "selfdestruct"]

/-- The byte of a mnemonic; case matters. -/
def ofMnemonic? (t : Text) : Option Opcode := (table.find? fun e => e.1 == t).map (·.2)

/-- The mnemonic of a byte. -/
def mnemonic? (b : Opcode) : Option Text := (table.find? fun e => e.2 == b).map (·.1)

/-- Ends the program; also the byte between a program and its tables. -/
def stop : Opcode := 0x00

/-- Marks a place that may be jumped to. -/
def jumpDest : Opcode := 0x5b

/-- Pushes the two bytes that follow. -/
def push2 : Opcode := 0x61

/-- The greatest number of bytes that a push carries. -/
def maxPushWidth : Nat := 32

/-- The push that carries `width` bytes. -/
def pushOf? (width : Nat) : Option Opcode :=
  if 1 ≤ width ∧ width ≤ maxPushWidth then some (UInt8.ofNat (0x5f + width)) else none

/-- The number of bytes that a push carries; nothing for another operation. -/
def pushWidth? (b : Opcode) : Option Nat :=
  if 0x60 ≤ b ∧ b ≤ 0x7f then some (b.toNat - 0x5f) else none

end Opcode
end MacroAsm
