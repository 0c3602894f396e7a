import MacroAsm.Op
import MacroAsm.Text.Bracket

/-!
# Writing operations

* `OpKind.render`: an operation as it is written in a body;
* `OpKind.renderAll`: operations with a space between neighbours.

Bytes are written in hexadecimal, since a decimal numeral does not show how wide its push is.
-/

namespace MacroAsm
namespace OpKind

/-- A call. Arguments stand in angle brackets, unless brackets inside them do not match. -/
def renderCall (callee : Text) : List Text → Text
  | [] => callee ++ "()".toList
  | args =>
    let group := Text.join ", ".toList args
    if Text.closing '<' '>' 0 (group ++ ['>']) = some (group, []) then callee ++ '<' :: group ++ ">()".toList
    else callee ++ '(' :: group ++ [')']

/-- A macro with its arguments, as it is asked for inside a size. -/
def renderTarget (callee : Text) : List Text → Text
  | [] => callee
  | args => callee ++ '<' :: Text.join ", ".toList args ++ ['>']

/-- An operation as it is written in a body. -/
def render : OpKind → Text
  | opcode b => (Opcode.mnemonic? b).getD []
  | push _ data => "0x".toList ++ Bytes.toHex data
  | labelDef label => label ++ [':']
  | labelRef label => label
  | call callee args => renderCall callee args
  | template text => '<' :: text ++ ['>']
  | codeSize callee args => "__codesize(".toList ++ renderTarget callee args ++ [')']
  | tableStart table => "__tablestart(".toList ++ table ++ [')']

/-- Operations with a space between neighbours. -/
def renderAll (kinds : List OpKind) : Text := Text.join [' '] (kinds.map render)

end OpKind
end MacroAsm
