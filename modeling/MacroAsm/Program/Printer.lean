import MacroAsm.Program

/-!
# Writing programs

* `Table.render`, `Macro.render`: a declaration as it is written in a source;
* `Program.render`: all declarations, tables first and in their order, each on a line of its own.

Tables stand before macros, since the size of a table may be asked for only behind its declaration.
-/

namespace MacroAsm

/-- A text in braces, with a space inside each. -/
def braced (t : Text) : Text := "\x7b ".toList ++ t ++ " \x7d".toList

/-- The declaration of a table. -/
def Table.render (t : Table) : Text :=
  match t.payload with
  | .jumps labels packed =>
    (if packed then "jumptable__packed ".toList else "jumptable ".toList) ++ t.name
      ++ ' ' :: braced (Text.join [' '] labels)
  | .code bytes =>
    "table ".toList ++ t.name
      ++ ' ' :: braced (if bytes.isEmpty then [] else "0x".toList ++ Bytes.toHex bytes)

/-- The list of template parameters of a macro; nothing if there are none. -/
def Macro.renderParams (m : Macro) : Text :=
  if m.params.isEmpty then [] else "template <".toList ++ Text.join ", ".toList m.params ++ "> ".toList

/-- The definition of a macro, with its body as it was written. -/
def Macro.render (m : Macro) : Text :=
  m.renderParams ++ "#define macro ".toList ++ m.name ++ " = takes(".toList ++ Text.decimal m.takes
    ++ ") returns(".toList ++ Text.decimal m.returns ++ ") \x7b".toList ++ m.body ++ ['\x7d']

/-- All declarations of a program. -/
def Program.render (p : Program) : Text :=
  (p.tables.map Table.render ++ p.macros.macros.map Macro.render).flatMap (· ++ ['\n'])

end MacroAsm
