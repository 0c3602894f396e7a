import MacroAsm.Cursor

/-!
# What an expansion is asked for

A macro is asked for by its name, alone or with a group of template arguments in angle brackets.

* `Target.argumentGroup raw`: the arguments written between brackets, as one trimmed text or none;
* `Target.split? t`: the name and the arguments of `t`.
-/

namespace MacroAsm
namespace Target

/-- The group of arguments that a bracket holds: none if it is blank, otherwise its trimmed text. -/
def argumentGroup (raw : Text) : List Text :=
  if Text.allBlank raw then [] else [Text.trim raw]

/-- A word, optionally followed by one bracketed group that ends the text. -/
def split? (t : Text) : Option (Text × List Text) :=
  match (Cursor.start (Text.trim t)).word? with
  | none => none
  | some (name, c) =>
    let rest := Text.trim c.rest
    if rest.isEmpty then some (name, [])
    else match (Cursor.start rest).balanced? '<' '>' with
      | some (inner, c') => if c'.atEnd then some (name, argumentGroup inner) else none
      | none => none

end Target
end MacroAsm
