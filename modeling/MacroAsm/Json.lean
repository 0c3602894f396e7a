import MacroAsm.Text.Basic

/-!
# JSON output

* `Json`: a value to be written, with natural numbers only;
* `Json.compact`: without any blank; `Json.pretty`: indented by two spaces a level.
-/

namespace MacroAsm

/-- A value to be written. The members of an object are written in the order in which they stand. -/
inductive Json where
  | null
  | number (n : Nat)
  | string (t : Text)
  | array (items : List Json)
  | object (members : List (Text × Json))

namespace Json

/-- A string, or null for none. -/
def optional : Option Text → Json
  | some t => .string t
  | none => .null

/-- The text of a character inside a string: quotes, backslashes and control characters are escaped. -/
def escape (c : Char) : Text :=
  if c = '"' then ['\\', '"']
  else if c = '\\' then ['\\', '\\']
  else if c = '\n' then ['\\', 'n']
  else if c = '\r' then ['\\', 'r']
  else if c = '\t' then ['\\', 't']
  else if c.toNat = 0x8 then ['\\', 'b']
  else if c.toNat = 0xc then ['\\', 'f']
  else if c.toNat < 0x20 then
    "\\u00".toList ++ [Nat.digitChar (c.toNat / 16), Nat.digitChar (c.toNat % 16)]
  else [c]

/-- A string in quotes. -/
def quote (t : Text) : Text := '"' :: t.flatMap escape ++ ['"']

mutual

/-- All on one line, without blanks. -/
def compact : Json → Text
  | .null => "null".toList
  | .number n => Text.decimal n
  | .string t => quote t
  | .array items => '[' :: Text.join [','] (compactItems items) ++ [']']
  | .object members => '\x7b' :: Text.join [','] (compactMembers members) ++ ['\x7d']

def compactItems : List Json → List Text
  | [] => []
  | v :: vs => compact v :: compactItems vs

def compactMembers : List (Text × Json) → List Text
  | [] => []
  | (k, v) :: ms => (quote k ++ ':' :: compact v) :: compactMembers ms

end

/-- The start of a line at a depth. -/
def indent (depth : Nat) : Text := '\n' :: List.replicate (2 * depth) ' '

/-- Items on lines of their own between two brackets; the brackets alone if there are none. -/
def block (opening closing : Char) (depth : Nat) (items : List Text) : Text :=
  if items.isEmpty then [opening, closing]
  else
    opening :: Text.join [','] (items.map (indent (depth + 1) ++ ·)) ++ (indent depth ++ [closing])

mutual

/-- Indented, from a depth on. -/
def prettyAt (depth : Nat) : Json → Text
  | .null => "null".toList
  | .number n => Text.decimal n
  | .string t => quote t
  | .array items => block '[' ']' depth (prettyItems (depth + 1) items)
  | .object members => block '\x7b' '\x7d' depth (prettyMembers (depth + 1) members)

def prettyItems (depth : Nat) : List Json → List Text
  | [] => []
  | v :: vs => prettyAt depth v :: prettyItems depth vs

def prettyMembers (depth : Nat) : List (Text × Json) → List Text
  | [] => []
  | (k, v) :: ms => (quote k ++ ": ".toList ++ prettyAt depth v) :: prettyMembers depth ms

end

/-- Indented by two spaces a level. -/
def pretty (v : Json) : Text := prettyAt 0 v

end Json
end MacroAsm
