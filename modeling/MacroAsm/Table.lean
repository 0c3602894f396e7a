import MacroAsm.Numeral
import MacroAsm.Fault
import MacroAsm.Cursor

/-!
# Tables

* `Table`: a named block of bytes behind the program, either the offsets of labels or bytes as written;
* `Table.size`: its length when linked;
* `TableSet`: tables in the order of their declaration, with different names;
* `codeBytes`: the bytes of the literals in the body of a code table.
-/

namespace MacroAsm

/-- What a table holds. -/
inductive Payload where
  /-- the offset of each label, in two bytes if `packed` and in a full word otherwise -/
  | jumps (labels : List Text) (packed : Bool)
  /-- bytes as written -/
  | code (bytes : Bytes)
  deriving DecidableEq

/-- The number of bytes of one label offset. -/
def entryWidth (packed : Bool) : Nat := if packed then 2 else 32

structure Table where
  name : Text
  payload : Payload
  origin : Origin
  deriving DecidableEq

/-- The number of bytes of the table when linked. -/
def Table.size (t : Table) : Nat :=
  match t.payload with
  | .jumps labels packed => labels.length * entryWidth packed
  | .code bytes => bytes.length

/-- Tables in the order of their declaration. -/
abbrev TableSet := List Table

namespace TableSet

def find? (ts : TableSet) (name : Text) : Option Table := List.find? (fun t => t.name == name) ts

/-- Adds a table at the end; its name has to be new. -/
def insert (ts : TableSet) (t : Table) : Except Fault TableSet :=
  if (ts.find? t.name).isSome then .error (.located (.duplicateTable t.name) t.origin)
  else .ok (ts ++ [t])

/-- Adds several tables, up to the first that cannot be added. -/
def insertAll (ts : TableSet) : List Table → Except Fault TableSet
  | [] => .ok ts
  | t :: rest => do (← ts.insert t).insertAll rest

end TableSet

/-- The bytes of one entry of a code table: hexadecimal digits as written, or a decimal value in the fewest bytes. -/
def entryBytes? (token : Text) : Option Bytes :=
  match Text.dropStart? "0x".toList token with
  | some digits => Bytes.ofHex? digits
  | none => (Numeral.value? token).map Bytes.ofNat

/-- The next entry and what follows it: everything up to the next blank. -/
def nextEntry (c : Cursor) : Text × Cursor := c.skipBlanks.takeWhile fun x => !isBlank x

theorem rest_nextEntry_lt {c : Cursor} (h : (nextEntry c).1 ≠ []) :
    (nextEntry c).2.rest.length < c.rest.length :=
  ((Cursor.before_skipBlanks c).trans_ahead (Cursor.ahead_takeWhile h)).shorter

/-- The bytes of all entries from a cursor on, or the place and text of the first that is none. -/
def codeBytesFrom (c : Cursor) : Except (Nat × Text) Bytes :=
  if _h : (nextEntry c).1 = [] then .ok []
  else match entryBytes? (nextEntry c).1 with
    | none => .error (c.skipBlanks.pos, (nextEntry c).1)
    | some bytes => do return bytes ++ (← codeBytesFrom (nextEntry c).2)
termination_by c.rest.length
decreasing_by exact rest_nextEntry_lt _h

/-- The bytes of the body of a code table, or the place and text of the first entry that is none. -/
def codeBytes (body : Text) : Except (Nat × Text) Bytes := codeBytesFrom (Cursor.start body)

end MacroAsm
