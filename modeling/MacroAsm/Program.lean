import MacroAsm.Macro
import MacroAsm.Op.Reader
import MacroAsm.Program.Item

/-!
# Programs

* `Program`: the macros and the tables that some sources declare;
* `Program.read`: the program of the sources, read item by item from left to right.
-/

namespace MacroAsm

/-- The macros and the tables of some sources. -/
structure Program where
  macros : MacroTable := {}
  tables : TableSet := []
  deriving DecidableEq

namespace Program

/-- What has been read so far, with a parameter list that waits for its macro. -/
structure Draft where
  program : Program := {}
  pending : Option (List Text × Origin) := none
  deriving DecidableEq

/-- The labels in the body of a jump table. -/
def jumpLabels (table : Text) (here : Origin) (body : Text) : Except Fault (List Text) :=
  match (Text.words body).find? fun l => !Text.isWord l with
  | some bad => .error (.located (.invalidTableLabel table bad) here)
  | none => .ok (Text.words body)

/-- The bytes in the body of a code table. -/
def tableBytes (l : Lines) (table body : Text) (bodyPos : Nat) : Except Fault Bytes :=
  match codeBytes body with
  | .ok bytes => .ok bytes
  | .error (offset, token) =>
    .error (.located (.invalidTableEntry table token) (l.originAt (bodyPos + offset)))

/-- Adds a table to a program. -/
def addTable (p : Program) (t : Table) : Except Fault Program := do
  return { p with tables := ← p.tables.insert t }

/-- Adds a macro to a program. -/
def addMacro (p : Program) (m : Macro) : Except Fault Program := do
  return { p with macros := ← p.macros.insert m }

/-- Takes in one item with the origin `here`. -/
def Draft.add (l : Lines) (here : Origin) (st : Draft) : Item → Except Fault Draft
  | .params names => .ok { st with pending := some (names, here) }
  | .defn name takes returns body bodyPos => do
    let ops ← Body.ops ⟨body, bodyPos, l, st.program.tables⟩
    let params := (st.pending.map (·.1)).getD []
    return ⟨← st.program.addMacro ⟨name, takes, returns, params, ops, body, here⟩, none⟩
  | .jumpTable name packed body => do
    let labels ← jumpLabels name here body
    return { st with program := ← st.program.addTable ⟨name, .jumps labels packed, here⟩ }
  | .codeTable name body bodyPos => do
    let bytes ← tableBytes l name body bodyPos
    return { st with program := ← st.program.addTable ⟨name, .code bytes, here⟩ }

/-- Takes in all items from a cursor on. -/
def Draft.readFrom (l : Lines) (st : Draft) (c : Cursor) : Except Fault Draft :=
  if c.skipBlanks.atEnd then .ok st
  else
    match _h : Item.read (l.originAt c.skipBlanks.pos) st.pending.isSome c.skipBlanks with
    | .error cause => .error (.located cause (l.originAt c.skipBlanks.pos))
    | .ok (item, c') => match st.add l (l.originAt c.skipBlanks.pos) item with
      | .error f => .error f
      | .ok st' => st'.readFrom l c'
termination_by c.rest.length
decreasing_by exact ((Cursor.before_skipBlanks c).trans_ahead (Item.ahead_of_read _h)).shorter

/-- The program, unless a parameter list is still waiting. -/
def Draft.finish (st : Draft) : Except Fault Program :=
  match st.pending with
  | some (_, here) => .error (.located .paramsWithoutMacro here)
  | none => .ok st.program

/-- The program that some sources declare. -/
def read (s : Sources) : Except Fault Program := do
  (← Draft.readFrom s.lines {} (Cursor.start s.text)).finish

end Program
end MacroAsm
