import MacroAsm.Op
import MacroAsm.Fault

/-!
# Macros

* `Macro`: a named list of operations with template parameters and a declared effect on the stack;
* `MacroTable`: macros with different names, found by name.
-/

namespace MacroAsm

structure Macro where
  name : Text
  takes : Nat
  returns : Nat
  params : List Text
  ops : List Op
  /-- the text of the body as written -/
  body : Text
  origin : Origin
  deriving DecidableEq

/-- Macros, the one added last in front. -/
structure MacroTable where
  macros : List Macro := []
  deriving DecidableEq

namespace MacroTable

def find? (t : MacroTable) (name : Text) : Option Macro := t.macros.find? fun m => m.name == name

def contains (t : MacroTable) (name : Text) : Bool := (t.find? name).isSome

def size (t : MacroTable) : Nat := t.macros.length

/-- Adds a macro; its name has to be new. -/
def insert (t : MacroTable) (m : Macro) : Except Fault MacroTable :=
  if t.contains m.name then .error (.located (.duplicateMacro m.name) m.origin)
  else .ok ⟨m :: t.macros⟩

/-- Adds several macros, up to the first that cannot be added. -/
def insertAll (t : MacroTable) : List Macro → Except Fault MacroTable
  | [] => .ok t
  | m :: rest => do (← t.insert m).insertAll rest

end MacroTable
end MacroAsm
