import MacroAsm.Diagnostic
import MacroAsm.Expansion
import MacroAsm.Table

/-!
# Linking tables

Tables stand behind the program, with one zero byte between, in the order of their declaration.

* `Linked`: the final bytes with their origins, the offsets of labels and tables, and warnings;
* `Linked.payload`: the bytes of a table; an entry without a label is all zeros and gets a warning;
* `Linked.link`: the program with its tables and with all table references written.
-/

namespace MacroAsm

/-- A program with its tables. -/
structure Linked where
  bytes : Bytes
  origins : List Origin
  /-- the tables with their absolute offsets, in order -/
  tables : List (Text × Address)
  labels : List (Text × Address)
  warnings : List Diagnostic
  deriving DecidableEq

namespace Linked

/-- The warning for an entry without a label, whose bytes start at `offset`. -/
def entryWarning (t : Table) (label : Text) (width : Nat) (offset : Address) : Diagnostic :=
  { Diagnostic.ofFault .warning (.located (.unknownEntry t.name label) t.origin) with
    notes := [Text.decimal width ++ " zero bytes at offset 0x".toList ++ Text.hexadecimal offset.toNat] }

/-- The bytes of one entry at an absolute offset, with a warning if its label is unknown. -/
def entry (root : Expansion) (t : Table) (width : Nat) (offset : Address) (label : Text) :
    Except Fault (Bytes × List Diagnostic) :=
  match Expansion.labelOffset? root.labels label with
  | some target =>
    if maxOffset < target.toNat then .error (.located (.entryTooLarge t.name label target.toNat) t.origin)
    else .ok (List.replicate (width - 2) 0 ++ Bytes.ofOffset target.toNat, [])
  | none => .ok (List.replicate width 0, [entryWarning t label width offset])

/-- The bytes of entries from an absolute offset on. -/
def entries (root : Expansion) (t : Table) (width : Nat) : Address → List Text →
    Except Fault (Bytes × List Diagnostic)
  | _, [] => .ok ([], [])
  | offset, label :: labels => do
    let (bytes, warnings) ← entry root t width offset label
    let (moreBytes, moreWarnings) ← entries root t width (offset + width) labels
    return (bytes ++ moreBytes, warnings ++ moreWarnings)

/-- The bytes of a table at an absolute offset. -/
def payload (root : Expansion) (t : Table) (offset : Address) : Except Fault (Bytes × List Diagnostic) :=
  match t.payload with
  | .code bytes => .ok (bytes, [])
  | .jumps labels packed => entries root t (entryWidth packed) offset labels

/-- What stands behind a program. -/
structure Appendix where
  bytes : Bytes := []
  origins : List Origin := []
  tables : List (Text × Address) := []
  warnings : List Diagnostic := []

/-- The bytes of tables from an absolute offset on. -/
def appendix (root : Expansion) : Address → TableSet → Except Fault Appendix
  | _, [] => .ok {}
  | offset, t :: ts => do
    let (bytes, warnings) ← payload root t offset
    let rest ← appendix root (offset + bytes.length) ts
    return {
      bytes := bytes ++ rest.bytes
      origins := List.replicate bytes.length t.origin ++ rest.origins
      tables := (t.name, offset) :: rest.tables
      warnings := warnings ++ rest.warnings }

/-- The zero byte between a program and its tables, with the origin of the first table. -/
def separator : TableSet → Expansion
  | [] => {}
  | t :: _ => Expansion.ofBytes [Opcode.stop] t.origin

/-- Writes one table reference of a program that starts at `start`. -/
def patchRef (start : Address) (offsets : List (Text × Address)) (i : Image) (r : TableRef) : Except Fault Image :=
  match offsets.find? fun d => d.1 == r.table with
  | none => .error (.located (.unknownTableStart r.table) r.origin)
  | some (_, offset) =>
    if r.offset.toNat < start.toNat then .error (.located (.placeholderBeforeProgram r.offset.toNat) r.origin)
    else i.patchFor r.origin (r.offset.toNat - start.toNat) offset.toNat

/-- Writes table references in order. -/
def patchRefs (start : Address) (offsets : List (Text × Address)) : Image → List TableRef → Except Fault Image
  | i, [] => .ok i
  | i, r :: rs => do patchRefs start offsets (← patchRef start offsets i r) rs

/-- No placeholder is left in a program that starts at `start`. -/
def checkPatched (start : Address) (origins : List Origin) (i : Image) : Except Fault Unit :=
  match i.placeholders with
  | [] => .ok ()
  | p :: _ => .error ⟨.unpatched (start + p).toNat, origins[p]?⟩

/-- A program that starts at `start` with its tables behind it. -/
def link (root : Expansion) (tables : TableSet) (start : Address) : Except Fault Linked := do
  let sep := separator tables
  let app ← appendix root (start + root.size + sep.size) tables
  let patched ← patchRefs start app.tables root.image root.tableRefs
  checkPatched start root.origins patched
  return {
    bytes := patched.bytes.toList ++ sep.bytes ++ app.bytes
    origins := root.origins ++ sep.origins ++ app.origins
    tables := app.tables
    labels := root.labels
    warnings := app.warnings }

end Linked
end MacroAsm
