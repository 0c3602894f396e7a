import MacroAsm.Engine
import MacroAsm.Linked
import MacroAsm.Program
import MacroAsm.Source.Disk

/-!
# Assembling

* `Options`: where the program starts, how deep it may nest, where includes are looked for;
* `Report`: what assembling a root macro gives;
* `Report.ofSources`, `Report.ofText`, `Report.ofFile`: the report of sources, of a text in memory, of a file.
-/

namespace MacroAsm

/-- What assembling depends on, besides the sources. -/
structure Options where
  includePaths : List Text := []
  maxDepth : Nat := 256
  /-- the absolute offset of the first byte -/
  start : Address := 0
  deriving DecidableEq

/-- An assembled root macro. -/
structure Report where
  root : Text
  takes : Nat
  returns : Nat
  start : Address
  bytes : Bytes
  origins : List Origin
  /-- by offset, then by name -/
  labels : List (Text × Address)
  tables : List (Text × Address)
  diagnostics : List Diagnostic
  deriving DecidableEq

namespace Report

/-- The order of labels in a report. -/
def labelLe (a b : Text × Address) : Bool :=
  a.2.toNat < b.2.toNat || (a.2 == b.2 && Text.atMost a.1 b.1)

/-- The report of a linked program. -/
def ofLinked (root : Text) (m : Option Macro) (start : Address) (l : Linked) (warnings : List Diagnostic) :
    Report where
  root := root
  takes := (m.map (·.takes)).getD 0
  returns := (m.map (·.returns)).getD 0
  start := start
  bytes := l.bytes
  origins := l.origins
  labels := l.labels.mergeSort labelLe
  tables := l.tables
  diagnostics := warnings ++ l.warnings

/-- The bytes in hexadecimal. -/
def bytecode (r : Report) : Text := Bytes.toHex r.bytes

/-- A fault that explains itself. -/
def explained {α : Type} (x : Except Fault α) : Except Failure α := x.mapError Failure.ofFault

/-- The report of a root macro of some sources, with the warnings that loading them gave. -/
def ofSources (options : Options) (root : Text) (files : Sources) (warnings : List Diagnostic) :
    Except Failure Report := do
  let program ← explained (Program.read files)
  let e ← (Processor.process { maxDepth := options.maxDepth } root options.start { macros := program.macros }).1
  let linked ← explained (Linked.link e program.tables options.start)
  return ofLinked root (program.macros.find? root) options.start linked warnings

/-- The name of a text in memory. -/
def memoryName : Text := "<source>".toList

/-- The report of a root macro of a text in memory. -/
def ofText (root text : Text) : Except Failure Report := do
  let file ← explained (SourceFile.ofMemory memoryName text)
  ofSources {} root [file] []

/-- The report of a root macro of a file and what it includes. -/
def ofFile {m : Type → Type} [Monad m] (disk : Disk m) (options : Options) (root path : Text) :
    m (Except Failure Report) := do
  let loaded ← Sources.load disk { roots := options.includePaths, maxDepth := options.maxDepth } path
  return do
    let l ← explained loaded
    ofSources options root l.files l.warnings

end Report
end MacroAsm
