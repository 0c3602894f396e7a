import MacroAsm.Fault

/-!
# Diagnostics

A diagnostic is a fault made ready to be shown: its place, a short code, notes and help.

* `Diagnostic.ofFault`: a diagnostic placed at the origin of its fault;
* `Diagnostic.format`, `Diagnostic.formatWithContext`: one line, or several with the source line;
* `highlight line column color`: the token at a column in colour;
* `Failure`: the fault that ended a run and the diagnostics that explain it.
-/

namespace MacroAsm

inductive Severity where
  | warning
  | error
  deriving DecidableEq

/-- The word for it in text output. -/
def Severity.label : Severity → Text
  | .warning => "WARNING".toList
  | .error => "ERROR".toList

/-- The short code of a class of causes. -/
def Kind.code : Kind → Text
  | .parse => "sfp001".toList
  | .name => "sfn001".toList
  | .arity => "sfa001".toList
  | .range => "sfr001".toList
  | .unmatchedLabel => "sfj001".toList
  | .table => "sft001".toList
  | .recursion => "sfc001".toList
  | .io => "sfi001".toList
  | .commandLine => "sfl001".toList
  | .preprocess => "sfx001".toList

/-- A fault made ready to be shown. -/
structure Diagnostic where
  line : Nat
  code : Text
  severity : Severity
  fault : Fault
  file : Option Text := none
  source : Option Text := none
  notes : List Text := []
  help : List Text := []
  deriving DecidableEq

/-- The line with the token that starts at the one-based byte `column` in red. The line is kept as it is without
colour, without a column, and where the column is outside the line or inside a character. -/
def highlight (line : Text) (column : Option Nat) (color : Bool) : Text :=
  match column with
  | none | some 0 => line
  | some (start + 1) =>
    let before := Text.takeBytes start line
    let rest := line.drop before.length
    if !color || rest.isEmpty || Text.byteLength before != start then line
    else
      before ++ "\x1b[31m".toList ++ rest.takeWhile (fun c => !isBlank c)
        ++ "\x1b[0m".toList ++ rest.dropWhile (fun c => !isBlank c)

/-- The one-based byte column of the first character that is not blank. -/
def firstColumn? (line : Text) : Option Nat :=
  let before := line.takeWhile isBlank
  if before.length < line.length then some (Text.byteLength before + 1) else none

/-- The lines that show the source of a diagnostic. -/
def contextLines (line : Nat) (source : Option Text) (color : Bool) : List Text :=
  let margin := Text.alignRight 5 (Text.decimal line) ++ " | ".toList
  match source with
  | some t => [margin ++ highlight t (firstColumn? t) color]
  | none => [margin ++ "<source unavailable>".toList]

namespace Diagnostic

/-- A diagnostic at a line, with the code of its fault's class. -/
def atLine (line : Nat) (severity : Severity) (fault : Fault) : Diagnostic where
  line := line
  code := fault.kind.code
  severity := severity
  fault := fault

/-- A diagnostic at the origin of its fault; line zero if there is none. -/
def ofFault (severity : Severity) (fault : Fault) : Diagnostic :=
  match fault.origin with
  | some o => { atLine o.line severity fault with file := some o.file.toList, source := some o.text.toList }
  | none => atLine 0 severity fault

def kind (d : Diagnostic) : Kind := d.fault.kind

def message (d : Diagnostic) : Text := d.fault.message

/-- All on one line. -/
def format (d : Diagnostic) : Text :=
  Text.decimal d.line ++ ": ".toList ++ d.severity.label ++ " [".toList ++ d.code ++ "] - ".toList ++ d.message

/-- Place, source line, notes, help and message, on lines of their own. -/
def formatWithContext (d : Diagnostic) (color : Bool) : Text :=
  let place := match d.file with
    | some f => f ++ ':' :: Text.decimal d.line
    | none => Text.decimal d.line
  let header := place ++ ": ".toList ++ d.severity.label ++ " [".toList ++ d.code ++ "]".toList
  Text.join ['\n'] <|
    header :: contextLines d.line d.source color
      ++ d.notes.map ("note: ".toList ++ ·)
      ++ d.help.map ("help: ".toList ++ ·)
      ++ [d.severity.label ++ ": ".toList ++ d.message]

end Diagnostic

/-- The fault that ended a run, and the diagnostics that explain it. -/
structure Failure where
  fault : Fault
  diagnostics : List Diagnostic
  deriving DecidableEq

namespace Failure

/-- A fault explained by itself. -/
def ofFault (fault : Fault) : Failure := ⟨fault, [Diagnostic.ofFault .error fault]⟩

def kind (f : Failure) : Kind := f.fault.kind

def display (f : Failure) : Text := f.fault.display

end Failure
end MacroAsm
