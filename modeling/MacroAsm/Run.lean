import MacroAsm.Config
import MacroAsm.Json
import MacroAsm.Source.FileTree

/-!
# Runs

* `Workspace m`: the files that a run reads and writes, in a monad `m`;
* `Run.assemble`: assembles as a configuration says and writes the files that it asks for;
* `Run.commandLine`: a whole run of the program, from its words to what it prints;
* `FileTree.workspace`: a tree of files to run in.
-/

namespace MacroAsm

/-- The files that a run reads and writes. -/
structure Workspace (m : Type → Type) extends Disk m where
  /-- writes a file anew -/
  write : Text → Bytes → m (Except FileError Unit)
  /-- opens a log, empty unless it is to be appended to -/
  openLog : Text → Bool → m (Except FileError Unit)
  /-- writes to a log from where it was opened -/
  writeLog : Text → Bool → Text → m Unit

namespace Report

/-- A name with its offset. -/
def placeJson (p : Text × Address) : Json :=
  .object [("name".toList, .string p.1), ("offset".toList, .number p.2.toNat)]

/-- The origins of bytes, from an offset on. -/
def originsJson : Address → List Origin → List Json
  | _, [] => []
  | n, o :: os =>
    .object [("file".toList, .string o.file.toList), ("line".toList, .number o.line),
      ("offset".toList, .number n.toNat), ("text".toList, .string o.text.toList)] :: originsJson (n + (1 : Nat)) os

/-- The source map: the root macro with its effect on the stack, the bytes, and where each comes from. -/
def sourceMapJson (r : Report) : Json :=
  .object [("bytecode".toList, .string r.bytecode), ("labels".toList, .array (r.labels.map placeJson)),
    ("macro".toList, .string r.root), ("returns".toList, .number r.returns),
    ("sourcemap".toList, .array (originsJson r.start r.origins)),
    ("tables".toList, .array (r.tables.map placeJson)), ("takes".toList, .number r.takes)]

/-- What the file of each kind holds. -/
def contents (r : Report) : OutputKind → Bytes
  | .hex => Text.toBytes (r.bytecode ++ ['\n'])
  | .binary => r.bytes
  | .sourceMap => Text.toBytes (r.sourceMapJson.pretty ++ ['\n'])

end Report

/-- A diagnostic as an object. -/
def Diagnostic.toJson (d : Diagnostic) : Json :=
  .object [("code".toList, .string d.code), ("file".toList, .optional d.file),
    ("help".toList, .array (d.help.map .string)), ("line".toList, .number d.line),
    ("message".toList, .string d.message), ("notes".toList, .array (d.notes.map .string)),
    ("severity".toList, .string (match d.severity with
      | .warning => "warning".toList
      | .error => "error".toList)),
    ("source".toList, .optional d.source)]

/-- What a run prints, and its exit status. -/
structure Outcome where
  exit : Nat
  stdout : Text := []
  stderr : Text := []
  deriving DecidableEq

namespace Run

variable {m : Type → Type} [Monad m]

/-- Writes the file of one kind, unless none is asked for. -/
def writeOutput (ws : Workspace m) (report : Report) (kind : OutputKind) (path : Option Text) :
    ExceptT Failure m Unit := do
  match path with
  | none => return ()
  | some p => match ← (ws.write p (report.contents kind) : m _) with
    | .ok () => return ()
    | .error e => throw ⟨⟨.unwritableFile kind e p, none⟩, []⟩

/-- Warnings made errors, if there are any. -/
def refuseWarnings (r : Report) : Except Failure Unit :=
  let warnings := r.diagnostics.filter fun d => d.severity == .warning
  match warnings with
  | [] => .ok ()
  | d :: _ => .error ⟨⟨.warningsAsErrors d.kind, none⟩, warnings.map fun w => { w with severity := .error }⟩

/-- Assembles as a configuration says and writes the files that it asks for. -/
def assembleT (ws : Workspace m) (c : Config) : ExceptT Failure m Report := do
  let report ← ExceptT.mk (Report.ofFile ws.toDisk c.options c.rootMacro c.input)
  if c.warningsAsErrors then
    refuseWarnings report
  writeOutput ws report .hex c.hexFile
  writeOutput ws report .binary c.binFile
  writeOutput ws report .sourceMap c.sourceMapFile
  return report

/-- Assembles as a configuration says and writes the files that it asks for. -/
def assemble (ws : Workspace m) (c : Config) : m (Except Failure Report) := (assembleT ws c).run

/-- A diagnostic in the format of a configuration, on lines of its own. -/
def diagnosticText (c : Config) (color : Bool) (d : Diagnostic) : Text :=
  (match c.format with
    | .json => d.toJson.compact
    | .text => d.formatWithContext color) ++ ['\n']

/-- The diagnostics that are shown. -/
def visible (c : Config) (ds : List Diagnostic) : List Diagnostic :=
  ds.filter fun d => c.emitWarnings || d.severity != .warning

/-- What a run tells its sink. -/
def logText (c : Config) (color : Bool) : Except Failure Report → Text
  | .ok r => if c.quiet then [] else (visible c r.diagnostics).flatMap (diagnosticText c color)
  | .error f =>
    (visible c f.diagnostics).flatMap (diagnosticText c color)
      ++ (if c.format == .json then [] else f.display ++ ['\n'])

/-- The outcome of a run, given what goes to the standard error stream. -/
def outcomeOf (c : Config) (stderr : Text) : Except Failure Report → Outcome
  | .ok r => { exit := 0, stdout := if c.hexToStdout then r.bytecode ++ ['\n'] else [], stderr := stderr }
  | .error _ => { exit := 1, stderr := stderr }

/-- A run with a configuration: the sink is opened first and written last. -/
def configured (ws : Workspace m) (color : Bool) (c : Config) : m Outcome := do
  match c.sink with
  | .stderr =>
    let result ← assemble ws c
    return outcomeOf c (logText c color result) result
  | .disabled =>
    let result ← assemble ws c
    return outcomeOf c [] result
  | .file path append =>
    match ← ws.openLog path append with
    | .error e =>
      return { exit := 1, stderr := "Failed to open diagnostics sink: ".toList ++ e.message ++ ['\n'] }
    | .ok () =>
      let result ← assemble ws c
      ws.writeLog path append (logText c color result)
      return outcomeOf c [] result

/-- The name and version of the program. -/
def versionText : Text := "stackforge 0.3.0\n".toList

/-- How the program is called. -/
def usageText : Text :=
  "Macro assembler for stack machine bytecode with templates, jump labels and tables\n\n".toList
    ++ "Usage: stackforge [OPTIONS] <INPUT>\n".toList

/-- A whole run of the program. -/
def commandLine (ws : Workspace m) (env : Environment) (words : List Text) : m Outcome := do
  match Arguments.read words with
  | .error .usage => return { exit := 2, stderr := usageText }
  | .error .help => return { exit := 0, stdout := usageText }
  | .error .version => return { exit := 0, stdout := versionText }
  | .ok a => match Config.ofArguments a env with
    | .error f => return { exit := 1, stderr := f.display ++ ['\n'] }
    | .ok c => configured ws env.noColor.isNone c

end Run

namespace FileTree

/-- Runs a change of the tree that may fail; a failure changes nothing. -/
def change (f : FileTree → Except FileError FileTree) : StateM FileTree (Except FileError Unit) := fun t =>
  match f t with
  | .ok t' => (.ok (), t')
  | .error e => (.error e, t)

/-- The bytes of a file, or none if there is no such file. -/
def bytesOrNone (t : FileTree) (path : Text) : Bytes :=
  match t.readBytes path with
  | .ok bytes => bytes
  | .error _ => []

/-- A log with a text written at its end, or over its start. -/
def logged (t : FileTree) (path : Text) (append : Bool) (text : Text) : Except FileError FileTree :=
  let old := t.bytesOrNone path
  let new := Text.toBytes text
  t.write path (if append then old ++ new else new ++ old.drop new.length)

/-- The tree as files to run with. -/
def workspace : Workspace (StateM FileTree) where
  read path := fun t => (t.readText path, t)
  isFile path := fun t => (t.isFile path, t)
  canonical path := fun t => (t.canonical path, t)
  write path bytes := change fun t => t.write path bytes
  openLog path append := change fun t => t.write path (if append then t.bytesOrNone path else [])
  writeLog path append text := do
    let _ ← change fun t => t.logged path append text

end FileTree
end MacroAsm
