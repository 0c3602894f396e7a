import MacroAsm.Config.Arguments
import MacroAsm.Diagnostic
import MacroAsm.Report
import MacroAsm.Text.Word

/-!
# Configuration

What a run does follows from the command line and, where that is silent, from the environment.

* `Environment`: the variables that are looked at; `Defaults`: what they say, read and checked;
* `Config.ofArguments`: the configuration of some arguments in an environment; every option on the command line beats
  its variable.
-/

namespace MacroAsm

/-- The variables that are looked at, each with its text if it is set. -/
structure Environment where
  rootMacro : Option Text := none
  includePaths : Option Text := none
  maxDepth : Option Text := none
  quiet : Option Text := none
  noWarn : Option Text := none
  warnError : Option Text := none
  errorFile : Option Text := none
  noColor : Option Text := none
  deriving DecidableEq

namespace Environment

/-- The environment that looking up variables by their names gives. -/
def gather {m : Type → Type} [Monad m] (get : String → m (Option Text)) : m Environment := do
  return {
    rootMacro := ← get "STACKFORGE_MACRO"
    includePaths := ← get "STACKFORGE_INCLUDE_PATHS"
    maxDepth := ← get "STACKFORGE_MAX_DEPTH"
    quiet := ← get "STACKFORGE_QUIET"
    noWarn := ← get "STACKFORGE_NO_WARN"
    warnError := ← get "STACKFORGE_WERROR"
    errorFile := ← get "STACKFORGE_ERROR_FILE"
    noColor := ← get "NO_COLOR" }

/-- A trimmed text; one that is blank counts as not set. -/
def textOf (v : Option Text) : Option Text := (v.map Text.trim).filter fun t => !t.isEmpty

/-- The paths between colons. -/
def pathsOf (v : Option Text) : List Text :=
  match v with
  | some t => (Text.splitWhere (· == ':') t).filter fun p => !p.isEmpty
  | none => []

/-- A size; a blank text counts as not set. -/
def sizeOf (name : String) (v : Option Text) : Except Cause (Option Nat) :=
  match textOf v with
  | none => .ok none
  | some t => match Numeral.size? t with
    | some n => .ok (some n)
    | none => .error (.invalidInteger name.toList t)

/-- A truth value in one of four spellings of either case; a blank text counts as not set. -/
def boolOf (name : String) (v : Option Text) : Except Cause (Option Bool) :=
  match textOf v with
  | none => .ok none
  | some t =>
    let t := t.map Char.toLower
    if ["1", "true", "yes", "on"].any fun s => s.toList == t then .ok (some true)
    else if ["0", "false", "no", "off"].any fun s => s.toList == t then .ok (some false)
    else .error (.invalidBoolean name.toList t)

end Environment

/-- What an environment says. -/
structure Defaults where
  rootMacro : Option Text
  includePaths : List Text
  maxDepth : Option Nat
  quiet : Option Bool
  noWarn : Option Bool
  warnError : Option Bool
  errorFile : Option Text
  deriving DecidableEq

/-- What an environment says, or the first variable that makes no sense. -/
def Defaults.ofEnvironment (env : Environment) : Except Cause Defaults := do
  let maxDepth ← Environment.sizeOf "STACKFORGE_MAX_DEPTH" env.maxDepth
  let quiet ← Environment.boolOf "STACKFORGE_QUIET" env.quiet
  let noWarn ← Environment.boolOf "STACKFORGE_NO_WARN" env.noWarn
  let warnError ← Environment.boolOf "STACKFORGE_WERROR" env.warnError
  return {
    rootMacro := Environment.textOf env.rootMacro
    includePaths := Environment.pathsOf env.includePaths
    maxDepth := maxDepth
    quiet := quiet
    noWarn := noWarn
    warnError := warnError
    errorFile := Environment.textOf env.errorFile }

/-- Where diagnostics go. -/
inductive Sink where
  | stderr
  | disabled
  | file (path : Text) (append : Bool)
  deriving DecidableEq

/-- What a run does. -/
structure Config where
  input : Text
  rootMacro : Text
  includePaths : List Text
  maxDepth : Nat
  start : Address
  hexFile : Option Text
  binFile : Option Text
  sourceMapFile : Option Text
  quiet : Bool
  format : OutputFormat
  sink : Sink
  emitWarnings : Bool
  warningsAsErrors : Bool
  deriving DecidableEq

namespace Config

/-- The macro that is assembled if none is named. -/
def defaultRoot : Text := "MAIN".toList

/-- The hexadecimal bytes are printed, since no file is to hold the program. -/
def hexToStdout (c : Config) : Bool := c.hexFile.isNone && c.binFile.isNone

/-- What assembling depends on. -/
def options (c : Config) : Options := ⟨c.includePaths, c.maxDepth, c.start⟩

/-- The root macro: a word. -/
def checkRoot (name : Text) : Except Cause Text :=
  if Text.isWord name then .ok name else .error (.invalidMacroName name)

/-- The depth limit: not zero. -/
def checkDepth (n : Nat) : Except Cause Nat := if n = 0 then .error .zeroDepth else .ok n

/-- The offset of the first byte. -/
def checkOffset (v : Option Text) : Except Cause Address :=
  match v with
  | none => .ok 0
  | some t => match Numeral.count? t with
    | some n => .ok (.ofNat n)
    | none => .error (.invalidOffset t)

/-- Warnings are kept back. -/
def hidesWarnings (a : Arguments) (d : Defaults) : Bool :=
  a.noWarn || (!a.warnError && d.noWarn.getD false)

/-- Where diagnostics go. -/
def sinkOf (a : Arguments) (d : Defaults) : Sink :=
  if a.noError then .disabled
  else match a.errorFile.or d.errorFile with
    | some path => .file path a.errorAppend
    | none => .stderr

/-- The configuration of some arguments, given what the environment says. -/
def ofDefaults (a : Arguments) (d : Defaults) : Except Cause Config := do
  let rootMacro ← checkRoot ((a.rootMacro.or d.rootMacro).getD defaultRoot)
  let maxDepth ← checkDepth ((a.maxDepth.or d.maxDepth).getD 256)
  let start ← checkOffset a.offset
  return {
    input := a.input
    rootMacro := rootMacro
    includePaths := d.includePaths ++ a.includePaths
    maxDepth := maxDepth
    start := start
    hexFile := a.outfile
    binFile := a.binFile
    sourceMapFile := a.sourceMap
    quiet := a.quiet || d.quiet.getD false
    format := a.format
    sink := sinkOf a d
    emitWarnings := !hidesWarnings a d
    warningsAsErrors := a.warnError || (!hidesWarnings a d && d.warnError.getD false) }

/-- The configuration of some arguments in an environment. -/
def ofArguments (a : Arguments) (env : Environment) : Except Failure Config :=
  match (Defaults.ofEnvironment env).bind (ofDefaults a) with
  | .ok c => .ok c
  | .error cause => .error ⟨⟨cause, none⟩, []⟩

end Config
end MacroAsm
