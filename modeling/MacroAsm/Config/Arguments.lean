import MacroAsm.Numeral

/-!
# Command-line arguments

* `Arguments`: what the command line asks for;
* `Arguments.read`: the arguments of a list of words, or why there are none: a wrong use, or a question about the
  program itself.
-/

namespace MacroAsm

/-- The form of diagnostics. -/
inductive OutputFormat where
  | text
  | json
  deriving DecidableEq

/-- An option without a value. -/
inductive Flag where
  | quiet
  | errorAppend
  | noError
  | noWarn
  | warnError
  deriving DecidableEq

/-- An option with a value. -/
inductive Setting where
  | rootMacro
  | includePath
  | maxDepth
  | offset
  | outfile
  | binFile
  | sourceMap
  | format
  | errorFile
  deriving DecidableEq

/-- What an option name stands for. -/
inductive Switch where
  | flag (f : Flag)
  | setting (s : Setting)
  | help
  | version
  deriving DecidableEq

/-- What the command line asks for. -/
structure Arguments where
  input : Text
  rootMacro : Option Text := none
  includePaths : List Text := []
  maxDepth : Option Nat := none
  offset : Option Text := none
  outfile : Option Text := none
  binFile : Option Text := none
  sourceMap : Option Text := none
  format : OutputFormat := .text
  quiet : Bool := false
  errorFile : Option Text := none
  errorAppend : Bool := false
  noError : Bool := false
  noWarn : Bool := false
  warnError : Bool := false
  deriving DecidableEq

/-- Why a command line gives no arguments. -/
inductive Refusal where
  | usage
  | help
  | version
  deriving DecidableEq

/-- A size that fits 64 bits: decimal digits, with an optional plus in front. -/
def Numeral.size? (t : Text) : Option Nat :=
  (Numeral.digits? 10 digitValue? ((Text.dropStart? ['+'] t).getD t)).filter (· < Numeral.countLimit)

/-- The format of a name. -/
def OutputFormat.ofName? (t : Text) : Option OutputFormat :=
  if t = "text".toList then some .text else if t = "json".toList then some .json else none

namespace Setting

/-- Several values may be given. -/
def repeats : Setting → Bool
  | includePath => true
  | _ => false

/-- The value is one that the option takes. -/
def accepts : Setting → Text → Bool
  | rootMacro, _ | offset, _ => true
  | maxDepth, v => (Numeral.size? v).isSome
  | format, v => (OutputFormat.ofName? v).isSome
  | includePath, v | outfile, v | binFile, v | sourceMap, v | errorFile, v => !v.isEmpty

end Setting

namespace Switch

/-- The names behind two hyphens. -/
def longNames : List (String × Switch) :=
  [("macro", .setting .rootMacro), ("include-path", .setting .includePath), ("max-depth", .setting .maxDepth),
    ("offset", .setting .offset), ("outfile", .setting .outfile), ("bin", .setting .binFile),
    ("sourcemap", .setting .sourceMap), ("format", .setting .format), ("quiet", .flag .quiet),
    ("error", .setting .errorFile), ("error-append", .flag .errorAppend), ("no-error", .flag .noError),
    ("no-warn", .flag .noWarn), ("Werror", .flag .warnError), ("help", .help), ("version", .version)]

/-- The names behind one hyphen. -/
def shortNames : List (Char × Switch) :=
  [('m', .setting .rootMacro), ('I', .setting .includePath), ('o', .setting .outfile), ('b', .setting .binFile),
    ('s', .setting .sourceMap), ('q', .flag .quiet), ('E', .setting .errorFile), ('w', .flag .noWarn),
    ('h', .help), ('V', .version)]

def ofLong? (name : Text) : Option Switch := (longNames.find? fun e => e.1.toList == name).map (·.2)

def ofShort? (c : Char) : Option Switch := (shortNames.find? fun e => e.1 == c).map (·.2)

end Switch

/-- What has been given on a command line so far. -/
structure Given where
  input : Option Text := none
  flags : List Flag := []
  values : List (Setting × Text) := []
  deriving DecidableEq

namespace Given

/-- The value of an option, the first if there are several. -/
def value? (g : Given) (s : Setting) : Option Text := (g.values.find? fun e => e.1 == s).map (·.2)

/-- All values of an option, in order. -/
def valuesOf (g : Given) (s : Setting) : List Text := (g.values.filter fun e => e.1 == s).map (·.2)

/-- Takes a flag, once. -/
def setFlag (g : Given) (f : Flag) : Except Refusal Given :=
  if g.flags.contains f then .error .usage else .ok { g with flags := g.flags ++ [f] }

/-- Takes a value, once unless the option repeats. -/
def setValue (g : Given) (s : Setting) (v : Text) : Except Refusal Given :=
  if s.accepts v && (s.repeats || (g.value? s).isNone) then .ok { g with values := g.values ++ [(s, v)] }
  else .error .usage

/-- Takes the input file, once. -/
def setInput (g : Given) (v : Text) : Except Refusal Given :=
  if g.input.isSome || v.isEmpty then .error .usage else .ok { g with input := some v }

/-- Takes input files only. -/
def setInputs (g : Given) : List Text → Except Refusal Given
  | [] => .ok g
  | v :: vs => do (← g.setInput v).setInputs vs

/-- Takes the option names behind one hyphen; an option may be left that waits for its value. -/
def setShorts (g : Given) : Text → Except Refusal (Given × Option Setting)
  | [] => .ok (g, none)
  | c :: rest => match Switch.ofShort? c with
    | none => .error .usage
    | some .help => .error .help
    | some .version => .error .version
    | some (.flag f) => do (← g.setFlag f).setShorts rest
    | some (.setting s) =>
      if rest.isEmpty then .ok (g, some s)
      else do return (← g.setValue s ((Text.dropStart? ['='] rest).getD rest), none)

/-- Takes the option name behind two hyphens, with a value behind an equals sign if there is one; an option may be
left that waits for its value. -/
def setLong (g : Given) (name : Text) (value : Option Text) : Except Refusal (Given × Option Setting) :=
  match Switch.ofLong? name, value with
  | some (.setting s), some v => do return (← g.setValue s v, none)
  | some (.setting s), none => .ok (g, some s)
  | some (.flag f), none => do return (← g.setFlag f, none)
  | some .help, none => .error .help
  | some .version, none => .error .version
  | _, _ => .error .usage

/-- Takes one word that starts with a hyphen. -/
def setSwitch (g : Given) (word : Text) : Except Refusal (Given × Option Setting) :=
  match Text.dropStart? "--".toList word with
  | some long =>
    let name := long.takeWhile (· != '=')
    g.setLong name (if name.length < long.length then some (long.drop (name.length + 1)) else none)
  | none => g.setShorts (word.drop 1)

/-- A word that names options: a hyphen and more. -/
def isSwitch (word : Text) : Bool := word.head? == some '-' && 1 < word.length

/-- Takes words in order; `waiting` is an option whose value comes next. -/
def setAll (g : Given) : Option Setting → List Text → Except Refusal Given
  | none, [] => .ok g
  | some _, [] => .error .usage
  | waiting, word :: words =>
    if isSwitch word then
      if waiting.isSome then .error .usage
      else if word = "--".toList then g.setInputs words
      else match g.setSwitch word with
        | .error r => .error r
        | .ok (g', next) => setAll g' next words
    else match waiting with
      | some s => match g.setValue s word with
        | .error r => .error r
        | .ok g' => setAll g' none words
      | none => match g.setInput word with
        | .error r => .error r
        | .ok g' => setAll g' none words

/-- No two options exclude each other and none lacks another that it needs. -/
def consistent (g : Given) : Bool :=
  !(g.flags.contains .noError && (g.flags.contains .errorAppend || (g.value? .errorFile).isSome))
    && !(g.flags.contains .noWarn && g.flags.contains .warnError)
    && (!g.flags.contains .errorAppend || (g.value? .errorFile).isSome)

/-- The arguments that were given. -/
def arguments? (g : Given) : Option Arguments :=
  match g.input with
  | none => none
  | some input =>
    if g.consistent then
      some {
        input := input
        rootMacro := g.value? .rootMacro
        includePaths := g.valuesOf .includePath
        maxDepth := (g.value? .maxDepth).bind Numeral.size?
        offset := g.value? .offset
        outfile := g.value? .outfile
        binFile := g.value? .binFile
        sourceMap := g.value? .sourceMap
        format := ((g.value? .format).bind OutputFormat.ofName?).getD .text
        quiet := g.flags.contains .quiet
        errorFile := g.value? .errorFile
        errorAppend := g.flags.contains .errorAppend
        noError := g.flags.contains .noError
        noWarn := g.flags.contains .noWarn
        warnError := g.flags.contains .warnError }
    else none

end Given

/-- The arguments of the words behind the program's name. -/
def Arguments.read (words : List Text) : Except Refusal Arguments :=
  match Given.setAll {} none words with
  | .error r => .error r
  | .ok g => match g.arguments? with
    | some a => .ok a
    | none => .error .usage

end MacroAsm
