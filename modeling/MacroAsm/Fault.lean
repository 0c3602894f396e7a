import MacroAsm.Origin
import MacroAsm.Opcode

/-!
# Faults

A fault is a cause and, where there is one, the origin of the text that is to blame.

* `Kind`: the classes of causes; `Cause`: every way in which assembling can fail;
* `Cause.kind`, `Cause.message`: the class and the wording of a cause;
* `Fault.display`: the wording with its origin behind it.
-/

namespace MacroAsm

/-- The classes of causes. -/
inductive Kind where
  /-- malformed or unknown token or declaration -/
  | parse
  /-- unknown, repeated or forbidden name -/
  | name
  /-- wrong number of arguments -/
  | arity
  /-- value outside the range that can be encoded -/
  | range
  /-- label reference without a label -/
  | unmatchedLabel
  /-- missing table or spoiled placeholder -/
  | table
  /-- expansion that re-enters itself or nests too deep -/
  | recursion
  | io
  | commandLine
  | preprocess
  deriving DecidableEq

/-- What a declaration declares. -/
inductive DeclKind where
  | defn
  | jumpTable
  | packedJumpTable
  | codeTable
  deriving DecidableEq

/-- The word for it in messages. -/
def DeclKind.describe : DeclKind → Text
  | .defn => "macro".toList
  | .jumpTable => "jumptable".toList
  | .packedJumpTable => "packed jumptable".toList
  | .codeTable => "bytecode table".toList

/-- Why the operating system refused a file. -/
inductive FileError where
  | notFound
  | notDirectory
  | isDirectory
  | nameTooLong
  | nulInPath
  | notUtf8
  | other (message : Text)
  deriving DecidableEq

/-- The wording of the operating system. -/
def FileError.message : FileError → Text
  | .notFound => "No such file or directory (os error 2)".toList
  | .notDirectory => "Not a directory (os error 20)".toList
  | .isDirectory => "Is a directory (os error 21)".toList
  | .nameTooLong => "File name too long (os error 36)".toList
  | .nulInPath => "file name contained an unexpected NUL byte".toList
  | .notUtf8 => "stream did not contain valid UTF-8".toList
  | .other m => m

/-- A file that a run writes. -/
inductive OutputKind where
  | hex
  | binary
  | sourceMap
  deriving DecidableEq

/-- The word for it in messages. -/
def OutputKind.describe : OutputKind → Text
  | .hex => "hex".toList
  | .binary => "binary".toList
  | .sourceMap => "source map".toList

/-- Every way in which assembling can fail. -/
inductive Cause where
  -- reading the tokens of a body
  | builtinWithoutName (builtin : Text)
  | malformedCodeSize (argument : Text)
  | malformedTableName (name : Text)
  | unknownTable (name : Text)
  | malformedHex (token : Text)
  | literalTooWide (digits : Text)
  | invalidPush (digits : Text)
  | mixedArguments (callee : Text)
  | malformedTemplate
  | labelRedefined (label : Text)
  | unreadableToken (line : Text)
  -- reading declarations
  | lateInclude
  | unreadableLine (line : Nat) (file text : Text)
  | paramsWithoutMacro
  | unclosedParams
  | invalidParam (param : Text)
  | missingName (kind : DeclKind)
  | forbiddenName (kind : DeclKind) (name : Text)
  | missingEquals (rest : Text)
  | missingBrace (rest : Text)
  | invalidParamCount (name : Text)
  | missingCount (keyword : Text)
  | invalidCount (keyword inner : Text)
  | unclosedBody (name : Text)
  | invalidTableLabel (table label : Text)
  | invalidTableEntry (table token : Text)
  | duplicateMacro (name : Text)
  | duplicateTable (name : Text)
  -- arithmetic
  | missingOperand (text : Text)
  | notConstant (name : Text)
  | unreadableLiteral (text : Text)
  | notStackOffset (text : Text)
  | stackPosition (base : Text) (sign : Char) (offset : Text) (result : Option Nat)
  | unknownStackOpcode (mnemonic : Text)
  -- expansion
  | unknownMacro (name : Text)
  | argumentCount (name : Text) (expected given : Nat)
  | cycle (names : List Text)
  | tooDeep (limit : Nat) (name : Text)
  | pushMismatch (opcode : Opcode) (width : Nat)
  | codeSizeTooWide (name : Text)
  | literalDoesNotFit (argument : Text)
  | unresolvedArgument (argument : Text)
  | notAPlaceholder (offset : Nat)
  | offsetTooLarge (value : Nat)
  | unmatchedLabels (root : Text) (labels : List Text)
  | unmatchedLabel (label : Text)
  -- linking
  | entryTooLarge (table label : Text) (target : Nat)
  | unknownEntry (table label : Text)
  | unknownTableStart (table : Text)
  | placeholderBeforeProgram (offset : Nat)
  | unpatched (offset : Nat)
  -- source files
  | malformedInclude (line : Text)
  | includeInMemory (target : Text)
  | includeTooDeep (limit : Nat) (file : Text)
  | unreadableFile (error : FileError) (file : Text)
  | includeNotFound (target : Text)
  | alreadyIncluded (target : Text)
  -- command line
  | invalidInteger (setting value : Text)
  | invalidBoolean (setting value : Text)
  | invalidMacroName (name : Text)
  | zeroDepth
  | invalidOffset (text : Text)
  | warningsAsErrors (kind : Kind)
  | unwritableFile (output : OutputKind) (error : FileError) (file : Text)
  /-- a cause worded by the caller -/
  | custom (kind : Kind) (message : Text) (about : Option Text)
  deriving DecidableEq

/-- A message, with what it is about behind a colon. -/
def phrase (message : Text) (about : Option Text) : Text :=
  match about with
  | some a => message ++ ": ".toList ++ a
  | none => message

namespace Cause

/-- The class of a cause. -/
def kind : Cause → Kind
  | builtinWithoutName _ | malformedCodeSize _ | malformedTableName _ | malformedHex _ | literalTooWide _
  | invalidPush _ | mixedArguments _ | malformedTemplate | unreadableToken _ => .parse
  | unknownTable _ | labelRedefined _ => .name
  | lateInclude | unreadableLine .. | paramsWithoutMacro | unclosedParams | invalidParam _ | missingName _
  | missingEquals _ | missingBrace _ | invalidParamCount _ | missingCount _ | invalidCount .. | unclosedBody _
  | invalidTableLabel .. | invalidTableEntry .. => .parse
  | forbiddenName .. | duplicateMacro _ | duplicateTable _ => .name
  | missingOperand _ | notConstant _ | unreadableLiteral _ | notStackOffset _ | unknownStackOpcode _ => .parse
  | stackPosition .. => .range
  | unknownMacro _ => .name
  | argumentCount .. | pushMismatch .. => .arity
  | cycle _ | tooDeep .. => .recursion
  | codeSizeTooWide _ | literalDoesNotFit _ | offsetTooLarge _ | entryTooLarge .. => .range
  | unresolvedArgument _ => .parse
  | notAPlaceholder _ | unknownEntry .. | unknownTableStart _ | placeholderBeforeProgram _ | unpatched _ => .table
  | unmatchedLabels .. | unmatchedLabel _ => .unmatchedLabel
  | malformedInclude _ | includeInMemory _ | includeTooDeep .. | alreadyIncluded _ => .preprocess
  | unreadableFile .. | includeNotFound _ | unwritableFile .. => .io
  | invalidInteger .. | invalidBoolean .. | invalidMacroName _ | zeroDepth | invalidOffset _ => .commandLine
  | warningsAsErrors k => k
  | custom k _ _ => k

/-- The two lower-case hexadecimal digits of an opcode, marked `0x`. -/
def opcodeText (b : Opcode) : Text := "0x".toList ++ Bytes.hexDigits b

/-- The wording of a cause. -/
def message : Cause → Text
  | builtinWithoutName b => phrase "expected parenthesised name after".toList b
  | malformedCodeSize a => phrase "malformed __codesize argument".toList a
  | malformedTableName n => phrase "malformed table name".toList n
  | unknownTable n => phrase "unknown table".toList n
  | malformedHex t => phrase "malformed hex literal".toList t
  | literalTooWide d => phrase "literal is wider than 32 bytes".toList d
  | invalidPush d => phrase "invalid push literal".toList d
  | mixedArguments n => phrase "macro call mixes template and parenthesised arguments".toList n
  | malformedTemplate => "malformed template reference".toList
  | labelRedefined l => phrase "jump label has already been defined".toList l
  | unreadableToken l => phrase "cannot parse token".toList l
  | lateInclude => "#include statements must come before any other declarations".toList
  | unreadableLine n f t =>
    phrase ("could not process line ".toList ++ Text.decimal n ++ " in ".toList ++ f) t
  | paramsWithoutMacro => "template parameters must be followed by a macro declaration".toList
  | unclosedParams => "unterminated template parameter list".toList
  | invalidParam p => phrase "invalid template parameter".toList p
  | missingName k => "expected ".toList ++ k.describe ++ " name".toList
  | forbiddenName k n =>
    k.describe ++ " '".toList ++ n ++ "' does not conform to naming rules; ".toList
      ++ "names must contain at least one letter and must not start with '0x'".toList
  | missingEquals r => phrase "expected '=' after macro name".toList r
  | missingBrace r => phrase "expected '\x7b' to open the body".toList r
  | invalidParamCount n => phrase "invalid parameter count for macro".toList n
  | missingCount k => "expected ".toList ++ k ++ "(n) in macro declaration".toList
  | invalidCount k i => phrase ("invalid ".toList ++ k ++ " count".toList) i
  | unclosedBody n => phrase "unterminated body for".toList n
  | invalidTableLabel t l => phrase ("invalid label in jumptable '".toList ++ t ++ "'".toList) l
  | invalidTableEntry t e =>
    phrase ("unexpected token in bytecode table '".toList ++ t
      ++ "'; entries must be decimal or hexadecimal literals".toList) e
  | duplicateMacro n => phrase "duplicate macro".toList n
  | duplicateTable n => phrase "duplicate table".toList n
  | missingOperand t => phrase "missing operand in literal".toList t
  | notConstant n => phrase "macro is not a literal".toList n
  | unreadableLiteral t => phrase "cannot process literal".toList t
  | notStackOffset t => phrase "not a modified stack opcode".toList t
  | stackPosition b s o r =>
    "result of ".toList ++ b ++ s :: o ++ " is ".toList
      ++ (match r with | some n => Text.decimal n | none => "negative".toList)
      ++ " but must be between 1 and 16 inclusive".toList
  | unknownStackOpcode m => phrase "unknown stack opcode".toList m
  | unknownMacro n => phrase "unknown macro".toList n
  | argumentCount n e g =>
    "macro ".toList ++ n ++ " expects ".toList ++ Text.decimal e
      ++ " template arguments but was given ".toList ++ Text.decimal g
  | cycle ns => phrase "recursive macro expansion".toList (Text.join " -> ".toList ns)
  | tooDeep d n => phrase ("macro nesting exceeds the maximum depth of ".toList ++ Text.decimal d) n
  | pushMismatch b w =>
    "push opcode ".toList ++ opcodeText b ++ " does not match its ".toList ++ Text.decimal w
      ++ "-byte argument".toList
  | codeSizeTooWide n => phrase "code size does not fit a push".toList n
  | literalDoesNotFit a => phrase "literal does not fit a push".toList a
  | unresolvedArgument a => phrase "cannot resolve template argument".toList a
  | notAPlaceholder o => "expected an unpatched placeholder at offset ".toList ++ Text.decimal o
  | offsetTooLarge v =>
    "offset 0x".toList ++ Text.hexadecimal v ++ " does not fit a two-byte placeholder".toList
  | unmatchedLabels n ls =>
    phrase ("originating macro ".toList ++ n ++ ", unknown jump labels, cannot compile".toList)
      (Text.join ", ".toList ls)
  | unmatchedLabel l => phrase "unknown jump label".toList l
  | entryTooLarge t l o =>
    "offset 0x".toList ++ Text.hexadecimal o ++ " of label '".toList ++ l
      ++ "' does not fit jumptable '".toList ++ t ++ "'".toList
  | unknownEntry t l =>
    phrase ("jumptable '".toList ++ t ++ "' entry is not a known label; slot zero-filled".toList) l
  | unknownTableStart t => phrase "unknown table referenced by __tablestart".toList t
  | placeholderBeforeProgram o =>
    "table placeholder offset ".toList ++ Text.decimal o ++ " precedes the program".toList
  | unpatched o => "placeholder at offset ".toList ++ Text.decimal o ++ " was never patched".toList
  | malformedInclude l => phrase "malformed #include, expected a quoted path".toList l
  | includeInMemory t => phrase "#include is not available for in-memory source".toList t
  | includeTooDeep n f => phrase ("include nesting deeper than ".toList ++ Text.decimal n) f
  | unreadableFile e f => phrase ("cannot read source file (".toList ++ e.message ++ ")".toList) f
  | includeNotFound t => phrase "include file not found".toList t
  | alreadyIncluded t => phrase "file already included, skipping".toList t
  | invalidInteger v t => phrase ("Invalid integer value for ".toList ++ v) t
  | invalidBoolean v t => phrase ("Invalid boolean value for ".toList ++ v) t
  | invalidMacroName n => phrase "Invalid macro name".toList n
  | zeroDepth => "--max-depth must be at least 1".toList
  | invalidOffset t => phrase "Invalid --offset value".toList t
  | warningsAsErrors _ => "Warnings treated as errors (-Werror)".toList
  | unwritableFile o e f =>
    phrase ("Error writing ".toList ++ o.describe ++ " file: ".toList ++ e.message) f
  | custom _ m a => phrase m a

end Cause

/-- A cause and the origin of what is to blame. -/
structure Fault where
  cause : Cause
  origin : Option Origin := none
  deriving DecidableEq

namespace Fault

/-- A fault with a known origin. -/
def located (cause : Cause) (origin : Origin) : Fault := ⟨cause, some origin⟩

def kind (f : Fault) : Kind := f.cause.kind

def message (f : Fault) : Text := f.cause.message

/-- The message with the origin in parentheses behind it. -/
def display (f : Fault) : Text :=
  match f.origin with
  | some o => f.message ++ " (".toList ++ o.display ++ ")".toList
  | none => f.message

end Fault

/-- What a sequence of two steps gives is given by the second. -/
theorem ok_of_bind {α β ε : Type} {x : Except ε α} {f : α → Except ε β} {b : β}
    (h : (x >>= f) = .ok b) : ∃ a, x = .ok a ∧ f a = .ok b := by
  cases x with
  | error e => cases h
  | ok a => exact ⟨a, rfl, h⟩

theorem eq_ok_of_toOption {ε α : Type} {x : Except ε α} {a : α} (h : x.toOption = some a) : x = .ok a := by
  cases x with
  | error e => cases h
  | ok b => exact congrArg Except.ok (Option.some.inj h)

end MacroAsm
