import MacroAsm.Diagnostic
import MacroAsm.Expansion
import MacroAsm.Macro
import MacroAsm.StackOffset
import MacroAsm.Target
import MacroAsm.Text.Word

/-!
# Expanding macros

Expanding a macro lays out its operations one behind the other; calls, template arguments, sizes and constants expand
other macros on the way. A template argument that is no macro becomes one of a single operation, which the store keeps
beside the macros declared. Each macro that is being expanded is a *frame*; the depth limit bounds their number, which
is what makes expansion end.

* `Store`: the macros known so far; `Engine`: a computation that reads and extends the store and may fail, the store
  outliving a failure;
* `Engine.layout`: the code of some operations, given how to expand a macro inside them, for any computation that has a
  store and may fail;
* `Engine.expand`: the expansion of a macro within a number of further frames;
* `Processor`: expansion, size and value from outside, with no frame active.
-/

namespace MacroAsm

/-- What bounds expansion. -/
structure Limits where
  maxDepth : Nat := 256
  /-- a macro may not be entered again with the same arguments while it is active -/
  refuseCycles : Bool := true
  deriving DecidableEq

/-- The macros known so far and the number that the next macro made for a template argument gets. -/
structure Store where
  macros : MacroTable := {}
  /-- the macros made for template arguments, the newest in front -/
  inlines : List Macro := []
  inlineCount : Nat := 0
  deriving DecidableEq

namespace Store

def find? (s : Store) (name : Text) : Option Macro :=
  match s.macros.find? name with
  | some m => some m
  | none => s.inlines.find? fun m => m.name == name

def contains (s : Store) (name : Text) : Bool := (s.find? name).isSome

def size (s : Store) : Nat := s.macros.size + s.inlines.length

/-- Adds a macro made for a template argument; its name has to be new. -/
def insertInline (s : Store) (m : Macro) : Except Fault Store :=
  if s.contains m.name then .error (.located (.duplicateMacro m.name) m.origin)
  else .ok { s with inlines := m :: s.inlines }

end Store

/-- A computation on the store that may fail; the store outlives a failure. -/
abbrev Engine := ExceptT Fault (StateM Store)

/-- A macro that is being expanded, with its arguments. Frames are only ever compared, so they hold strings. -/
structure Frame where
  name : String
  args : List String
  deriving DecidableEq

/-- The frame of a macro with its arguments. -/
def Frame.of (name : Text) (args : List Text) : Frame := ⟨String.ofList name, args.map String.ofList⟩

/-- What is asked of an expansion: a macro, the absolute offset of its first byte, argument groups as written, and the
origin of whoever asks. -/
structure Request where
  name : Text
  start : Address
  args : List Text
  site : Option Origin
  deriving DecidableEq

/-- The values of the template parameters of a frame. -/
structure Bindings where
  params : List Text
  args : List Text
  deriving DecidableEq

namespace Bindings

/-- The value of a parameter; of two with one name the first counts. -/
def lookup (b : Bindings) (word : Text) : Option Text :=
  (b.params.zip b.args |>.find? fun e => e.1 == word).map (·.2)

/-- Values put in for parameters. -/
def substitute (b : Bindings) (t : Text) : Text := Text.replaceWords b.lookup t

end Bindings

/-- The names on the way from a frame that is active back to itself; `active` has the newest frame first. -/
def cyclePath (active : List Frame) (f : Frame) : List Text :=
  f.name.toList :: (active.takeWhile (· != f)).reverse.map (·.name.toList) ++ [f.name.toList]

/-- The macro of a request and its arguments one by one, unless it is unknown, has another number of parameters, or is
active already. -/
def permit (limits : Limits) (store : Store) (active : List Frame) (q : Request) :
    Except Fault (Macro × List Text) :=
  match store.find? q.name with
  | none => .error ⟨.unknownMacro q.name, q.site⟩
  | some m =>
    let args := q.args.flatMap Text.splitArguments
    let blame := q.site.getD m.origin
    if m.params.length != args.length then
      .error (.located (.argumentCount q.name m.params.length args.length) blame)
    else if limits.refuseCycles && active.contains (.of q.name args) then
      .error (.located (.cycle (cyclePath active (.of q.name args))) blame)
    else .ok (m, args)

namespace Engine

section Operations

variable {μ : Type → Type} [Monad μ] [MonadStateOf Store μ] [MonadExceptOf Fault μ] [MonadLiftT (Except Fault) μ]

/-- Fails with a cause at an origin. -/
def fail {α : Type} (cause : Cause) (o : Origin) : μ α := throw (.located cause o)

/-- The size of the expansion of a macro, measured at offset zero; it is a count. -/
def codeSize (inner : Request → μ Expansion) (callee : Text) (args : List Text) (site : Origin) :
    μ Nat := do
  return Numeral.wrapCount (← inner ⟨callee, 0, args, some site⟩).size

/-- The value of a macro whose only operation is a push or a size. -/
def constant (inner : Request → μ Expansion) (site : Origin) (m : Macro) : μ Nat :=
  match m.ops with
  | [⟨.push _ data, _, _⟩] => return Bytes.toNat data
  | [⟨.codeSize callee args, _, o⟩] => codeSize inner callee args o
  | _ => fail (.notConstant m.name) site

/-- The value of an atom: a numeral or the name of a constant. -/
def atomValue (inner : Request → μ Expansion) (site : Origin) (t : Text) : μ Nat := do
  if t.isEmpty then fail (.missingOperand t) site
  else match Numeral.value? t with
    | some n => return Word.wrap n
    | none => match (← get).find? t with
      | some m => constant inner site m
      | none => fail (.unreadableLiteral t) site

/-- The value of a literal; blanks in it count for nothing. -/
def evaluate (inner : Request → μ Expansion) (t : Text) (site : Origin) : μ Nat :=
  (Arith.read (Text.compact t)).eval (atomValue inner site)

/-- The operation that a template argument stands for; nothing if it is the name of a macro. -/
def argumentKind (inner : Request → μ Expansion) (arg : Text) (site : Origin) :
    μ (Option OpKind) := do
  if Text.isLiteral arg then
    match OpKind.pushValue? (← evaluate inner arg site) with
    | some kind => return some kind
    | none => fail (.literalDoesNotFit arg) site
  else if (StackOffset.read? arg).isSome then
    match StackOffset.opcodeOf arg with
    | .ok b => return some (.opcode b)
    | .error cause => fail cause site
  else match Opcode.ofMnemonic? arg with
    | some b => return some (.opcode b)
    | none =>
      if (← get).contains arg then return none
      else match Text.stripBrackets? arg with
        | some inside => return some (.template (Text.trim inside))
        | none =>
          if Text.isWord arg then return some (.labelRef arg)
          else fail (.unresolvedArgument arg) site

/-- The name of the `n`th macro made for a template argument. No declared name holds a hyphen. -/
def inlineName (arg : Text) (n : Nat) : Text :=
  "inline-".toList ++ arg ++ '-' :: Text.decimal n

/-- The macro of a single operation that stands for a template argument of `op`. -/
def inlineMacro (name arg : Text) (kind : OpKind) (op : Op) : Macro where
  name := name
  takes := 0
  returns := 0
  params := []
  ops := [{ op with kind := kind }]
  body := arg
  origin := op.origin

/-- Adds the macro for a template argument of `op` and gives its name. -/
def addInline (arg : Text) (kind : OpKind) (op : Op) : μ Text := do
  let s ← get
  let name := inlineName arg s.inlineCount
  let counted := { s with inlineCount := s.inlineCount + 1 }
  set counted
  set (← counted.insertInline (inlineMacro name arg kind op))
  return name

/-- The name of the macro that a template argument of `op` stands for. -/
def resolveArgument (inner : Request → μ Expansion) (arg : Text) (op : Op) : μ Text := do
  match ← argumentKind inner arg op.origin with
  | some kind => addInline arg kind op
  | none => return arg

/-- A template argument with arguments of its own, or all of it without. -/
def argumentTarget (value : Text) : Text × List Text :=
  match Target.split? value with
  | some (name, a :: args) => (name, a :: args)
  | _ => (Text.trim value, [])

/-- The code of one operation at an absolute offset; `inner` expands the macros that it asks for. -/
def layoutOp (inner : Request → μ Expansion) (b : Bindings) (start : Address) (op : Op) : μ Expansion :=
  match op.kind with
  | .opcode byte => return .ofBytes [byte] op.origin
  | .push byte data =>
    if Opcode.pushWidth? byte = some data.length then return .ofBytes (byte :: data) op.origin
    else fail (.pushMismatch byte data.length) op.origin
  | .labelDef label => return .labelDef label start op.origin
  | .labelRef label => return .labelRef label op.origin
  | .tableStart table => return .tableRef table start op.origin
  | .call callee args => inner ⟨callee, start, args.map b.substitute, some op.origin⟩
  | .template text => do
    let (target, args) := argumentTarget (b.substitute text)
    let name ← resolveArgument inner target op
    inner ⟨name, start, args, some op.origin⟩
  | .codeSize callee args => do
    let data := Bytes.ofNat (← codeSize inner callee (args.map b.substitute) op.origin)
    match Opcode.pushOf? data.length with
    | some byte => return .ofBytes (byte :: data) op.origin
    | none => fail (.codeSizeTooWide callee) op.origin

/-- The code of some operations of a frame that starts at the absolute offset `start`, one behind the other; `done`
bytes stand before them. -/
def layout (inner : Request → μ Expansion) (b : Bindings) (start : Address) : Nat → List Op → μ Expansion
  | _, [] => return {}
  | done, op :: ops => do
    let first ← layoutOp inner b (start + done) op
    let rest ← layout inner b start (done + first.size) ops
    return first.shift done ++ rest

/-- The expansion of a macro, given how the macros inside it are expanded. -/
def expandBody (inner : Request → μ Expansion) (m : Macro) (args : List Text) (start : Address) :
    μ Expansion := do
  let laid ← layout inner ⟨m.params, args⟩ start 0 m.ops
  laid.resolve

/-- The macro of a request and its arguments, from the macros known now. -/
def enter (limits : Limits) (active : List Frame) (q : Request) : μ (Macro × List Text) := do
  permit limits (← get) active q

end Operations

/-- The expansion of a macro when `budget` more frames may be entered. -/
def expand (limits : Limits) : Nat → List Frame → Request → Engine Expansion
  | 0, active, q => do
    let (m, _) ← enter limits active q
    fail (.tooDeep limits.maxDepth q.name) (q.site.getD m.origin)
  | budget + 1, active, q => do
    let (m, args) ← enter limits active q
    expandBody (expand limits budget (.of q.name args :: active)) m args q.start

end Engine

/-! ## from outside -/

namespace Processor

/-- The expansion of a macro with no frame active. -/
def expand (limits : Limits) (q : Request) : Engine Expansion :=
  Engine.expand limits limits.maxDepth [] q

/-- The size of the expansion of a macro. -/
def codeSize (limits : Limits) (callee : Text) (args : List Text) (site : Origin) : Engine Nat :=
  Engine.codeSize (expand limits) callee args site

/-- The value of a literal. -/
def evaluate (limits : Limits) (t : Text) (site : Origin) : Engine Nat :=
  Engine.evaluate (expand limits) t site

/-- The explanation of a label reference without a label. -/
def unmatchedDiagnostic (r : LabelRef) : Diagnostic :=
  { Diagnostic.ofFault .error (.located (.unmatchedLabel r.label) r.origin) with
    help := ["check for a macro call missing its '()' or a misspelled label or opcode".toList] }

/-- An expansion that leaves no label reference open. -/
def closed (root : Text) (e : Expansion) : Except Failure Expansion :=
  if e.unmatched.isEmpty then .ok e
  else .error ⟨⟨.unmatchedLabels root (e.unmatched.map (·.label)), none⟩, e.unmatched.map unmatchedDiagnostic⟩

/-- The expansion of the root macro of a program; every label reference has to have its label. -/
def process (limits : Limits) (root : Text) (start : Address) (s : Store) : Except Failure Expansion × Store :=
  match (expand limits ⟨root, start, [], none⟩).run s with
  | (.ok e, s') => (closed root e, s')
  | (.error f, s') => (.error (Failure.ofFault f), s')

end Processor
end MacroAsm
