import MacroAsm.Diagnostic
import MacroAsm.Source.Include
import MacroAsm.Source.Path

/-!
# Loading sources

* `Disk m`: what a loader asks of the files, in a monad `m`;
* `Loader.load`: a file behind everything that it includes, each file once;
* `Sources.load`: the sources of a root file, with a warning for every file that is asked for again.
-/

namespace MacroAsm

/-- What a loader asks of the files. -/
structure Disk (m : Type → Type) where
  /-- the text of a file -/
  read : Text → m (Except FileError Text)
  /-- there is a file, not a directory -/
  isFile : Text → m Bool
  /-- one text for all paths of one file -/
  canonical : Text → m Text

/-- What has been loaded. -/
structure Loaded where
  files : Sources := []
  warnings : List Diagnostic := []
  deriving DecidableEq

/-- What has been loaded so far, and the canonical paths of all files asked for. -/
structure Loading where
  seen : List Text := []
  loaded : Loaded := {}
  deriving DecidableEq

/-- Where included files are looked for, behind the directory of the file that asks, and how deep includes nest. -/
structure IncludeRules where
  roots : List Text := []
  maxDepth : Nat := 256
  deriving DecidableEq

/-- A computation that loads files. -/
abbrev Loader (m : Type → Type) := StateT Loading (ExceptT Fault m)

namespace Loader

variable {m : Type → Type} [Monad m]

/-- Asks the disk. -/
def ask {α : Type} (x : m α) : Loader m α := fun s => ExceptT.lift (x >>= fun a => pure (a, s))

/-- The first candidate that is a file. -/
def firstFile? (disk : Disk m) : List Text → Loader m (Option Text)
  | [] => return none
  | p :: ps => do if ← ask (disk.isFile p) then return some p else firstFile? disk ps

/-- The paths that a directive of a file in the directory `dir` may mean, in order. -/
def candidates (rules : IncludeRules) (dir target : Text) : List Text :=
  if Path.isAbsolute target then [target] else (dir :: rules.roots).map (Path.join · target)

/-- The file that a directive means. -/
def locate (disk : Disk m) (rules : IncludeRules) (dir : Text) (d : Directive) : Loader m Text := do
  match ← firstFile? disk (candidates rules dir d.target) with
  | some p => return p
  | none => throw (.located (.includeNotFound d.target) d.origin)

/-- The warning for a file that is asked for again. -/
def repeated (d : Directive) : Diagnostic :=
  Diagnostic.ofFault .warning (.located (.alreadyIncluded d.target) d.origin)

/-- Follows directives in order: a new file is loaded by `inner`, one seen before gets a warning. -/
def follow (disk : Disk m) (rules : IncludeRules) (inner : Text → Option Origin → Loader m Unit) (dir : Text) :
    List Directive → Loader m Unit
  | [] => return ()
  | d :: ds => do
    let path ← locate disk rules dir d
    let key ← ask (disk.canonical path)
    let s ← get
    if s.seen.contains key then
      set { s with loaded := { s.loaded with warnings := s.loaded.warnings ++ [repeated d] } }
    else
      set { s with seen := key :: s.seen }
      inner path (some d.origin)
    follow disk rules inner dir ds

/-- Loads a file behind everything that it includes, when includes may nest in `budget` files. -/
def load (disk : Disk m) (rules : IncludeRules) : Nat → Text → Option Origin → Loader m Unit
  | 0, path, site => throw ⟨.includeTooDeep rules.maxDepth path, site⟩
  | budget + 1, path, site => do
    match ← ask (disk.read path) with
    | .error e => throw ⟨.unreadableFile e path, site⟩
    | .ok text => do
      let p ← Prepared.ofText path text
      follow disk rules (load disk rules budget) (Path.parent path) p.directives
      modify fun s => { s with loaded := { s.loaded with files := s.loaded.files ++ [⟨path, p.text⟩] } }

end Loader

/-- The sources of a root file: included files first, each once. -/
def Sources.load {m : Type → Type} [Monad m] (disk : Disk m) (rules : IncludeRules) (root : Text) :
    m (Except Fault Loaded) := do
  let key ← disk.canonical root
  let outcome ← ((Loader.load disk rules (rules.maxDepth + 1) root none).run { seen := [key] }).run
  return outcome.map fun (_, s) => s.loaded

end MacroAsm
