import MacroAsm.Text.Blank

/-!
# Where a piece of source stands

* `Origin`: a file, a line of it and the text of that line;
* `Origin.between file before rest`: the origin of the place between two parts of a file's text;
* `Sources`: the files of a program in reading order; `Sources.text` joins them without a gap;
* `Lines`: the lines of all files by the byte at which they start; `Lines.originAt` leads a byte of the joined text
  back to its file and line.
-/

namespace MacroAsm

/-- A line of a source file. Every byte of a program carries one, so its texts are strings, which many bytes share and
which are compared at once. -/
structure Origin where
  file : String
  line : Nat
  text : String
  deriving DecidableEq

namespace Origin

/-- The file and the line number. -/
def display (o : Origin) : Text := o.file.toList ++ ':' :: Text.decimal o.line

/-- The text without the carriage returns at its end. -/
def trimReturns (t : Text) : Text := (t.reverse.dropWhile (· == '\r')).reverse

/-- The origin of the place between `before` and `rest` in a file. -/
def between (file before rest : Text) : Origin where
  file := String.ofList file
  line := before.count '\n' + 1
  text := String.ofList <| trimReturns <|
    (before.reverse.takeWhile (· != '\n')).reverse ++ rest.takeWhile (· != '\n')

/-- The origin of a place in no file at all. -/
def unknown : Origin := ⟨"<unknown>", 0, ""⟩

end Origin

/-- A source file with comments and includes blanked out. -/
structure SourceFile where
  name : Text
  text : Text
  deriving DecidableEq

/-- Lines with the bytes at which they start; the first of them starts at byte `start` and has the number `number`. -/
def Origin.ofLines (file : String) : Nat → Nat → List Text → List (Nat × Origin)
  | _, _, [] => []
  | start, number, t :: ts =>
    (start, ⟨file, number, String.ofList (trimReturns t)⟩)
      :: ofLines file (start + Text.byteLength t + 1) (number + 1) ts

/-- The lines of a file that starts at byte `start` of the joined text; an empty file has none. -/
def SourceFile.lines (f : SourceFile) (start : Nat) : List (Nat × Origin) :=
  if f.text.isEmpty then []
  else Origin.ofLines (String.ofList f.name) start 1 (Text.splitWhere (· == '\n') f.text)

/-- Lines in reading order, each with the byte at which it starts. -/
structure Lines where
  starts : List (Nat × Origin)
  /-- the origin of everything, if there is no line -/
  fallback : Origin
  deriving DecidableEq

namespace Lines

/-- The origin of the last of some lines that starts at or before byte `n`; `best` if there is none. -/
def lastUpTo (n : Nat) (best : Origin) : List (Nat × Origin) → Origin
  | [] => best
  | (start, o) :: rest => if n < start then best else lastUpTo n o rest

/-- The origin of byte `n`, or of the last line if the text ends before it. -/
def originAt (l : Lines) (n : Nat) : Origin := lastUpTo n l.fallback l.starts

end Lines

/-- The files of a program, in reading order. -/
abbrev Sources := List SourceFile

namespace Sources

/-- The texts of all files, joined without a gap. -/
def text (files : Sources) : Text := files.flatMap SourceFile.text

/-- The lines of files of which the first starts at byte `start` of the joined text. -/
def linesFrom : Nat → Sources → List (Nat × Origin)
  | _, [] => []
  | start, f :: fs => f.lines start ++ linesFrom (start + Text.byteLength f.text) fs

/-- The lines of all files. Where all are empty, everything stands in the first line of the first. -/
def lines (files : Sources) : Lines where
  starts := linesFrom 0 files
  fallback := match files with
    | f :: _ => ⟨String.ofList f.name, 1, ""⟩
    | [] => Origin.unknown

end Sources
end MacroAsm
