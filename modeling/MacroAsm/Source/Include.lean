import MacroAsm.Cursor
import MacroAsm.Fault
import MacroAsm.Source.Comment

/-!
# Include directives

A file may start with lines `#include "path"`. They are replaced by spaces, byte for byte.

* `Directive`: a path to include and the origin of the line that asks for it;
* `Prepared.ofText file t`: the text of a file without comments and directives, and its directives;
* `SourceFile.ofMemory`: a text that is no file and may include none.
-/

namespace MacroAsm

/-- A path to include and the origin of the line that asks for it. -/
structure Directive where
  target : Text
  origin : Origin
  deriving DecidableEq

/-- The quoted path behind `#include`, on one line and not blank, and the cursor behind it. -/
def includeTarget? (c : Cursor) : Option (Text × Cursor) :=
  match ((c.takeWhile fun x => x == ' ' || x == '\t').2).eat? '"' with
  | none => none
  | some c₁ => match c₁.until? '"' with
    | none => none
    | some (target, c₂) =>
      if target.contains '\n' || Text.allBlank target then none else some (Text.trim target, c₂)

theorem ahead_of_includeTarget? {c c' : Cursor} {target : Text} (h : includeTarget? c = some (target, c')) :
    c.Ahead c' := by
  unfold includeTarget? at h
  split at h
  · cases h
  · next c₁ hopen =>
    split at h
    · cases h
    · next hclose =>
      split at h
      · cases h
      · cases h
        exact ((Cursor.before_takeWhile _ c).trans_ahead (Cursor.ahead_of_eat? hopen)).trans_before
          (Cursor.ahead_of_until? hclose).before

/-- The text of a file as it is read for declarations, and the directives that stood before them. -/
structure Prepared where
  text : Text
  directives : List Directive
  deriving DecidableEq

namespace Prepared

/-- The origin of a cursor in a file with the text `whole`. -/
def originOf (file whole : Text) (c : Cursor) : Origin :=
  Origin.between file (whole.take (whole.length - c.rest.length)) c.rest

/-- Takes the directives that come next in a file with the text `whole`. -/
def takeFrom (file whole : Text) (c : Cursor) : Except Fault Prepared :=
  match _h : c.skipBlanks.keyword? "#include".toList with
  | none => .ok ⟨c.rest, []⟩
  | some c₁ =>
    let here := originOf file whole c.skipBlanks
    match _h' : includeTarget? c₁ with
    | none => .error (.located (.malformedInclude (Text.trim here.text.toList)) here)
    | some (target, c₂) => match takeFrom file whole c₂ with
      | .error f => .error f
      | .ok p => .ok {
          text := (c.takeWhile isBlank).1 ++ List.replicate (c₂.pos - c.skipBlanks.pos) ' ' ++ p.text
          directives := ⟨target, here⟩ :: p.directives }
termination_by c.rest.length
decreasing_by
  exact (((Cursor.before_skipBlanks c).trans (Cursor.before_of_keyword? _h)).trans_ahead
    (ahead_of_includeTarget? _h')).shorter

/-- The directives at the start of a file, and its text with spaces for them and for its comments. -/
def ofText (file text : Text) : Except Fault Prepared :=
  takeFrom file (Text.blankComments text) (Cursor.start (Text.blankComments text))

end Prepared

/-- A text that is no file; it may include none. -/
def SourceFile.ofMemory (name text : Text) : Except Fault SourceFile :=
  match Prepared.ofText name text with
  | .error f => .error f
  | .ok p => match p.directives with
    | d :: _ => .error (.located (.includeInMemory d.target) d.origin)
    | [] => .ok ⟨name, p.text⟩

end MacroAsm
