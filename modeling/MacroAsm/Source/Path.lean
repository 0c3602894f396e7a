import MacroAsm.Text.Basic

/-!
# Paths

* `Path.isAbsolute`, `Path.join`: a path below a directory, as written;
* `Path.parent`: the path without its last part, as written otherwise;
* `Path.parts`: what stands between the slashes; `Path.isIdle`, `Path.isUp`: the parts that are no names;
* `Path.maxName`, `Path.maxLength`: the longest name and the longest path.
-/

namespace MacroAsm
namespace Path

def isAbsolute (p : Text) : Bool := p.head? == some '/'

/-- What stands between the slashes, empty parts included. -/
def parts (p : Text) : List Text := Text.splitWhere (· == '/') p

/-- A part that leads nowhere. -/
def isIdle (part : Text) : Bool := part.isEmpty || part == ['.']

/-- A part that leads to the directory above. -/
def isUp (part : Text) : Bool := part == ['.', '.']

/-- The greatest number of bytes in a name. -/
def maxName : Nat := 255

/-- The greatest number of bytes in a path. -/
def maxLength : Nat := 4095

/-- The path without the slashes at its end. -/
def dropSlashes (p : Text) : Text := (p.reverse.dropWhile (· == '/')).reverse

/-- A path below a directory; an absolute path stays, and the empty directory adds nothing. -/
def join (dir p : Text) : Text :=
  if isAbsolute p || dir.isEmpty then p
  else if dir.getLast? == some '/' then dir ++ p
  else dir ++ '/' :: p

/-- The first character, where it is a part of its own: the root, or the dot of `./`. -/
def lead (p : Text) : Text :=
  if isAbsolute p then ['/']
  else if (parts p).head? == some ['.'] then ['.']
  else []

/-- Drops the idle parts at the end. -/
def dropIdleEnd (ps : List Text) : List Text := (ps.reverse.dropWhile isIdle).reverse

/-- The path without its last part; empty if it has none. -/
def parent (p : Text) : Text :=
  match dropIdleEnd (parts (p.drop (lead p).length)) with
  | [] => []
  | ps => lead p ++ Text.join ['/'] (dropIdleEnd ps.dropLast)

end Path
end MacroAsm
