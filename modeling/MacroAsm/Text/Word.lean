import MacroAsm.Text.Blank

/-!
# Words and their replacement

A word is a run of ASCII letters, digits and underscores that cannot be made longer.

* `isWordChar`, `Text.isWord`, `Text.isName`: what may stand in a word, what is one, and which words may name a
  declaration;
* `Text.pieces t`: the words of `t` and the characters between them;
* `Text.replaceWords f t`: every word `w` with `f w = some v` replaced by `v`, in one pass.
-/

namespace MacroAsm

/-- An ASCII letter, an ASCII digit or an underscore. -/
def isWordChar (c : Char) : Bool := c.isAlphanum || c == '_'

/-- A piece of text as word replacement sees it. -/
inductive Piece where
  | word (w : Text)
  | other (c : Char)
  deriving DecidableEq

namespace Text

/-- A word, not empty, and nothing else. -/
def isWord (t : Text) : Bool := !t.isEmpty && t.all isWordChar

/-- The rule for declared names: a letter somewhere, and no look of a hexadecimal numeral. -/
def isName (t : Text) : Bool := t.any Char.isAlpha && !("0x".toList).isPrefixOf t

/-- Words as long as they can be, and the single characters between them. -/
def pieces : Text → List Piece
  | [] => []
  | c :: t =>
    if isWordChar c then
      match pieces t with
      | .word w :: ps => .word (c :: w) :: ps
      | ps => .word [c] :: ps
    else .other c :: pieces t

end Text

/-- What replacement makes of one piece. -/
def Piece.replace (f : Text → Option Text) : Piece → Text
  | .word w => (f w).getD w
  | .other c => [c]

/-- Replaces the words on which `f` is defined; replaced text is not looked at again. -/
def Text.replaceWords (f : Text → Option Text) (t : Text) : Text :=
  (Text.pieces t).flatMap (Piece.replace f)

end MacroAsm
