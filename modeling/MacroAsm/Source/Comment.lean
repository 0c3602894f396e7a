import MacroAsm.Text.Basic

/-!
# Blanking comments

`//` starts a comment that ends before the next line, `/*` one that ends behind the next `*/` or with the text. Both
are replaced by spaces, byte for byte, so that every place in the text stays what it was.

* `Text.blankComments t`: `t` with spaces for its comments, newlines kept.
-/

namespace MacroAsm

/-- Where a reader of comments stands. -/
inductive CommentMode where
  | code
  | line
  | block
  deriving DecidableEq

namespace Text

/-- As many spaces as a character has bytes; a newline stays. -/
def blankChar (c : Char) : Text := if c = '\n' then ['\n'] else List.replicate c.utf8Size ' '

/-- The text with spaces for comments, read from within a mode. -/
def blankFrom : CommentMode → Text → Text
  | _, [] => []
  | .code, '/' :: '/' :: t => ' ' :: ' ' :: blankFrom .line t
  | .code, '/' :: '*' :: t => ' ' :: ' ' :: blankFrom .block t
  | .code, c :: t => c :: blankFrom .code t
  | .line, c :: t => if c = '\n' then c :: blankFrom .code t else blankChar c ++ blankFrom .line t
  | .block, '*' :: '/' :: t => ' ' :: ' ' :: blankFrom .code t
  | .block, c :: t => blankChar c ++ blankFrom .block t

/-- The text with spaces for comments. -/
def blankComments (t : Text) : Text := blankFrom .code t

end Text
end MacroAsm
