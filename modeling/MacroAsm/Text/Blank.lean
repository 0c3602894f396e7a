import MacroAsm.Text.Basic

/-!
# Blank characters

* `isBlank c`: `c` has the Unicode property White_Space (25 characters);
* `Text.allBlank`, `Text.trim`, `Text.words`: the tests and cuts that go by it.
-/

namespace MacroAsm

/-- The Unicode property White_Space. -/
def isBlank (c : Char) : Bool :=
  let n := c.toNat
  (0x9 ≤ n && n ≤ 0xd) || n == 0x20 || n == 0x85 || n == 0xa0 || n == 0x1680
    || (0x2000 ≤ n && n ≤ 0x200a) || n == 0x2028 || n == 0x2029 || n == 0x202f
    || n == 0x205f || n == 0x3000

namespace Text

/-- Nothing but blanks, or nothing at all. -/
def allBlank (t : Text) : Bool := t.all isBlank

/-- The text without the blanks at its end. -/
def trimEnd (t : Text) : Text := (t.reverse.dropWhile isBlank).reverse

/-- The text without the blanks at its two ends. -/
def trim (t : Text) : Text := trimEnd (t.dropWhile isBlank)

/-- The text without any blank. -/
def compact (t : Text) : Text := t.filter fun c => !isBlank c

/-- The runs between blanks, none of them empty. -/
def words (t : Text) : List Text := (splitWhere isBlank t).filter fun w => !w.isEmpty

end Text
end MacroAsm
