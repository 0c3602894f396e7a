/-!
# Text

Source text is a list of characters; a place in it is counted in UTF-8 bytes.

* `Text.byteLength t`: the number of bytes of `t`;
* `Text.takeBytes n t`: the characters of `t` that lie wholly within its first `n` bytes;
* `Text.splitWhere p t`: the pieces of `t` between the characters that satisfy `p`.
-/

namespace MacroAsm

/-- A text, character by character. -/
abbrev Text := List Char

namespace Text

/-- The number of bytes of the UTF-8 form. -/
def byteLength : Text → Nat
  | [] => 0
  | c :: t => c.utf8Size + byteLength t

@[simp] theorem byteLength_nil : byteLength [] = 0 := rfl

@[simp] theorem byteLength_cons (c : Char) (t : Text) :
    byteLength (c :: t) = c.utf8Size + byteLength t := rfl

@[simp] theorem byteLength_append (s t : Text) :
    byteLength (s ++ t) = byteLength s + byteLength t := by
  induction s with
  | nil => simp
  | cons c s ih => simp [ih, Nat.add_assoc]

/-- The characters that lie wholly within the first `n` bytes. -/
def takeBytes : Nat → Text → Text
  | _, [] => []
  | n, c :: t => if c.utf8Size ≤ n then c :: takeBytes (n - c.utf8Size) t else []

/-- Puts `c` in front of the first piece. -/
def consFirst (c : Char) : List Text → List Text
  | [] => [[c]]
  | piece :: pieces => (c :: piece) :: pieces

/-- The pieces between the characters that satisfy `p`, empty ones included. -/
def splitWhere (p : Char → Bool) : Text → List Text
  | [] => [[]]
  | c :: t => if p c then [] :: splitWhere p t else consFirst c (splitWhere p t)

/-- The text after `s`, if it starts with `s`. -/
def dropStart? : Text → Text → Option Text
  | [], t => some t
  | _ :: _, [] => none
  | c :: s, d :: t => if c = d then dropStart? s t else none

theorem eq_append_of_dropStart? {s t r : Text} (h : dropStart? s t = some r) : t = s ++ r := by
  induction s generalizing t with
  | nil => simpa [dropStart?] using h
  | cons c s ih =>
    cases t with
    | nil => simp [dropStart?] at h
    | cons d t =>
      by_cases hcd : c = d
      · subst hcd
        simp only [dropStart?, ↓reduceIte] at h
        simp [ih h]
      · simp [dropStart?, hcd] at h

@[simp] theorem dropStart?_append (s r : Text) : dropStart? s (s ++ r) = some r := by
  induction s with
  | nil => rfl
  | cons c s ih => simp [dropStart?, ih]

/-- The text before a final `s`, if it ends with `s`. -/
def dropEnd? (s t : Text) : Option Text :=
  (dropStart? s.reverse t.reverse).map List.reverse

/-- The pieces with `sep` between neighbours. -/
def join (sep : Text) : List Text → Text
  | [] => []
  | [t] => t
  | t :: ts => t ++ (sep ++ join sep ts)

/-- The order of texts, character by character; a start of a text comes before it. -/
def atMost : Text → Text → Bool
  | [], _ => true
  | _ :: _, [] => false
  | c :: s, d :: t => c.toNat < d.toNat || (c == d && atMost s t)

/-- The decimal numeral of `n`. -/
def decimal (n : Nat) : Text := Nat.toDigits 10 n

/-- The lower-case hexadecimal numeral of `n`, without a mark in front. -/
def hexadecimal (n : Nat) : Text := Nat.toDigits 16 n

/-- Moves `t` to the right end of a field of `width` characters; a longer text is kept whole. -/
def alignRight (width : Nat) (t : Text) : Text :=
  List.replicate (width - t.length) ' ' ++ t

end Text
end MacroAsm
