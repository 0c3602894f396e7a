import MacroAsm.Text.Word
import MacroAsm.Text.Bracket

/-!
# A place in a text

A cursor is a place in a text: the bytes before it are counted, the text after it is kept. Reading gives the text
that was read and the cursor behind it; reading that fails gives nothing, so the old cursor is still at hand.

* `Cursor.start`, `Cursor.after`: the first place of a text, and the last within a number of its bytes;
* `Cursor.takeWhile`, `word?`, `balanced?`, `until?`, `eat?`, `eatText?`, `keyword?`: the readings;
* `Cursor.Before`, `Cursor.Ahead`: later places of the same text, which the readings come to;
* `Cursor.Reading`, `Cursor.read`: the readings as data;
* `Spot`: a byte of a text, which may lie inside a character; `Spot.run`: a run of readings and jumps to a byte, which
  fails if something is read from inside a character.
-/

namespace MacroAsm

/-- A place in a text: the number of bytes before it and the text after it. -/
structure Cursor where
  pos : Nat
  rest : Text
  deriving DecidableEq

namespace Cursor

/-- The place before the first character. -/
def start (t : Text) : Cursor := ⟨0, t⟩

/-- Behind `taken`, with `rest` still to come. -/
def behind (c : Cursor) (taken rest : Text) : Cursor := ⟨c.pos + Text.byteLength taken, rest⟩

/-- The place after the characters of `t` that lie within its first `n` bytes. -/
def after (t : Text) (n : Nat) : Cursor :=
  (start t).behind (Text.takeBytes n t) (t.drop (Text.takeBytes n t).length)

/-- Nothing is left. -/
def atEnd (c : Cursor) : Bool := c.rest.isEmpty

/-- The next character. -/
def peek? (c : Cursor) : Option Char := c.rest.head?

/-- The longest text of characters that satisfy `p`. -/
def takeWhile (p : Char → Bool) (c : Cursor) : Text × Cursor :=
  (c.rest.takeWhile p, c.behind (c.rest.takeWhile p) (c.rest.dropWhile p))

/-- Behind all blanks that come next. -/
def skipBlanks (c : Cursor) : Cursor := (c.takeWhile isBlank).2

/-- Behind the character `x`, if it is next. -/
def eat? (x : Char) (c : Cursor) : Option Cursor :=
  match c.rest with
  | [] => none
  | y :: t => if x = y then some (c.behind [x] t) else none

/-- Behind the text `s`, if it is next. -/
def eatText? (s : Text) (c : Cursor) : Option Cursor :=
  (Text.dropStart? s c.rest).map (c.behind s)

/-- Behind the text `s`, if it is next and no character of a word follows it. -/
def keyword? (s : Text) (c : Cursor) : Option Cursor :=
  (c.eatText? s).filter fun c' => !c'.peek?.any isWordChar

/-- The word that comes next. -/
def word? (c : Cursor) : Option (Text × Cursor) :=
  let (w, c') := c.takeWhile isWordChar
  if w.isEmpty then none else some (w, c')

/-- The text between the bracket `o` that comes next and the `x` that closes it. -/
def balanced? (o x : Char) (c : Cursor) : Option (Text × Cursor) :=
  match c.rest with
  | [] => none
  | y :: t =>
    if y = o then
      (Text.closing o x 0 t).map fun (inner, r) => (inner, c.behind (o :: inner ++ [x]) r)
    else none

/-- The text before the next `x`. -/
def until? (x : Char) (c : Cursor) : Option (Text × Cursor) :=
  match c.rest.dropWhile (· != x) with
  | [] => none
  | _ :: t => some (c.rest.takeWhile (· != x), c.behind (c.rest.takeWhile (· != x) ++ [x]) t)

/-- What is left of the current line. -/
def line (c : Cursor) : Text := c.rest.takeWhile (· != '\n')

/-! ## what a reading leaves -/

/-- The second place is the same, or comes later in the same text. -/
def Before (c c' : Cursor) : Prop := ∃ w, c.rest = w ++ c'.rest ∧ c'.pos = c.pos + Text.byteLength w

/-- The second place comes later in the same text, with less still to read. -/
structure Ahead (c c' : Cursor) : Prop where
  before : c.Before c'
  shorter : c'.rest.length < c.rest.length

section Later

variable {c c' c'' : Cursor}

namespace Before

theorem refl : c.Before c := ⟨[], rfl, rfl⟩

theorem trans (h : c.Before c') (h' : c'.Before c'') : c.Before c'' := by
  obtain ⟨w, hrest, hpos⟩ := h
  obtain ⟨w', hrest', hpos'⟩ := h'
  refine ⟨w ++ w', by rw [hrest, hrest', List.append_assoc], ?_⟩
  rw [hpos', hpos, Text.byteLength_append, Nat.add_assoc]

theorem length_le (h : c.Before c') : c'.rest.length ≤ c.rest.length := by
  obtain ⟨w, hrest, -⟩ := h
  rw [hrest, List.length_append]
  exact Nat.le_add_left ..

theorem trans_ahead (h : c.Before c') (h' : c'.Ahead c'') : c.Ahead c'' :=
  ⟨h.trans h'.before, Nat.lt_of_lt_of_le h'.shorter h.length_le⟩

end Before

theorem Ahead.trans_before (h : c.Ahead c') (h' : c'.Before c'') : c.Ahead c'' :=
  ⟨h.before.trans h', Nat.lt_of_le_of_lt h'.length_le h.shorter⟩

theorem before_behind {w r : Text} (h : c.rest = w ++ r) : c.Before (c.behind w r) := ⟨w, h, rfl⟩

theorem ahead_behind {w r : Text} (hw : w ≠ []) (h : c.rest = w ++ r) : c.Ahead (c.behind w r) := by
  have hpos : 0 < w.length := List.length_pos_iff.2 hw
  refine ⟨before_behind h, ?_⟩
  rw [h, List.length_append]
  exact Nat.lt_add_of_pos_left hpos

theorem before_takeWhile (p : Char → Bool) (c : Cursor) : c.Before (c.takeWhile p).2 :=
  before_behind List.takeWhile_append_dropWhile.symm

theorem ahead_takeWhile {p : Char → Bool} (h : (c.takeWhile p).1 ≠ []) : c.Ahead (c.takeWhile p).2 :=
  ahead_behind h List.takeWhile_append_dropWhile.symm

theorem before_skipBlanks (c : Cursor) : c.Before c.skipBlanks := before_takeWhile _ c

theorem ahead_of_eat? {x : Char} (h : c.eat? x = some c') : c.Ahead c' := by
  unfold eat? at h
  split at h
  · cases h
  · next y t hrest =>
    split at h
    · next hxy =>
      cases h
      exact ahead_behind (List.cons_ne_nil x []) (by rw [hrest, hxy]; rfl)
    · cases h

theorem before_of_eatText? {s : Text} (h : c.eatText? s = some c') : c.Before c' := by
  obtain ⟨r, hr, rfl⟩ := Option.map_eq_some_iff.1 h
  exact before_behind (Text.eq_append_of_dropStart? hr)

theorem before_of_keyword? {s : Text} (h : c.keyword? s = some c') : c.Before c' :=
  before_of_eatText? (Option.filter_eq_some_iff.1 h).1

theorem ahead_of_word? {w : Text} (h : c.word? = some (w, c')) : c.Ahead c' := by
  unfold word? at h
  simp only at h
  split at h
  · cases h
  · next hw =>
    cases h
    exact ahead_takeWhile fun hempty => hw (List.isEmpty_iff.2 hempty)

theorem ahead_of_balanced? {o x : Char} {t : Text} (h : c.balanced? o x = some (t, c')) : c.Ahead c' := by
  unfold balanced? at h
  split at h
  · cases h
  · next y u hrest =>
    split at h
    · next hy =>
      obtain ⟨⟨inner, r⟩, hclosing, heq⟩ := Option.map_eq_some_iff.1 h
      cases heq
      refine ahead_behind (List.cons_ne_nil o _) ?_
      rw [hrest, hy, Text.eq_of_closing hclosing]
      simp
    · cases h

theorem ahead_of_until? {x : Char} {t : Text} (h : c.until? x = some (t, c')) : c.Ahead c' := by
  have hcut : c.rest.takeWhile (· != x) ++ c.rest.dropWhile (· != x) = c.rest := List.takeWhile_append_dropWhile
  have hhead := List.head?_dropWhile_not (· != x) c.rest
  unfold until? at h
  split at h
  · cases h
  · next y u hdrop =>
    cases h
    rw [hdrop] at hcut hhead
    have hy : y = x := by simpa using hhead
    exact ahead_behind (by simp) (hcut.symm.trans (by simp [hy]))

end Later

/-! ## runs of readings -/

/-- One reading, as data. -/
inductive Reading where
  | peek
  | rest
  | skipBlanks
  | eat (x : Char)
  | eatText (s : Text)
  | keyword (s : Text)
  | word
  | takeWhile (p : Char → Bool)
  | balanced (o x : Char)
  | untilChar (x : Char)
  | line

/-- What a reading answers. -/
inductive Answer where
  | nothing
  | flag (b : Bool)
  | count (n : Nat)
  | text (t : Text)
  deriving DecidableEq

/-- The answer of one reading and the place after it. -/
def read (c : Cursor) : Reading → Answer × Cursor
  | .peek => ((c.peek?.map fun x => .text [x]).getD .nothing, c)
  | .rest => (.text c.rest, c)
  | .skipBlanks => (.count (c.skipBlanks.pos - c.pos), c.skipBlanks)
  | .eat x => match c.eat? x with
    | some c' => (.flag true, c')
    | none => (.flag false, c)
  | .eatText s => match c.eatText? s with
    | some c' => (.flag true, c')
    | none => (.flag false, c)
  | .keyword s => match c.keyword? s with
    | some c' => (.flag true, c')
    | none => (.flag false, c)
  | .word => match c.word? with
    | some (w, c') => (.text w, c')
    | none => (.nothing, c)
  | .takeWhile p => (.text (c.takeWhile p).1, (c.takeWhile p).2)
  | .balanced o x => match c.balanced? o x with
    | some (inner, c') => (.text inner, c')
    | none => (.nothing, c)
  | .untilChar x => match c.until? x with
    | some (before, c') => (.text before, c')
    | none => (.nothing, c)
  | .line => (.text c.line, c)

end Cursor

/-- A byte of a text: a place between characters, or one inside a character. -/
inductive Spot where
  | place (c : Cursor)
  | inside (pos : Nat)
  deriving DecidableEq

namespace Spot

/-- The number of bytes before a spot. -/
def pos : Spot → Nat
  | place c => c.pos
  | inside n => n

/-- Nothing is left. -/
def atEnd : Spot → Bool
  | place c => c.atEnd
  | inside _ => false

/-- The spot after the first `n` bytes of a text, or its end if it has fewer. -/
def seek (t : Text) (n : Nat) : Spot :=
  let c := Cursor.after t n
  if c.pos = n || c.atEnd then .place c else .inside n

/-- A reading, or a jump to a byte. -/
inductive Step where
  | read (r : Cursor.Reading)
  | seek (n : Nat)

/-- The answer of one step in the text `t` and the spot after it; there is nothing to read inside a character. -/
def step? (t : Text) : Spot → Step → Option (Cursor.Answer × Spot)
  | _, .seek n => some (.nothing, Spot.seek t n)
  | place c, .read r => some ((c.read r).1, .place (c.read r).2)
  | inside _, .read _ => none

/-- The answers of a run of steps, each with the spot after it. -/
def run? (t : Text) : Spot → List Step → Option (List (Cursor.Answer × Spot))
  | _, [] => some []
  | s, x :: xs => do
    let (answer, s') ← s.step? t x
    let rest ← run? t s' xs
    return (answer, s') :: rest

end Spot
end MacroAsm
