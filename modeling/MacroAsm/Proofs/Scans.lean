import MacroAsm.Proofs.Boundaries
import MacroAsm.Proofs.Concatenation

/-!
# Reading a body byte by byte

The operations of a body are found by trying one form after the other at each token. Here the forms are read by a cursor
that is a number of bytes: it cuts what it reads out of the text, and is put back to the start of the token before the
next form is tried. If a cut ever fell inside a character, there would be no result.

* `Scan α`: a reader that holds a byte of its text; `Scan.Trial α`: one that may refuse what it reads;
* `Scan.Ends round x n b`: rounds from the byte `n` on, none of which cuts a character, end with `b`;
* `Scan.Tries t x form`: the scan `x` tries `form`; `Scan.tries_forms`: so do the forms of a token;
* `Body.round`, `Body.ends_round`: a body, token by token; `codeRound`, `ends_codeRound`: a code table.
-/

namespace MacroAsm

/-- Whether a reading has found what it was to find. -/
def Cursor.Answer.isTrue : Answer → Bool
  | .flag b => b
  | _ => false

/-- The text that a reading has found. -/
def Cursor.Answer.text? : Answer → Option Text
  | .text t => some t
  | _ => none

/-- A reader that holds a byte of its text and nothing else. It has no result if a character would be cut. -/
abbrev Scan (α : Type) := StateT Nat Option α

namespace Scan

/-- A scan that may refuse what it reads. -/
abbrev Trial (α : Type) := ExceptT Cause Scan α

/-- The result of a trial that begins at byte `n`, and the byte after it. -/
def Trial.go {α : Type} (x : Trial α) (n : Nat) : Option (Except Cause α × Nat) := x.run.run n

variable {α β σ : Type} (t : Text)

/-- Reads something. -/
def ask (r : Cursor.Reading) : Scan Cursor.Answer := fun n => Cursor.readAt? t n r

/-- Jumps to byte `n`, or to the end if there are fewer. -/
def jump (n : Nat) : Scan Unit := set (min n t.byteLength)

/-- Whether nothing is left. -/
def atEnd : Scan Bool := do return decide (t.byteLength ≤ (← get))

/-- Whether a reading finds what it is to find. -/
def finds (r : Cursor.Reading) : Scan Bool := do return (← ask t r).isTrue

/-- The text that a reading finds. -/
def text? (r : Cursor.Reading) : Scan (Option Text) := do return (← ask t r).text?

/-- The next character. -/
def peek? : Scan (Option Char) := do return (← text? t .peek).bind List.head?

/-- Goes behind all blanks that come next. -/
def skipBlanks : Scan Unit := do
  let _ ← ask t .skipBlanks

/-- The longest text of characters that satisfy `p`. -/
def takeWhile (p : Char → Bool) : Scan Text := do return (← text? t (.takeWhile p)).getD []

/-- Rounds of a scan, each with what the last one left, from the byte `n` on. No round cuts a character, and the last
one ends with `b`. -/
inductive Ends (round : σ → Scan (σ ⊕ β)) : σ → Nat → β → Prop
  | stop {x : σ} {n n' : Nat} {b : β} (h : (round x).run n = some (.inr b, n')) : Ends round x n b
  | again {x x' : σ} {n n' : Nat} {b : β} (h : (round x).run n = some (.inl x', n')) (hrest : Ends round x' n' b) :
    Ends round x n b

/-! ## results of scans -/

section Laws

variable {t} {c c' : Cursor}

lemma run_bind_of {x : Scan α} {f : α → Scan β} {n n' : Nat} {a : α} (h : x.run n = some (a, n')) :
    (x >>= f).run n = (f a).run n' := by
  rw [StateT.run_bind, h]
  rfl

namespace Trial

lemma go_bind_ok {x : Trial α} {f : α → Trial β} {n n' : Nat} {a : α} (h : x.go n = some (.ok a, n')) :
    go (x >>= f) n = go (f a) n' := by
  unfold go
  rw [ExceptT.run_bind]
  exact run_bind_of h

lemma go_bind_error {x : Trial α} {f : α → Trial β} {n n' : Nat} {e : Cause} (h : x.go n = some (.error e, n')) :
    go (x >>= f) n = some (.error e, n') := by
  unfold go
  rw [ExceptT.run_bind]
  exact run_bind_of h

lemma go_lift {x : Scan α} {n n' : Nat} {a : α} (h : x.run n = some (a, n')) :
    go (liftM x : Trial α) n = some (.ok a, n') := by
  show (x >>= fun a => pure (Except.ok a) : Scan (Except Cause α)).run n = _
  exact run_bind_of h

end Trial

lemma run_ask (hc : (Cursor.start t).Before c) (r : Cursor.Reading) :
    (ask t r).run c.pos = some ((c.read r).1, (c.read r).2.pos) := Cursor.readAt?_of_before hc r

lemma run_finds (hc : (Cursor.start t).Before c) {r : Cursor.Reading} {b : Bool} (h : c.read r = (.flag b, c')) :
    (finds t r).run c.pos = some (b, c'.pos) := by
  rw [finds, run_bind_of (run_ask hc r), h]
  rfl

lemma run_text? (hc : (Cursor.start t).Before c) {r : Cursor.Reading} {w : Text} (h : c.read r = (.text w, c')) :
    (text? t r).run c.pos = some (some w, c'.pos) := by
  rw [text?, run_bind_of (run_ask hc r), h]
  rfl

lemma run_text?_nothing (hc : (Cursor.start t).Before c) {r : Cursor.Reading} (h : c.read r = (.nothing, c')) :
    (text? t r).run c.pos = some (none, c'.pos) := by
  rw [text?, run_bind_of (run_ask hc r), h]
  rfl

lemma run_peek? (hc : (Cursor.start t).Before c) : (peek? t).run c.pos = some (c.peek?, c.pos) := by
  cases h : c.peek? with
  | none => exact run_bind_of (run_text?_nothing hc (by rw [Cursor.read, h]; rfl))
  | some x => exact run_bind_of (run_text? hc (by rw [Cursor.read, h]; rfl))

lemma run_skipBlanks (hc : (Cursor.start t).Before c) : (skipBlanks t).run c.pos = some ((), c.skipBlanks.pos) :=
  run_bind_of (run_ask hc .skipBlanks)

lemma run_takeWhile (hc : (Cursor.start t).Before c) (p : Char → Bool) :
    (takeWhile t p).run c.pos = some ((c.takeWhile p).1, (c.takeWhile p).2.pos) :=
  run_bind_of (run_text? hc rfl)

lemma run_atEnd (hc : (Cursor.start t).Before c) : (atEnd t).run c.pos = some (c.atEnd, c.pos) := by
  have htotal : c.total = (Cursor.start t).total := hc.total
  have hend : decide (t.byteLength ≤ c.pos) = c.atEnd := by
    simp only [Cursor.total, Cursor.start, Nat.zero_add] at htotal
    rw [Cursor.atEnd]
    cases hrest : c.rest with
    | nil =>
      rw [hrest, Text.byteLength_nil] at htotal
      exact decide_eq_true (by omega)
    | cons x r =>
      have hpos := x.utf8Size_pos
      rw [hrest, Text.byteLength_cons] at htotal
      exact decide_eq_false (by omega)
  rw [← hend]
  rfl

/-- A jump to the byte of a place leads to that place. -/
lemma run_jump (hc : (Cursor.start t).Before c) (n : Nat) : (jump t c.pos).run n = some ((), c.pos) := by
  have hmin : min c.pos t.byteLength = c.pos := Nat.min_eq_left (Cursor.pos_le_of_before hc)
  rw [jump, hmin]
  rfl

end Laws

/-! ## the forms of a token -/

section Forms

/-- The bracketed group that is all of a text. -/
def group : Scan (Option Text) := do
  match ← text? t (.balanced '<' '>') with
  | none => return none
  | some inner => return if ← atEnd t then some inner else none

/-- The name and the arguments of a text: the text is cut behind its first word, and what follows is scanned on its
own. -/
def target? (text : Text) : Option (Option (Text × List Text)) :=
  let s := Text.trim text
  let n := (s.findByte? fun c => !isWordChar c).getD s.byteLength
  if n = 0 then some none
  else do
    let name ← s.slice? 0 n
    let rest ← s.slice? n s.byteLength
    if (Text.trim rest).isEmpty then return some (name, [])
    else return (← (group (Text.trim rest)).run' 0).map fun inner => (name, Target.argumentGroup inner)

/-- The trimmed text in parentheses right behind the keyword `word`. -/
def builtin (word : Text) : Trial (Option Text) := do
  if ← finds t (.keyword word) then
    match ← text? t (.balanced '(' ')') with
    | some inner => return some (Text.trim inner)
    | none => throw (.builtinWithoutName word)
  else return none

def codeSize : Trial (Option OpKind) := do
  match ← builtin t "__codesize".toList with
  | none => return none
  | some inner => match ← (StateT.lift (target? inner) : Scan _) with
    | some (callee, args) => return some (.codeSize callee args)
    | none => throw (.malformedCodeSize inner)

def tableSize (tables : TableSet) : Trial (Option OpKind) := do
  match ← builtin t "__tablesize".toList with
  | none => return none
  | some name => match tables.find? name with
    | some table => return OpKind.pushValue? (Numeral.wrapCount table.size)
    | none => throw (.unknownTable name)

def tableStart : Trial (Option OpKind) := do
  match ← builtin t "__tablestart".toList with
  | none => return none
  | some name => if Text.isWord name then return some (.tableStart name) else throw (.malformedTableName name)

/-- The push of a literal's bytes. -/
def pushLiteral (data : Bytes) (digits : Text) : Trial (Option OpKind) :=
  match OpReader.pushLiteral data digits with
  | .ok kind => return some kind
  | .error e => throw e

def hexLiteral : Trial (Option OpKind) := do
  if ← finds t (.eatText "0x".toList) then
    let digits ← takeWhile t isHexDigit
    let next ← peek? t
    if digits.isEmpty || next.any isWordChar then
      let tail ← takeWhile t isWordChar
      throw (.malformedHex ("0x".toList ++ digits ++ tail))
    else pushLiteral ((Bytes.ofHex? digits).getD []) digits
  else return none

/-- The bracketed group that comes next, if the next character opens one; nothing if it is not closed. -/
def angleGroup? : Scan (Option (Option Text)) := do
  if (← peek? t) = some '<' then return (← text? t (.balanced '<' '>')).map some
  else return some none

def call : Trial (Option OpKind) := do
  match ← text? t .word with
  | none => return none
  | some callee => match ← angleGroup? t with
    | none => return none
    | some angle => match ← text? t (.balanced '(' ')') with
      | none => return none
      | some paren =>
        if angle.isSome && !Text.allBlank paren then throw (.mixedArguments callee)
        else return some (.call callee (Target.argumentGroup (angle.getD paren)))

def template : Trial (Option OpKind) := do
  if (← peek? t) = some '<' then
    match ← text? t (.balanced '<' '>') with
    | some inner =>
      if Text.allBlank inner then throw .malformedTemplate else return some (.template (Text.trim inner))
    | none => throw .malformedTemplate
  else return none

def labelDef (labels : List Text) : Trial (Option OpKind) := do
  match ← text? t .word with
  | none => return none
  | some label =>
    if ← finds t (.eat ':') then
      if labels.contains label then throw (.labelRedefined label) else return some (.labelDef label)
    else return none

def decimalLiteral : Trial (Option OpKind) := do
  let digits ← takeWhile t Char.isDigit
  let next ← peek? t
  if digits.isEmpty || next.any isWordChar then return none
  else pushLiteral (Bytes.ofNat ((Numeral.value? digits).getD 0)) digits

def bareWord (labels : List Text) : Trial (Option OpKind) := do
  match ← text? t .word with
  | none => return none
  | some word =>
    if labels.contains word then return some (.labelRef word)
    else match Opcode.ofMnemonic? word with
      | some b => return some (.opcode b)
      | none => return some (.labelRef word)

/-- The forms of a token in the order in which they are tried. -/
def forms (tables : TableSet) (labels : List Text) : List (Trial (Option OpKind)) :=
  [codeSize t, tableSize t tables, tableStart t, hexLiteral t, call t, template t, labelDef t labels,
    decimalLiteral t, bareWord t labels]

/-- The first form that fits or refuses, each tried from byte `start`. -/
def firstFit (start : Nat) : List (Trial (Option OpKind)) → Trial (Option OpKind)
  | [] => return none
  | form :: forms => do
    jump t start
    match ← form with
    | some kind => return some kind
    | none => firstFit start forms

/-- The operation that is written at byte `start`. -/
def next (tables : TableSet) (labels : List Text) (start : Nat) : Trial OpKind := do
  match ← firstFit t start (forms t tables labels) with
  | some kind => return kind
  | none =>
    jump t start
    let line ← text? t .line
    throw (.unreadableToken (Text.trim (line.getD [])))

end Forms

/-- From byte `n` on, the scan `x` has the outcome of a form. If the form fits, it ends behind what the form takes. -/
inductive TriesAt (x : Trial (Option α)) (n : Nat) : Except Cause (Option (α × Cursor)) → Prop
  | error {e : Cause} {n' : Nat} (h : x.go n = some (.error e, n')) : TriesAt x n (.error e)
  | none {n' : Nat} (h : x.go n = some (.ok none, n')) : TriesAt x n (.ok none)
  | some {a : α} {c' : Cursor} (h : x.go n = some (.ok (some a), c'.pos)) : TriesAt x n (.ok (some (a, c')))

/-- From byte `n` on, the scan `x` has the outcome of a reader, and ends where the reader ends. -/
inductive FollowsAt (x : Trial α) (n : Nat) : Except Cause (α × Cursor) → Prop
  | error {e : Cause} {n' : Nat} (h : x.go n = some (.error e, n')) : FollowsAt x n (.error e)
  | ok {a : α} {c' : Cursor} (h : x.go n = some (.ok a, c'.pos)) : FollowsAt x n (.ok (a, c'))

/-- At every place of the text `t`, the scan tries the form. -/
def Tries (t : Text) (x : Trial (Option α)) (form : Cursor → Except Cause (Option (α × Cursor))) : Prop :=
  ∀ c, (Cursor.start t).Before c → TriesAt x c.pos (form c)

namespace TriesAt

variable {γ : Type} {x : Trial γ} {f : γ → Trial (Option α)} {n n' : Nat}

lemma bind {a : γ} {r : Except Cause (Option (α × Cursor))} (hx : x.go n = Option.some (.ok a, n'))
    (hf : TriesAt (f a) n' r) : TriesAt (x >>= f) n r := by
  have hgo : (x >>= f).go n = (f a).go n' := Trial.go_bind_ok hx
  cases hf with
  | error h => exact .error (hgo.trans h)
  | none h => exact .none (hgo.trans h)
  | some h => exact .some (hgo.trans h)

lemma bind_error {e : Cause} (hx : x.go n = Option.some (.error e, n')) : TriesAt (x >>= f) n (.error e) :=
  .error (Trial.go_bind_error hx)

/-- A scan that goes on with an answer. -/
lemma lift {y : Scan γ} {a : γ} {r : Except Cause (Option (α × Cursor))} (hy : y.run n = Option.some (a, n'))
    (hf : TriesAt (f a) n' r) : TriesAt (liftM y >>= f) n r := bind (Trial.go_lift hy) hf

end TriesAt

namespace FollowsAt

variable {γ : Type} {x : Trial γ} {f : γ → Trial α} {n n' : Nat}

lemma bind {a : γ} {r : Except Cause (α × Cursor)} (hx : x.go n = some (.ok a, n')) (hf : FollowsAt (f a) n' r) :
    FollowsAt (x >>= f) n r := by
  have hgo : (x >>= f).go n = (f a).go n' := Trial.go_bind_ok hx
  cases hf with
  | error h => exact .error (hgo.trans h)
  | ok h => exact .ok (hgo.trans h)

lemma bind_error {e : Cause} (hx : x.go n = some (.error e, n')) : FollowsAt (x >>= f) n (.error e) :=
  .error (Trial.go_bind_error hx)

lemma lift {y : Scan γ} {a : γ} {r : Except Cause (α × Cursor)} (hy : y.run n = some (a, n'))
    (hf : FollowsAt (f a) n' r) : FollowsAt (liftM y >>= f) n r := bind (Trial.go_lift hy) hf

/-- A scan that goes on where a reader ends; `g` tells what the reader has found, and where that is. -/
lemma andThen {r : Except Cause β} {g : β → γ × Cursor} {k : β → Except Cause (α × Cursor)}
    (hx : FollowsAt x n (r.map g)) (hf : ∀ b, r = .ok b → FollowsAt (f (g b).1) (g b).2.pos (k b)) :
    FollowsAt (x >>= f) n (r >>= k) := by
  cases r with
  | error e =>
    cases hx with
    | error h => exact bind_error h
  | ok b =>
    have hrest := hf b rfl
    rw [Except.map] at hx
    generalize g b = p at hx hrest
    cases hx with
    | ok h => exact bind h hrest

lemma seq {r : Except Cause (γ × Cursor)} {k : γ × Cursor → Except Cause (α × Cursor)} (hx : FollowsAt x n r)
    (hf : ∀ p, r = .ok p → FollowsAt (f p.1) p.2.pos (k p)) : FollowsAt (x >>= f) n (r >>= k) :=
  andThen (g := id) (by rwa [Except.map_id]) hf

end FollowsAt

section Forms

variable {t} {c c' : Cursor}

lemma tries_builtin (word : Text) : Tries t (builtin t word) (OpReader.builtin word) := by
  intro c hc
  unfold OpReader.builtin
  cases hk : c.keyword? word with
  | none => exact .lift (run_finds hc (by rw [Cursor.read, hk])) (.none rfl)
  | some c₁ =>
    have hc₁ := hc.trans (Cursor.before_of_keyword? hk)
    refine .lift (run_finds hc (by rw [Cursor.read, hk])) ?_
    dsimp only
    cases hb : c₁.balanced? '(' ')' with
    | none => exact .lift (run_text?_nothing hc₁ (by rw [Cursor.read, hb])) (.error rfl)
    | some p => exact .lift (run_text? hc₁ (by rw [Cursor.read, hb])) (.some rfl)

/-- The group behind a name is scanned as it is read. -/
lemma run_group (rest : Text) :
    (group rest).run' 0 = some (((Cursor.start rest).balanced? '<' '>').bind fun p =>
      if p.2.atEnd then some p.1 else none) := by
  have hc : (Cursor.start rest).Before (Cursor.start rest) := .refl
  show ((group rest).run (Cursor.start rest).pos).map Prod.fst = _
  unfold group
  cases hb : (Cursor.start rest).balanced? '<' '>' with
  | none =>
    rw [run_bind_of (run_text?_nothing hc (by rw [Cursor.read, hb]))]
    rfl
  | some p =>
    have hp := (Cursor.ahead_of_balanced? (show _ = some (p.1, p.2) from hb)).before
    rw [run_bind_of (run_text? hc (by rw [Cursor.read, hb]))]
    dsimp only
    rw [run_bind_of (run_atEnd hp)]
    rfl

/-- **A name and its arguments** are cut apart as they are read. -/
theorem target?_eq (text : Text) : target? text = some (Target.split? text) := by
  unfold target? Target.split?
  generalize Text.trim text = s
  have hcut : s.takeWhile isWordChar ++ s.dropWhile isWordChar = s := List.takeWhile_append_dropWhile
  have hword : (Cursor.start s).word? = if (s.takeWhile isWordChar).isEmpty then none
      else some (s.takeWhile isWordChar, (Cursor.start s).behind (s.takeWhile isWordChar) (s.dropWhile isWordChar)) :=
    rfl
  simp only [Text.getD_findByte?, hword]
  cases hw : s.takeWhile isWordChar with
  | nil => rfl
  | cons x w =>
    have hpos := x.utf8Size_pos
    have hname : s.slice? 0 (Text.byteLength (x :: w)) = some (x :: w) :=
      Text.slice?_eq_some_iff.2 ⟨[], s.dropWhile isWordChar, by rw [← hw]; exact hcut.symm, rfl, (Nat.zero_add _).symm⟩
    have hrest : s.slice? (Text.byteLength (x :: w)) s.byteLength = some (s.dropWhile isWordChar) :=
      Text.slice?_eq_some_iff.2 ⟨x :: w, [], by rw [List.append_nil, ← hw, hcut], rfl, by
        rw [← Text.byteLength_append, ← hw, hcut]⟩
    rw [if_neg (by rw [Text.byteLength_cons]; omega), hname, hrest]
    show (if (Text.trim (s.dropWhile isWordChar)).isEmpty then some (some (x :: w, []))
      else ((group (Text.trim (s.dropWhile isWordChar))).run' 0).bind fun g =>
        some (g.map fun inner => (x :: w, Target.argumentGroup inner))) =
      some (if (Text.trim (s.dropWhile isWordChar)).isEmpty then some (x :: w, []) else _)
    split
    · rfl
    · rw [run_group]
      dsimp only [Cursor.behind]
      cases (Cursor.start (Text.trim (s.dropWhile isWordChar))).balanced? '<' '>' with
      | none => rfl
      | some p =>
        show some (Option.map _ (if p.2.atEnd then some p.1 else none)) = some (if p.2.atEnd then _ else none)
        split <;> rfl

lemma tries_codeSize : Tries t (codeSize t) OpReader.codeSize := by
  intro c hc
  unfold OpReader.codeSize
  have hbuiltin := tries_builtin "__codesize".toList c hc
  generalize OpReader.builtin "__codesize".toList c = found at hbuiltin
  cases hbuiltin with
  | error h => exact .bind_error h
  | none h => exact .bind h (.none rfl)
  | @some inner c₁ h =>
    have hlift : (StateT.lift (target? inner) : Scan _).run c₁.pos = some (Target.split? inner, c₁.pos) := by
      rw [target?_eq]
      rfl
    refine .bind h (.lift hlift ?_)
    dsimp only
    cases Target.split? inner with
    | none => exact .error rfl
    | some p => exact .some rfl

lemma tries_tableSize (tables : TableSet) : Tries t (tableSize t tables) (OpReader.tableSize tables) := by
  intro c hc
  unfold OpReader.tableSize
  have hbuiltin := tries_builtin "__tablesize".toList c hc
  generalize OpReader.builtin "__tablesize".toList c = found at hbuiltin
  cases hbuiltin with
  | error h => exact .bind_error h
  | none h => exact .bind h (.none rfl)
  | @some name c₁ h =>
    refine .bind h ?_
    dsimp only
    cases tables.find? name with
    | none => exact .error rfl
    | some table =>
      dsimp only
      cases OpKind.pushValue? (Numeral.wrapCount table.size) with
      | none => exact .none rfl
      | some kind => exact .some rfl

lemma tries_tableStart : Tries t (tableStart t) OpReader.tableStart := by
  intro c hc
  unfold OpReader.tableStart
  have hbuiltin := tries_builtin "__tablestart".toList c hc
  generalize OpReader.builtin "__tablestart".toList c = found at hbuiltin
  cases hbuiltin with
  | error h => exact .bind_error h
  | none h => exact .bind h (.none rfl)
  | @some name c₁ h =>
    refine .bind h ?_
    dsimp only
    split
    · exact .some rfl
    · exact .error rfl

/-- The push of a literal that has been read up to `c`. -/
lemma triesAt_pushLiteral (data : Bytes) (digits : Text) (c : Cursor) :
    TriesAt (pushLiteral data digits) c.pos (match OpReader.pushLiteral data digits with
      | .ok kind => .ok (some (kind, c))
      | .error e => .error e) := by
  unfold pushLiteral
  cases OpReader.pushLiteral data digits with
  | ok kind => exact .some rfl
  | error e => exact .error rfl

lemma tries_hexLiteral : Tries t (hexLiteral t) OpReader.hexLiteral := by
  intro c hc
  unfold OpReader.hexLiteral
  cases hmark : c.eatText? "0x".toList with
  | none => exact .lift (run_finds hc (by rw [Cursor.read, hmark])) (.none rfl)
  | some c₁ =>
    have hc₁ := hc.trans (Cursor.before_of_eatText? hmark)
    have hc₂ := hc₁.trans (Cursor.before_takeWhile isHexDigit c₁)
    refine .lift (run_finds hc (by rw [Cursor.read, hmark])) ?_
    refine .lift (run_takeWhile hc₁ isHexDigit) (.lift (run_peek? hc₂) ?_)
    dsimp only
    split
    · exact .lift (run_takeWhile hc₂ isWordChar) (.error rfl)
    · exact triesAt_pushLiteral ..

lemma tries_decimalLiteral : Tries t (decimalLiteral t) OpReader.decimalLiteral := by
  intro c hc
  have hc₁ := hc.trans (Cursor.before_takeWhile Char.isDigit c)
  unfold OpReader.decimalLiteral
  refine .lift (run_takeWhile hc Char.isDigit) (.lift (run_peek? hc₁) ?_)
  dsimp only
  split
  · exact .none rfl
  · exact triesAt_pushLiteral ..

/-- A group in angle brackets is scanned as it is read. -/
lemma run_angleGroup? (hc : (Cursor.start t).Before c) :
    ∃ n, (angleGroup? t).run c.pos = some ((OpReader.angleGroup? c).map Prod.fst, n) ∧
      ∀ g c', OpReader.angleGroup? c = some (g, c') → n = c'.pos := by
  unfold angleGroup? OpReader.angleGroup?
  rw [run_bind_of (run_peek? hc)]
  split
  · cases hb : c.balanced? '<' '>' with
    | none =>
      rw [run_bind_of (run_text?_nothing hc (by rw [Cursor.read, hb]))]
      exact ⟨_, rfl, fun g c' h => by cases h⟩
    | some p =>
      rw [run_bind_of (run_text? hc (by rw [Cursor.read, hb]))]
      exact ⟨_, rfl, fun g c' h => by cases h; rfl⟩
  · exact ⟨_, rfl, fun g c' h => by cases h; rfl⟩

lemma tries_call : Tries t (call t) OpReader.call := by
  intro c hc
  unfold OpReader.call
  cases hw : c.word? with
  | none => exact .lift (run_text?_nothing hc (by rw [Cursor.read, hw])) (.none rfl)
  | some p =>
    obtain ⟨callee, c₁⟩ := p
    have hc₁ := hc.trans (Cursor.ahead_of_word? hw).before
    obtain ⟨n, hangle, hn⟩ := run_angleGroup? hc₁
    refine .lift (run_text? hc (by rw [Cursor.read, hw])) (.lift hangle ?_)
    dsimp only
    cases hg : OpReader.angleGroup? c₁ with
    | none => exact .none rfl
    | some p =>
      obtain ⟨angle, c₂⟩ := p
      have hc₂ := hc₁.trans (OpReader.before_of_angleGroup? hg)
      rw [hn angle c₂ hg]
      dsimp only [Option.map_some]
      cases hb : c₂.balanced? '(' ')' with
      | none => exact .lift (run_text?_nothing hc₂ (by rw [Cursor.read, hb])) (.none rfl)
      | some p =>
        refine .lift (run_text? hc₂ (by rw [Cursor.read, hb])) ?_
        dsimp only
        split
        · exact .error rfl
        · exact .some rfl

lemma tries_template : Tries t (template t) OpReader.template := by
  intro c hc
  unfold OpReader.template
  refine .lift (run_peek? hc) ?_
  split
  · cases hb : c.balanced? '<' '>' with
    | none => exact .lift (run_text?_nothing hc (by rw [Cursor.read, hb])) (.error rfl)
    | some p =>
      refine .lift (run_text? hc (by rw [Cursor.read, hb])) ?_
      dsimp only
      split
      · exact .error rfl
      · exact .some rfl
  · exact .none rfl

lemma tries_labelDef (labels : List Text) : Tries t (labelDef t labels) (OpReader.labelDef labels) := by
  intro c hc
  unfold OpReader.labelDef
  cases hw : c.word? with
  | none => exact .lift (run_text?_nothing hc (by rw [Cursor.read, hw])) (.none rfl)
  | some p =>
    obtain ⟨label, c₁⟩ := p
    have hc₁ := hc.trans (Cursor.ahead_of_word? hw).before
    refine .lift (run_text? hc (by rw [Cursor.read, hw])) ?_
    dsimp only
    cases he : c₁.eat? ':' with
    | none => exact .lift (run_finds hc₁ (by rw [Cursor.read, he])) (.none rfl)
    | some c₂ =>
      refine .lift (run_finds hc₁ (by rw [Cursor.read, he])) ?_
      dsimp only
      rw [if_pos rfl]
      split
      · exact .error rfl
      · exact .some rfl

lemma tries_bareWord (labels : List Text) : Tries t (bareWord t labels) (OpReader.bareWord labels) := by
  intro c hc
  unfold OpReader.bareWord
  cases hw : c.word? with
  | none => exact .lift (run_text?_nothing hc (by rw [Cursor.read, hw])) (.none rfl)
  | some p =>
    refine .lift (run_text? hc (by rw [Cursor.read, hw])) ?_
    dsimp only
    split
    · exact .some rfl
    · cases Opcode.ofMnemonic? p.1 with
      | none => exact .some rfl
      | some b => exact .some rfl

/-- **Every form of a token is scanned as it is read.** -/
theorem tries_forms (tables : TableSet) (labels : List Text) :
    List.Forall₂ (Tries t) (forms t tables labels) (OpReader.forms tables labels) :=
  .cons tries_codeSize <| .cons (tries_tableSize tables) <| .cons tries_tableStart <| .cons tries_hexLiteral <|
    .cons tries_call <| .cons tries_template <| .cons (tries_labelDef labels) <| .cons tries_decimalLiteral <|
    .cons (tries_bareWord labels) .nil

/-- Forms that are tried one after the other, each from the start of the token. -/
lemma triesAt_firstFit {xs : List (Trial (Option OpKind))} {fs : List (Cursor → Attempt)}
    (h : List.Forall₂ (Tries t) xs fs) (hc : (Cursor.start t).Before c) (n : Nat) :
    TriesAt (firstFit t c.pos xs) n (OpReader.firstFit fs c) := by
  induction h generalizing n with
  | nil => exact .none rfl
  | @cons x f xs fs hx _ ih =>
    have hform := hx c hc
    refine .lift (run_jump hc n) ?_
    unfold OpReader.firstFit
    generalize f c = outcome at hform
    cases hform with
    | error h => exact .bind_error h
    | none h => exact .bind h (ih _)
    | some h => exact .bind h (.some rfl)

/-- **The operation at a token** is scanned as it is read. -/
theorem followsAt_next (tables : TableSet) (labels : List Text) (hc : (Cursor.start t).Before c) :
    FollowsAt (next t tables labels c.pos) c.pos (OpReader.next tables labels c) := by
  have hfit := triesAt_firstFit (tries_forms tables labels) hc c.pos
  unfold OpReader.next
  generalize OpReader.firstFit (OpReader.forms tables labels) c = outcome at hfit
  cases hfit with
  | error h => exact .bind_error h
  | @none n h => exact .bind h (.lift (run_jump hc n) (.lift (run_text? hc rfl) (.error rfl)))
  | some h => exact .bind h (.ok rfl)

end Forms
end Scan

/-! ## bodies -/

namespace Body

/-- Scans one token of a body. Before it stand the operations `ops`, which define `labels`. -/
def round (b : Body) : List Text × List Op → Scan (List Text × List Op ⊕ Except Fault (List Op))
  | (labels, ops) => do
    Scan.skipBlanks b.text
    if ← Scan.atEnd b.text then return .inr (.ok ops)
    else
      let start ← get
      match ← (Scan.next b.text b.tables labels start).run with
      | .error cause => return .inr (.error (.located cause (b.lines.originAt (b.base + start))))
      | .ok kind => return .inl (kind.defines ++ labels, ops ++ [b.op kind start])

section Rounds

variable {b : Body} {c c' : Cursor} (labels : List Text) (ops : List Op)

lemma run_round_of_atEnd (hc : (Cursor.start b.text).Before c) (hend : c.skipBlanks.atEnd = true) :
    (b.round (labels, ops)).run c.pos = some (.inr (.ok ops), c.skipBlanks.pos) := by
  have hc₁ := hc.trans (Cursor.before_skipBlanks c)
  rw [round, Scan.run_bind_of (Scan.run_skipBlanks hc), Scan.run_bind_of (Scan.run_atEnd hc₁), if_pos hend]
  rfl

lemma run_round_of_error (hc : (Cursor.start b.text).Before c) (hend : ¬ c.skipBlanks.atEnd = true) {cause : Cause}
    (h : OpReader.next b.tables labels c.skipBlanks = .error cause) :
    ∃ n, (b.round (labels, ops)).run c.pos =
      some (.inr (.error (.located cause (b.lines.originAt (b.base + c.skipBlanks.pos)))), n) := by
  have hc₁ := hc.trans (Cursor.before_skipBlanks c)
  have hnext := Scan.followsAt_next b.tables labels hc₁
  rw [h] at hnext
  cases hnext with
  | @error _ n hgo =>
    refine ⟨n, ?_⟩
    rw [round, Scan.run_bind_of (Scan.run_skipBlanks hc), Scan.run_bind_of (Scan.run_atEnd hc₁), if_neg hend]
    exact (Scan.run_bind_of rfl).trans (Scan.run_bind_of hgo)

lemma run_round_of_next (hc : (Cursor.start b.text).Before c) (hend : ¬ c.skipBlanks.atEnd = true) {kind : OpKind}
    (h : OpReader.next b.tables labels c.skipBlanks = .ok (kind, c')) :
    (b.round (labels, ops)).run c.pos =
      some (.inl (kind.defines ++ labels, ops ++ [b.op kind c.skipBlanks.pos]), c'.pos) := by
  have hc₁ := hc.trans (Cursor.before_skipBlanks c)
  have hnext := Scan.followsAt_next b.tables labels hc₁
  rw [h] at hnext
  cases hnext with
  | ok hgo =>
    rw [round, Scan.run_bind_of (Scan.run_skipBlanks hc), Scan.run_bind_of (Scan.run_atEnd hc₁), if_neg hend]
    exact (Scan.run_bind_of rfl).trans (Scan.run_bind_of hgo)

/-- **A body is scanned as it is read**: behind the operations `ops`, the rounds add those from `c` on. -/
theorem ends_round (hc : (Cursor.start b.text).Before c) :
    Scan.Ends b.round (labels, ops) c.pos ((b.opsFrom labels c).map (ops ++ ·)) := by
  have hstep : ∀ {labels : List Text} {c c' : Cursor} {kind : OpKind}, (Cursor.start b.text).Before c →
      OpReader.next b.tables labels c.skipBlanks = .ok (kind, c') → (Cursor.start b.text).Before c' := fun hc h =>
    (hc.trans (Cursor.before_skipBlanks _)).trans (OpReader.ahead_of_next h).before
  fun_induction opsFrom b labels c generalizing ops with
  | case1 labels c hend =>
    rw [Except.map, List.append_nil]
    exact .stop (run_round_of_atEnd labels ops hc hend)
  | case2 labels c hend cause hnext =>
    obtain ⟨n, hround⟩ := run_round_of_error labels ops hc hend hnext
    exact .stop hround
  | case3 labels c hend kind c' hnext f hrest ih =>
    have hends := ih (ops ++ [b.op kind c.skipBlanks.pos]) (hstep hc hnext)
    rw [hrest] at hends
    exact .again (run_round_of_next labels ops hc hend hnext) hends
  | case4 labels c hend kind c' hnext rest hrest ih =>
    have hends := ih (ops ++ [b.op kind c.skipBlanks.pos]) (hstep hc hnext)
    rw [hrest, Except.map, List.append_assoc] at hends
    exact .again (run_round_of_next labels ops hc hend hnext) hends

end Rounds
end Body

/-! ## code tables -/

/-- Scans one entry of the body of a code table, behind entries with the bytes `bytes`. -/
def codeRound (body : Text) (bytes : Bytes) : Scan (Bytes ⊕ Except (Nat × Text) Bytes) := do
  Scan.skipBlanks body
  if ← Scan.atEnd body then return .inr (.ok bytes)
  else
    let offset ← get
    let token ← Scan.takeWhile body fun x => !isBlank x
    match entryBytes? token with
    | some entry => return .inl (bytes ++ entry)
    | none => return .inr (.error (offset, token))

/-- An entry comes next unless only blanks are left. -/
lemma nextEntry_eq_nil_iff {c : Cursor} : (nextEntry c).1 = [] ↔ c.skipBlanks.atEnd = true := by
  have hhead : ∀ x ∈ c.skipBlanks.rest.head?, isBlank x = false := fun x hx => by
    have := List.head?_dropWhile_not isBlank c.rest
    rw [show c.rest.dropWhile isBlank = c.skipBlanks.rest from rfl, Option.mem_def.1 hx] at this
    simpa using this
  show c.skipBlanks.rest.takeWhile _ = [] ↔ c.skipBlanks.rest.isEmpty = true
  cases hrest : c.skipBlanks.rest with
  | nil => simp
  | cons x r =>
    rw [hrest] at hhead
    simp [hhead x rfl]

section CodeRounds

variable {body : Text} {c : Cursor} (bytes : Bytes)

lemma run_codeRound_of_atEnd (hc : (Cursor.start body).Before c) (hend : c.skipBlanks.atEnd = true) :
    (codeRound body bytes).run c.pos = some (.inr (.ok bytes), c.skipBlanks.pos) := by
  have hc₁ := hc.trans (Cursor.before_skipBlanks c)
  rw [codeRound, Scan.run_bind_of (Scan.run_skipBlanks hc), Scan.run_bind_of (Scan.run_atEnd hc₁), if_pos hend]
  rfl

lemma run_codeRound_of_entry (hc : (Cursor.start body).Before c) (hend : ¬ c.skipBlanks.atEnd = true) :
    (codeRound body bytes).run c.pos = some ((entryBytes? (nextEntry c).1).elim
      (.inr (.error (c.skipBlanks.pos, (nextEntry c).1))) fun entry => .inl (bytes ++ entry), (nextEntry c).2.pos) := by
  have hc₁ := hc.trans (Cursor.before_skipBlanks c)
  rw [codeRound, Scan.run_bind_of (Scan.run_skipBlanks hc), Scan.run_bind_of (Scan.run_atEnd hc₁), if_neg hend,
    Scan.run_bind_of rfl, Scan.run_bind_of (Scan.run_takeWhile hc₁ _), nextEntry]
  cases entryBytes? (c.skipBlanks.takeWhile fun x => !isBlank x).1 <;> rfl

/-- **A code table is scanned as it is read**: behind the bytes `bytes`, the rounds add those from `c` on. -/
theorem ends_codeRound (hc : (Cursor.start body).Before c) :
    Scan.Ends (codeRound body) bytes c.pos ((codeBytesFrom c).map (bytes ++ ·)) := by
  fun_induction codeBytesFrom c generalizing bytes with
  | case1 c hend =>
    rw [Except.map, List.append_nil]
    exact .stop (run_codeRound_of_atEnd bytes hc (nextEntry_eq_nil_iff.1 hend))
  | case2 c hne hentry =>
    have hround := run_codeRound_of_entry bytes hc fun hend => hne (nextEntry_eq_nil_iff.2 hend)
    rw [hentry] at hround
    exact .stop hround
  | case3 c hne entry hentry ih =>
    have hround := run_codeRound_of_entry bytes hc fun hend => hne (nextEntry_eq_nil_iff.2 hend)
    rw [hentry] at hround
    have hnext : (Cursor.start body).Before (nextEntry c).2 :=
      (hc.trans (Cursor.before_skipBlanks c)).trans (Cursor.before_takeWhile _ _)
    have hends := ih (bytes ++ entry) hnext
    have hresult : (do return entry ++ (← codeBytesFrom (nextEntry c).2) : Except (Nat × Text) Bytes).map (bytes ++ ·) =
        (codeBytesFrom (nextEntry c).2).map (bytes ++ entry ++ ·) := by
      cases codeBytesFrom (nextEntry c).2 with
      | error e => rfl
      | ok rest => exact congrArg Except.ok (List.append_assoc ..).symm
    rw [hresult]
    exact .again hround hends

end CodeRounds
end MacroAsm
