import MacroAsm.Op
import MacroAsm.Table
import MacroAsm.Target

/-!
# Reading the operations of a body

At each token a fixed list of forms is tried and the first that fits is taken.

* `OpReader.forms`: the forms, in the order in which they are tried;
* `OpReader.next`: the operation at a cursor, or the cause why there is none;
* `Body.ops`: all operations of a body, each with its place and origin.
-/

namespace MacroAsm

/-- The outcome of trying one form: a cause, no fit, or an operation and the cursor behind it. -/
abbrev Attempt := Except Cause (Option (OpKind × Cursor))

namespace OpReader

/-- The trimmed text in parentheses right behind the keyword `word`. -/
def builtin (word : Text) (c : Cursor) : Except Cause (Option (Text × Cursor)) :=
  match c.keyword? word with
  | none => .ok none
  | some c₁ => match c₁.balanced? '(' ')' with
    | some (inner, c₂) => .ok (some (Text.trim inner, c₂))
    | none => .error (.builtinWithoutName word)

/-- The size of an expansion: `__codesize(NAME)` or `__codesize(NAME<args>)`. -/
def codeSize (c : Cursor) : Attempt :=
  match builtin "__codesize".toList c with
  | .error e => .error e
  | .ok none => .ok none
  | .ok (some (inner, c')) => match Target.split? inner with
    | some (callee, args) => .ok (some (.codeSize callee args, c'))
    | none => .error (.malformedCodeSize inner)

/-- The size of a table that is already declared: `__tablesize(NAME)`. -/
def tableSize (tables : TableSet) (c : Cursor) : Attempt :=
  match builtin "__tablesize".toList c with
  | .error e => .error e
  | .ok none => .ok none
  | .ok (some (name, c')) => match tables.find? name with
    | some table => .ok ((OpKind.pushValue? (Numeral.wrapCount table.size)).map (·, c'))
    | none => .error (.unknownTable name)

/-- The offset of a table: `__tablestart(NAME)`. -/
def tableStart (c : Cursor) : Attempt :=
  match builtin "__tablestart".toList c with
  | .error e => .error e
  | .ok none => .ok none
  | .ok (some (name, c')) =>
    if Text.isWord name then .ok (some (.tableStart name, c')) else .error (.malformedTableName name)

/-- The push of a literal's bytes. -/
def pushLiteral (data : Bytes) (digits : Text) : Except Cause OpKind :=
  if Opcode.maxPushWidth < data.length then .error (.literalTooWide digits)
  else match OpKind.push? data with
    | some kind => .ok kind
    | none => .error (.invalidPush digits)

/-- Hexadecimal digits marked `0x`, pushed as wide as they are written. -/
def hexLiteral (c : Cursor) : Attempt :=
  match c.eatText? "0x".toList with
  | none => .ok none
  | some c₁ =>
    let digits := (c₁.takeWhile isHexDigit).1
    let c₂ := (c₁.takeWhile isHexDigit).2
    if digits.isEmpty || c₂.peek?.any isWordChar then
      .error (.malformedHex ("0x".toList ++ digits ++ (c₂.takeWhile isWordChar).1))
    else match pushLiteral ((Bytes.ofHex? digits).getD []) digits with
      | .ok kind => .ok (some (kind, c₂))
      | .error e => .error e

/-- The bracketed group that comes next, if the next character opens one; nothing if it is not closed. -/
def angleGroup? (c : Cursor) : Option (Option Text × Cursor) :=
  if c.peek? = some '<' then (c.balanced? '<' '>').map fun (inner, c') => (some inner, c')
  else some (none, c)

/-- A call: `NAME()`, `NAME(args)` or `NAME<args>()`. -/
def call (c : Cursor) : Attempt :=
  match c.word? with
  | none => .ok none
  | some (callee, c₁) => match angleGroup? c₁ with
    | none => .ok none
    | some (angle, c₂) => match c₂.balanced? '(' ')' with
      | none => .ok none
      | some (paren, c₃) =>
        if angle.isSome && !Text.allBlank paren then .error (.mixedArguments callee)
        else .ok (some (.call callee (Target.argumentGroup (angle.getD paren)), c₃))

/-- A template argument: `<text>`. -/
def template (c : Cursor) : Attempt :=
  if c.peek? = some '<' then
    match c.balanced? '<' '>' with
    | some (inner, c') =>
      if Text.allBlank inner then .error .malformedTemplate
      else .ok (some (.template (Text.trim inner), c'))
    | none => .error .malformedTemplate
  else .ok none

/-- A label: `name:`, each name once in a body. -/
def labelDef (labels : List Text) (c : Cursor) : Attempt :=
  match c.word? with
  | none => .ok none
  | some (label, c₁) => match c₁.eat? ':' with
    | none => .ok none
    | some c₂ =>
      if labels.contains label then .error (.labelRedefined label)
      else .ok (some (.labelDef label, c₂))

/-- Decimal digits, pushed in the fewest bytes. -/
def decimalLiteral (c : Cursor) : Attempt :=
  let digits := (c.takeWhile Char.isDigit).1
  let c' := (c.takeWhile Char.isDigit).2
  if digits.isEmpty || c'.peek?.any isWordChar then .ok none
  else match pushLiteral (Bytes.ofNat ((Numeral.value? digits).getD 0)) digits with
    | .ok kind => .ok (some (kind, c'))
    | .error e => .error e

/-- A bare word: a mnemonic, unless a label of that name was defined before; a label otherwise. -/
def bareWord (labels : List Text) (c : Cursor) : Attempt :=
  match c.word? with
  | none => .ok none
  | some (word, c') =>
    if labels.contains word then .ok (some (.labelRef word, c'))
    else match Opcode.ofMnemonic? word with
      | some b => .ok (some (.opcode b, c'))
      | none => .ok (some (.labelRef word, c'))

/-- The forms of a token in the order in which they are tried. -/
def forms (tables : TableSet) (labels : List Text) : List (Cursor → Attempt) :=
  [codeSize, tableSize tables, tableStart, hexLiteral, call, template, labelDef labels, decimalLiteral,
    bareWord labels]

/-- The outcome of the first form that fits or fails. -/
def firstFit : List (Cursor → Attempt) → Cursor → Attempt
  | [], _ => .ok none
  | form :: rest, c => match form c with
    | .ok none => firstFit rest c
    | outcome => outcome

/-- The operation at a cursor and the cursor behind it. -/
def next (tables : TableSet) (labels : List Text) (c : Cursor) : Except Cause (OpKind × Cursor) :=
  match firstFit (forms tables labels) c with
  | .ok (some r) => .ok r
  | .ok none => .error (.unreadableToken (Text.trim c.line))
  | .error e => .error e

/-! ## every form reads something -/

/-- A form that fits ends at a later place, with less still to read. -/
def Advances (form : Cursor → Attempt) : Prop :=
  ∀ c kind c', form c = .ok (some (kind, c')) → c.Ahead c'

theorem ahead_of_builtin {word : Text} {c c' : Cursor} {t : Text} (h : builtin word c = .ok (some (t, c'))) :
    c.Ahead c' := by
  unfold builtin at h
  split at h
  · cases h
  · next c₁ hword =>
    split at h
    · next inner c₂ hbalanced =>
      cases h
      exact (Cursor.before_of_keyword? hword).trans_ahead (Cursor.ahead_of_balanced? hbalanced)
    · cases h

theorem advances_codeSize : Advances codeSize := by
  intro c kind c' h
  unfold codeSize at h
  split at h
  · cases h
  · cases h
  · next hbuiltin =>
    split at h
    · cases h
      exact ahead_of_builtin hbuiltin
    · cases h

theorem advances_tableSize (tables : TableSet) : Advances (tableSize tables) := by
  intro c kind c' h
  unfold tableSize at h
  split at h
  · cases h
  · cases h
  · next hbuiltin =>
    split at h
    · obtain ⟨_, -, heq⟩ := Option.map_eq_some_iff.1 (Except.ok.inj h)
      cases heq
      exact ahead_of_builtin hbuiltin
    · cases h

theorem advances_tableStart : Advances tableStart := by
  intro c kind c' h
  unfold tableStart at h
  split at h
  · cases h
  · cases h
  · next hbuiltin =>
    split at h
    · cases h
      exact ahead_of_builtin hbuiltin
    · cases h

theorem advances_hexLiteral : Advances hexLiteral := by
  intro c kind c' h
  unfold hexLiteral at h
  split at h
  · cases h
  · next c₁ hmark =>
    simp only at h
    split at h
    · cases h
    · next hdigits =>
      split at h
      · cases h
        refine (Cursor.before_of_eatText? hmark).trans_ahead (Cursor.ahead_takeWhile fun hempty => ?_)
        rw [hempty] at hdigits
        exact hdigits rfl
      · cases h

theorem before_of_angleGroup? {c c' : Cursor} {g : Option Text} (h : angleGroup? c = some (g, c')) : c.Before c' := by
  unfold angleGroup? at h
  split at h
  · obtain ⟨⟨inner, c₁⟩, hbalanced, heq⟩ := Option.map_eq_some_iff.1 h
    cases heq
    exact (Cursor.ahead_of_balanced? hbalanced).before
  · cases h
    exact .refl

theorem advances_call : Advances call := by
  intro c kind c' h
  unfold call at h
  split at h
  · cases h
  · next callee c₁ hword =>
    split at h
    · cases h
    · next angle c₂ hangle =>
      split at h
      · cases h
      · next paren c₃ hparen =>
        split at h
        · cases h
        · cases h
          exact ((Cursor.ahead_of_word? hword).trans_before (before_of_angleGroup? hangle)).trans_before
            (Cursor.ahead_of_balanced? hparen).before

theorem advances_template : Advances template := by
  intro c kind c' h
  unfold template at h
  split at h
  · split at h
    · next inner c₁ hbalanced =>
      split at h
      · cases h
      · cases h
        exact Cursor.ahead_of_balanced? hbalanced
    · cases h
  · cases h

theorem advances_labelDef (labels : List Text) : Advances (labelDef labels) := by
  intro c kind c' h
  unfold labelDef at h
  split at h
  · cases h
  · next label c₁ hword =>
    split at h
    · cases h
    · next c₂ hcolon =>
      split at h
      · cases h
      · cases h
        exact (Cursor.ahead_of_word? hword).trans_before (Cursor.ahead_of_eat? hcolon).before

theorem advances_decimalLiteral : Advances decimalLiteral := by
  intro c kind c' h
  unfold decimalLiteral at h
  simp only at h
  split at h
  · cases h
  · next hdigits =>
    split at h
    · cases h
      refine Cursor.ahead_takeWhile fun hempty => ?_
      rw [hempty] at hdigits
      exact hdigits rfl
    · cases h

theorem advances_bareWord (labels : List Text) : Advances (bareWord labels) := by
  intro c kind c' h
  unfold bareWord at h
  split at h
  · cases h
  · next word c₁ hword =>
    have hahead := Cursor.ahead_of_word? hword
    split at h
    · cases h
      exact hahead
    · split at h <;>
      · cases h
        exact hahead

theorem advances_forms (tables : TableSet) (labels : List Text) : ∀ form ∈ forms tables labels, Advances form := by
  simp only [forms, List.forall_mem_cons, List.not_mem_nil, false_implies, implies_true, and_true]
  exact ⟨advances_codeSize, advances_tableSize tables, advances_tableStart, advances_hexLiteral, advances_call,
    advances_template, advances_labelDef labels, advances_decimalLiteral, advances_bareWord labels⟩

theorem advances_firstFit {forms : List (Cursor → Attempt)} (hforms : ∀ form ∈ forms, Advances form) :
    Advances (firstFit forms) := by
  intro c kind c' h
  induction forms with
  | nil => cases h
  | cons form forms ih =>
    unfold firstFit at h
    split at h
    · exact ih (fun g hg => hforms g (List.mem_cons_of_mem form hg)) h
    · exact hforms form List.mem_cons_self c kind c' h

/-- **An operation ends at a later place** than it starts. -/
theorem ahead_of_next {tables : TableSet} {labels : List Text} {c c' : Cursor} {kind : OpKind}
    (h : next tables labels c = .ok (kind, c')) : c.Ahead c' := by
  unfold next at h
  split at h
  · next hfit =>
    cases h
    exact advances_firstFit (advances_forms tables labels) c kind c' hfit
  · cases h
  · cases h

end OpReader

/-- The text of a macro body with what is around it: the byte of the sources at which it starts, the lines of the
sources, and the tables declared before it. -/
structure Body where
  text : Text
  base : Nat
  lines : Lines
  tables : TableSet

namespace Body

/-- The operation of a given kind that is written at a byte of the body. -/
def op (b : Body) (kind : OpKind) (pos : Nat) : Op :=
  ⟨kind, b.base + pos, b.lines.originAt (b.base + pos)⟩

/-- The operations from a cursor on; `labels` are those defined before it. -/
def opsFrom (b : Body) (labels : List Text) (c : Cursor) : Except Fault (List Op) :=
  if c.skipBlanks.atEnd then .ok []
  else match _h : OpReader.next b.tables labels c.skipBlanks with
    | .error cause => .error (.located cause (b.lines.originAt (b.base + c.skipBlanks.pos)))
    | .ok (kind, c') => match opsFrom b (kind.defines ++ labels) c' with
      | .error f => .error f
      | .ok ops => .ok (b.op kind c.skipBlanks.pos :: ops)
termination_by c.rest.length
decreasing_by exact ((Cursor.before_skipBlanks c).trans_ahead (OpReader.ahead_of_next _h)).shorter

/-- The operations of the body. -/
def ops (b : Body) : Except Fault (List Op) := b.opsFrom [] (Cursor.start b.text)

/-! ## one operation after the other -/

section Steps

variable {b : Body} {labels : List Text} {c c' : Cursor}

theorem opsFrom_of_atEnd (h : c.skipBlanks.atEnd = true) : b.opsFrom labels c = .ok [] := by
  rw [opsFrom, if_pos h]

theorem opsFrom_of_error {cause : Cause} (hend : ¬ c.skipBlanks.atEnd = true)
    (h : OpReader.next b.tables labels c.skipBlanks = .error cause) :
    b.opsFrom labels c = .error (.located cause (b.lines.originAt (b.base + c.skipBlanks.pos))) := by
  rw [opsFrom, if_neg hend]
  split
  · next herror =>
    rw [h] at herror
    cases herror
    rfl
  · next hok =>
    rw [h] at hok
    cases hok

theorem opsFrom_of_next {kind : OpKind} (hend : ¬ c.skipBlanks.atEnd = true)
    (h : OpReader.next b.tables labels c.skipBlanks = .ok (kind, c')) :
    b.opsFrom labels c =
      b.opsFrom (kind.defines ++ labels) c' >>= fun ops => .ok (b.op kind c.skipBlanks.pos :: ops) := by
  rw [opsFrom, if_neg hend]
  split
  · next herror =>
    rw [h] at herror
    cases herror
  · next hok =>
    rw [h] at hok
    cases hok
    cases b.opsFrom (kind.defines ++ labels) c' <;> rfl

/-- Blanks in front do not count. -/
theorem opsFrom_of_skipBlanks (h : c.skipBlanks = c'.skipBlanks) : b.opsFrom labels c = b.opsFrom labels c' := by
  rw [opsFrom, h, ← opsFrom]

end Steps

end Body
end MacroAsm
