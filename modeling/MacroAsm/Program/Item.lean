import MacroAsm.Fault
import MacroAsm.Cursor
import MacroAsm.Numeral

/-!
# Top-level items

* `Item`: a list of template parameters, a macro definition or a table, with its body still as text;
* `Item.read here pending c`: the item at a cursor, given its origin and whether a parameter list is waiting for its
  macro.
-/

namespace MacroAsm

/-- A piece of a program at top level. `bodyPos` is the byte at which the body starts. -/
inductive Item where
  | params (names : List Text)
  | defn (name : Text) (takes returns : Nat) (body : Text) (bodyPos : Nat)
  | jumpTable (name : Text) (packed : Bool) (body : Text)
  | codeTable (name body : Text) (bodyPos : Nat)
  deriving DecidableEq

namespace Item

/-- What the first words of an item announce. -/
inductive Head where
  | params
  | decl (kind : DeclKind)
  deriving DecidableEq

/-- Behind the word `template` and the blanks after it, if it comes next. -/
def skipTemplateWord (c : Cursor) : Cursor :=
  match c.keyword? "template".toList with
  | some c' => c'.skipBlanks
  | none => c

/-- A cursor on the bracket that opens a parameter list; the word `template` may stand before it. -/
def paramsHead? (c : Cursor) : Option Cursor :=
  if (skipTemplateWord c).peek? = some '<' then some (skipTemplateWord c) else none

/-- The kind of a table. -/
def tableHead? (c : Cursor) : Option (DeclKind × Cursor) :=
  match c.keyword? "jumptable__packed".toList with
  | some c' => some (.packedJumpTable, c')
  | none => match c.keyword? "jumptable".toList with
    | some c' => some (.jumpTable, c')
    | none => (c.keyword? "table".toList).map (.codeTable, ·)

/-- The kind of a declaration; `#define` may stand before a table and has to stand before a macro. -/
def declHead? (c : Cursor) : Option (DeclKind × Cursor) :=
  match c.keyword? "#define".toList with
  | none => tableHead? c
  | some c₁ => match c₁.skipBlanks.keyword? "macro".toList with
    | some c₂ => some (.defn, c₂)
    | none => tableHead? c₁.skipBlanks

/-- The announcement of an item and the cursor behind it; a parameter list starts at its bracket. -/
def head? (c : Cursor) : Option (Head × Cursor) :=
  match paramsHead? c with
  | some c' => some (.params, c')
  | none => (declHead? c).map fun (k, c') => (.decl k, c')

/-- A bracketed list of parameter names. -/
def readParams (c : Cursor) : Except Cause (Item × Cursor) :=
  match c.balanced? '<' '>' with
  | none => .error .unclosedParams
  | some (inner, c') => match (Text.splitCommas inner).find? fun p => !Text.isWord p with
    | some bad => .error (.invalidParam bad)
    | none => .ok (.params (Text.splitCommas inner), c')

/-- The name of a declaration. -/
def readName (kind : DeclKind) (c : Cursor) : Except Cause (Text × Cursor) :=
  match c.skipBlanks.word? with
  | none => .error (.missingName kind)
  | some (name, c') =>
    if Text.isName name then .ok (name, c') else .error (.forbiddenName kind name)

/-- The number of arguments that may stand in parentheses right behind a macro's name; it is read over. -/
def skipParamCount (name : Text) (c : Cursor) : Except Cause Cursor :=
  if c.peek? = some '(' then
    match c.balanced? '(' ')' with
    | none => .ok c
    | some (inner, c') =>
      if Text.allBlank inner || (Numeral.count? inner).isSome then .ok c'
      else .error (.invalidParamCount name)
  else .ok c

/-- The character `x` after optional blanks. -/
def expect (x : Char) (cause : Text → Cause) (c : Cursor) : Except Cause Cursor :=
  match c.skipBlanks.eat? x with
  | some c' => .ok c'
  | none => .error (cause (Text.trim c.skipBlanks.line))

/-- A count in parentheses behind a keyword. -/
def readCount (keyword : Text) (c : Cursor) : Except Cause (Nat × Cursor) :=
  match c.skipBlanks.keyword? keyword with
  | none => .error (.missingCount keyword)
  | some c₁ => match c₁.skipBlanks.balanced? '(' ')' with
    | none => .error (.invalidCount keyword [])
    | some (inner, c₂) => match Numeral.count? inner with
      | some n => .ok (n, c₂)
      | none => .error (.invalidCount keyword (Text.trim inner))

/-- A body in braces, up to the first closing one, and the byte at which it starts. -/
def readBody (name : Text) (c : Cursor) : Except Cause (Text × Nat × Cursor) :=
  match expect '{' .missingBrace c with
  | .error e => .error e
  | .ok c₁ => match c₁.until? '}' with
    | some (body, c₂) => .ok (body, c₁.pos, c₂)
    | none => .error (.unclosedBody name)

/-- A macro definition from behind its name. -/
def readDefn (name : Text) (c : Cursor) : Except Cause (Item × Cursor) := do
  let c₁ ← skipParamCount name c
  let c₂ ← expect '=' .missingEquals c₁
  let (takes, c₃) ← readCount "takes".toList c₂
  let (returns, c₄) ← readCount "returns".toList c₃
  let (body, bodyPos, c₅) ← readBody name c₄
  return (.defn name takes returns body bodyPos, c₅)

/-- A declaration from behind the words that announce it. -/
def readDecl (kind : DeclKind) (c : Cursor) : Except Cause (Item × Cursor) := do
  let (name, c₁) ← readName kind c
  match kind with
  | .defn => readDefn name c₁
  | .jumpTable =>
    let (body, _, c₂) ← readBody name c₁
    return (.jumpTable name false body, c₂)
  | .packedJumpTable =>
    let (body, _, c₂) ← readBody name c₁
    return (.jumpTable name true body, c₂)
  | .codeTable =>
    let (body, bodyPos, c₂) ← readBody name c₁
    return (.codeTable name body bodyPos, c₂)

/-- The item at a cursor. A parameter list that is waiting may be followed by a macro only. -/
def read (here : Origin) (pending : Bool) (c : Cursor) : Except Cause (Item × Cursor) :=
  if (c.keyword? "#include".toList).isSome then .error .lateInclude
  else match head? c with
    | none => .error (.unreadableLine here.line here.file.toList (Text.trim here.text.toList))
    | some (.params, c') => if pending then .error .paramsWithoutMacro else readParams c'
    | some (.decl kind, c') =>
      if pending && kind != .defn then .error .paramsWithoutMacro else readDecl kind c'

/-! ## every item takes something -/

section Progress

variable {c c' : Cursor} {name : Text} {item : Item}

theorem before_skipTemplateWord (c : Cursor) : c.Before (skipTemplateWord c) := by
  unfold skipTemplateWord
  split
  · next c₁ hword => exact (Cursor.before_of_keyword? hword).trans (Cursor.before_skipBlanks c₁)
  · exact .refl

theorem before_of_paramsHead? (h : paramsHead? c = some c') : c.Before c' := by
  unfold paramsHead? at h
  split at h
  · cases h
    exact before_skipTemplateWord c
  · cases h

theorem before_of_tableHead? {kind : DeclKind} (h : tableHead? c = some (kind, c')) : c.Before c' := by
  unfold tableHead? at h
  split at h
  · next hword =>
    cases h
    exact Cursor.before_of_keyword? hword
  · split at h
    · next hword =>
      cases h
      exact Cursor.before_of_keyword? hword
    · obtain ⟨c₁, hword, heq⟩ := Option.map_eq_some_iff.1 h
      cases heq
      exact Cursor.before_of_keyword? hword

theorem before_of_declHead? {kind : DeclKind} (h : declHead? c = some (kind, c')) : c.Before c' := by
  unfold declHead? at h
  split at h
  · exact before_of_tableHead? h
  · next c₁ hdefine =>
    have hfirst := (Cursor.before_of_keyword? hdefine).trans (Cursor.before_skipBlanks c₁)
    split at h
    · next c₂ hmacro =>
      cases h
      exact hfirst.trans (Cursor.before_of_keyword? hmacro)
    · exact hfirst.trans (before_of_tableHead? h)

theorem before_of_head? {head : Head} (h : head? c = some (head, c')) : c.Before c' := by
  unfold head? at h
  split at h
  · next hparams =>
    cases h
    exact before_of_paramsHead? hparams
  · obtain ⟨⟨kind, c₁⟩, hdecl, heq⟩ := Option.map_eq_some_iff.1 h
    cases heq
    exact before_of_declHead? hdecl

theorem ahead_of_readParams (h : readParams c = .ok (item, c')) : c.Ahead c' := by
  unfold readParams at h
  split at h
  · cases h
  · next inner c₁ hbalanced =>
    split at h
    · cases h
    · cases h
      exact Cursor.ahead_of_balanced? hbalanced

theorem ahead_of_readName {kind : DeclKind} (h : readName kind c = .ok (name, c')) : c.Ahead c' := by
  unfold readName at h
  split at h
  · cases h
  · next w c₁ hword =>
    split at h
    · cases h
      exact (Cursor.before_skipBlanks c).trans_ahead (Cursor.ahead_of_word? hword)
    · cases h

theorem before_of_skipParamCount (h : skipParamCount name c = .ok c') : c.Before c' := by
  unfold skipParamCount at h
  split at h
  · split at h
    · cases h
      exact .refl
    · next inner c₁ hbalanced =>
      split at h
      · cases h
        exact (Cursor.ahead_of_balanced? hbalanced).before
      · cases h
  · cases h
    exact .refl

theorem ahead_of_expect {x : Char} {cause : Text → Cause} (h : expect x cause c = .ok c') : c.Ahead c' := by
  unfold expect at h
  split at h
  · next c₁ heat =>
    cases h
    exact (Cursor.before_skipBlanks c).trans_ahead (Cursor.ahead_of_eat? heat)
  · cases h

theorem ahead_of_readCount {word : Text} {n : Nat} (h : readCount word c = .ok (n, c')) : c.Ahead c' := by
  unfold readCount at h
  split at h
  · cases h
  · next c₁ hword =>
    split at h
    · cases h
    · next inner c₂ hbalanced =>
      split at h
      · cases h
        exact ((Cursor.before_skipBlanks c).trans (Cursor.before_of_keyword? hword)).trans_ahead
          ((Cursor.before_skipBlanks c₁).trans_ahead (Cursor.ahead_of_balanced? hbalanced))
      · cases h

theorem ahead_of_readBody {body : Text} {bodyPos : Nat} (h : readBody name c = .ok (body, bodyPos, c')) :
    c.Ahead c' := by
  unfold readBody at h
  split at h
  · cases h
  · next c₁ hopen =>
    split at h
    · next hclose =>
      cases h
      exact (ahead_of_expect hopen).trans_before (Cursor.ahead_of_until? hclose).before
    · cases h

theorem ahead_of_readDefn (h : readDefn name c = .ok (item, c')) : c.Ahead c' := by
  obtain ⟨c₁, h₁, h⟩ := ok_of_bind h
  obtain ⟨c₂, h₂, h⟩ := ok_of_bind h
  obtain ⟨⟨takes, c₃⟩, h₃, h⟩ := ok_of_bind h
  obtain ⟨⟨returns, c₄⟩, h₄, h⟩ := ok_of_bind h
  obtain ⟨⟨body, bodyPos, c₅⟩, h₅, h⟩ := ok_of_bind h
  cases h
  have hcounts : c₂.Before c₄ := (ahead_of_readCount h₃).before.trans (ahead_of_readCount h₄).before
  exact ((before_of_skipParamCount h₁).trans_ahead (ahead_of_expect h₂)).trans_before
    (hcounts.trans (ahead_of_readBody h₅).before)

theorem ahead_of_readDecl {kind : DeclKind} (h : readDecl kind c = .ok (item, c')) : c.Ahead c' := by
  obtain ⟨⟨name, c₁⟩, h₁, h⟩ := ok_of_bind h
  cases kind with
  | defn => exact (ahead_of_readName h₁).trans_before (ahead_of_readDefn h).before
  | jumpTable | packedJumpTable | codeTable =>
    obtain ⟨⟨body, bodyPos, c₂⟩, h₂, h⟩ := ok_of_bind h
    cases h
    exact (ahead_of_readName h₁).trans_before (ahead_of_readBody h₂).before

/-- **An item ends at a later place** than it starts. -/
theorem ahead_of_read {here : Origin} {pending : Bool} (h : read here pending c = .ok (item, c')) : c.Ahead c' := by
  unfold read at h
  split at h
  · cases h
  · split at h
    · cases h
    · next c₁ hhead =>
      split at h
      · cases h
      · exact (before_of_head? hhead).trans_ahead (ahead_of_readParams h)
    · next kind c₁ hhead =>
      split at h
      · cases h
      · exact (before_of_head? hhead).trans_ahead (ahead_of_readDecl h)

end Progress

end Item
end MacroAsm
