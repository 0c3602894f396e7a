import MacroAsm.Proofs.Scans

/-!
# Reading sources byte by byte

What some sources declare is read by the same kind of cursor as a body: a number of bytes, which is put back where
something else turned out to come.

* `Scan.readItem`, `Scan.followsAt_readItem`: an item at top level;
* `Program.round`, `Program.ends_round`: the sources, item by item.
-/

namespace MacroAsm

namespace Scan

variable (t : Text)

/-! ## items -/

/-- Goes behind the word `template` and the blanks after it, if it comes next. -/
def skipTemplateWord : Scan Unit := do
  if ← finds t (.keyword "template".toList) then skipBlanks t

/-- A list of template parameters; if none comes next, the scan goes back to byte `start`. -/
def readParams? (pending : Bool) (start : Nat) : Trial (Option Item) := do
  skipTemplateWord t
  if (← peek? t) = some '<' then
    if pending then throw .paramsWithoutMacro
    else match ← text? t (.balanced '<' '>') with
      | none => throw .unclosedParams
      | some inner => match (Text.splitCommas inner).find? fun p => !Text.isWord p with
        | some bad => throw (.invalidParam bad)
        | none => return some (.params (Text.splitCommas inner))
  else
    jump t start
    return none

/-- The kind of a table; if none comes next, the scan goes back to byte `start`. -/
def tableHead? (start : Nat) : Scan (Option DeclKind) := do
  if ← finds t (.keyword "jumptable__packed".toList) then return some .packedJumpTable
  else if ← finds t (.keyword "jumptable".toList) then return some .jumpTable
  else if ← finds t (.keyword "table".toList) then return some .codeTable
  else
    jump t start
    return none

/-- The kind of a declaration. -/
def declHead? : Scan (Option DeclKind) := do
  let start ← get
  if ← finds t (.keyword "#define".toList) then
    skipBlanks t
    if ← finds t (.keyword "macro".toList) then return some .defn
    else tableHead? t start
  else tableHead? t start

/-- The name of a declaration. -/
def readName (kind : DeclKind) : Trial Text := do
  skipBlanks t
  match ← text? t .word with
  | none => throw (.missingName kind)
  | some name => if Text.isName name then return name else throw (.forbiddenName kind name)

/-- The number of arguments that may stand in parentheses right behind a macro's name. -/
def skipParamCount (name : Text) : Trial Unit := do
  if (← peek? t) = some '(' then
    let group ← text? t (.balanced '(' ')')
    if Text.allBlank (group.getD []) || (Numeral.count? (group.getD [])).isSome then return ()
    else throw (.invalidParamCount name)
  else return ()

/-- The character `x` after optional blanks. -/
def expect (x : Char) (cause : Text → Cause) : Trial Unit := do
  skipBlanks t
  if ← finds t (.eat x) then return ()
  else
    let line ← text? t .line
    throw (cause (Text.trim (line.getD [])))

/-- A count in parentheses behind a keyword. -/
def readCount (keyword : Text) : Trial Nat := do
  skipBlanks t
  if ← finds t (.keyword keyword) then
    skipBlanks t
    let group ← text? t (.balanced '(' ')')
    match Numeral.count? (group.getD []) with
    | some n => return n
    | none => throw (.invalidCount keyword (Text.trim (group.getD [])))
  else throw (.missingCount keyword)

/-- A body in braces, and the byte at which it starts. -/
def readBody (name : Text) : Trial (Text × Nat) := do
  expect t '{' .missingBrace
  let start ← get
  match ← text? t (.untilChar '}') with
  | some body => return (body, start)
  | none => throw (.unclosedBody name)

/-- A macro definition from behind its name. -/
def readDefn (name : Text) : Trial Item := do
  skipParamCount t name
  expect t '=' .missingEquals
  let takes ← readCount t "takes".toList
  let returns ← readCount t "returns".toList
  let body ← readBody t name
  return .defn name takes returns body.1 body.2

/-- A declaration from behind the words that announce it. -/
def readDecl (kind : DeclKind) : Trial Item := do
  let name ← readName t kind
  match kind with
  | .defn => readDefn t name
  | .jumpTable =>
    let body ← readBody t name
    return .jumpTable name false body.1
  | .packedJumpTable =>
    let body ← readBody t name
    return .jumpTable name true body.1
  | .codeTable =>
    let body ← readBody t name
    return .codeTable name body.1 body.2

/-- The item that comes next. -/
def readItem (here : Origin) (pending : Bool) : Trial Item := do
  let start ← get
  if ← finds t (.keyword "#include".toList) then throw .lateInclude
  else match ← readParams? t pending start with
    | some item => return item
    | none => match ← declHead? t with
      | none => throw (.unreadableLine here.line here.file.toList (Text.trim here.text.toList))
      | some kind => if pending && kind != .defn then throw .paramsWithoutMacro else readDecl t kind

/-! ## items as they are read -/

section Items

variable {t} {c c' : Cursor}

lemma run_skipTemplateWord (hc : (Cursor.start t).Before c) :
    (skipTemplateWord t).run c.pos = some ((), (Item.skipTemplateWord c).pos) := by
  unfold skipTemplateWord Item.skipTemplateWord
  cases hk : c.keyword? "template".toList with
  | none =>
    rw [run_bind_of (run_finds hc (by rw [Cursor.read, hk]))]
    rfl
  | some c₁ =>
    rw [run_bind_of (run_finds hc (by rw [Cursor.read, hk]))]
    exact run_skipBlanks (hc.trans (Cursor.before_of_keyword? hk))

/-- A table that is announced at `c`; if there is none, the scan goes back to `c₀`. -/
lemma run_tableHead? {c₀ : Cursor} (hc₀ : (Cursor.start t).Before c₀) (hc : (Cursor.start t).Before c) :
    (tableHead? t c₀.pos).run c.pos = some ((Item.tableHead? c).map Prod.fst,
      (((Item.tableHead? c).map Prod.snd).getD c₀).pos) := by
  unfold tableHead? Item.tableHead?
  cases h₁ : c.keyword? "jumptable__packed".toList with
  | some c₁ =>
    rw [run_bind_of (run_finds hc (by rw [Cursor.read, h₁]))]
    rfl
  | none =>
    rw [run_bind_of (run_finds hc (by rw [Cursor.read, h₁])), if_neg Bool.false_ne_true]
    dsimp only
    cases h₂ : c.keyword? "jumptable".toList with
    | some c₂ =>
      rw [run_bind_of (run_finds hc (by rw [Cursor.read, h₂]))]
      rfl
    | none =>
      rw [run_bind_of (run_finds hc (by rw [Cursor.read, h₂])), if_neg Bool.false_ne_true]
      dsimp only
      cases h₃ : c.keyword? "table".toList with
      | some c₃ =>
        rw [run_bind_of (run_finds hc (by rw [Cursor.read, h₃]))]
        rfl
      | none =>
        rw [run_bind_of (run_finds hc (by rw [Cursor.read, h₃])), if_neg Bool.false_ne_true,
          run_bind_of (run_jump hc₀ _)]
        rfl

lemma run_declHead? (hc : (Cursor.start t).Before c) :
    (declHead? t).run c.pos = some ((Item.declHead? c).map Prod.fst,
      (((Item.declHead? c).map Prod.snd).getD c).pos) := by
  unfold declHead? Item.declHead?
  rw [run_bind_of rfl]
  cases hd : c.keyword? "#define".toList with
  | none =>
    rw [run_bind_of (run_finds hc (by rw [Cursor.read, hd]))]
    exact run_tableHead? hc hc
  | some c₁ =>
    have hc₁ := hc.trans (Cursor.before_of_keyword? hd)
    have hc₂ := hc₁.trans (Cursor.before_skipBlanks c₁)
    rw [run_bind_of (run_finds hc (by rw [Cursor.read, hd])), if_pos rfl, run_bind_of (run_skipBlanks hc₁)]
    dsimp only
    cases hm : c₁.skipBlanks.keyword? "macro".toList with
    | some c₂ =>
      rw [run_bind_of (run_finds hc₂ (by rw [Cursor.read, hm]))]
      rfl
    | none =>
      rw [run_bind_of (run_finds hc₂ (by rw [Cursor.read, hm]))]
      exact run_tableHead? hc hc₂

lemma followsAt_readName (kind : DeclKind) (hc : (Cursor.start t).Before c) :
    FollowsAt (readName t kind) c.pos (Item.readName kind c) := by
  have hc₁ := hc.trans (Cursor.before_skipBlanks c)
  refine .lift (run_skipBlanks hc) ?_
  unfold Item.readName
  cases hw : c.skipBlanks.word? with
  | none => exact .lift (run_text?_nothing hc₁ (by rw [Cursor.read, hw])) (.error rfl)
  | some p =>
    refine .lift (run_text? hc₁ (by rw [Cursor.read, hw])) ?_
    dsimp only
    split
    · exact .ok rfl
    · exact .error rfl

lemma followsAt_skipParamCount (name : Text) (hc : (Cursor.start t).Before c) :
    FollowsAt (skipParamCount t name) c.pos ((Item.skipParamCount name c).map ((), ·)) := by
  refine .lift (run_peek? hc) ?_
  unfold Item.skipParamCount
  split
  · cases hb : c.balanced? '(' ')' with
    | none => exact .lift (run_text?_nothing hc (by rw [Cursor.read, hb])) (.ok rfl)
    | some p =>
      refine .lift (run_text? hc (by rw [Cursor.read, hb])) ?_
      dsimp only [Option.getD_some]
      split
      · exact .ok rfl
      · exact .error rfl
  · exact .ok rfl

lemma followsAt_expect (x : Char) (cause : Text → Cause) (hc : (Cursor.start t).Before c) :
    FollowsAt (expect t x cause) c.pos ((Item.expect x cause c).map ((), ·)) := by
  have hc₁ := hc.trans (Cursor.before_skipBlanks c)
  refine .lift (run_skipBlanks hc) ?_
  unfold Item.expect
  cases he : c.skipBlanks.eat? x with
  | some c' => exact .lift (run_finds hc₁ (by rw [Cursor.read, he])) (.ok rfl)
  | none => exact .lift (run_finds hc₁ (by rw [Cursor.read, he])) (.lift (run_text? hc₁ rfl) (.error rfl))

lemma followsAt_readCount (keyword : Text) (hc : (Cursor.start t).Before c) :
    FollowsAt (readCount t keyword) c.pos (Item.readCount keyword c) := by
  have hc₁ := hc.trans (Cursor.before_skipBlanks c)
  refine .lift (run_skipBlanks hc) ?_
  unfold Item.readCount
  cases hk : c.skipBlanks.keyword? keyword with
  | none => exact .lift (run_finds hc₁ (by rw [Cursor.read, hk])) (.error rfl)
  | some c₂ =>
    have hc₂ := hc₁.trans (Cursor.before_of_keyword? hk)
    have hc₃ := hc₂.trans (Cursor.before_skipBlanks c₂)
    refine .lift (run_finds hc₁ (by rw [Cursor.read, hk])) ?_
    rw [if_pos rfl]
    refine .lift (run_skipBlanks hc₂) ?_
    dsimp only
    cases hb : c₂.skipBlanks.balanced? '(' ')' with
    | none => exact .lift (run_text?_nothing hc₃ (by rw [Cursor.read, hb])) (.error rfl)
    | some p =>
      refine .lift (run_text? hc₃ (by rw [Cursor.read, hb])) ?_
      dsimp only [Option.getD_some]
      cases Numeral.count? p.1 with
      | none => exact .error rfl
      | some n => exact .ok rfl

lemma followsAt_readBody (name : Text) (hc : (Cursor.start t).Before c) :
    FollowsAt (readBody t name) c.pos ((Item.readBody name c).map fun p => ((p.1, p.2.1), p.2.2)) := by
  have hexpect := followsAt_expect '{' .missingBrace hc
  unfold Item.readBody
  cases he : Item.expect '{' .missingBrace c with
  | error e =>
    rw [he] at hexpect
    cases hexpect with
    | error h => exact .bind_error h
  | ok c₁ =>
    have hc₁ := hc.trans (Item.ahead_of_expect he).before
    rw [he] at hexpect
    cases hexpect with
    | ok h =>
      refine .bind h (.lift (y := get) rfl ?_)
      dsimp only
      cases hu : c₁.until? '}' with
      | none => exact .lift (run_text?_nothing hc₁ (by rw [Cursor.read, hu])) (.error rfl)
      | some p => exact .lift (run_text? hc₁ (by rw [Cursor.read, hu])) (.ok rfl)

lemma followsAt_readDefn (name : Text) (hc : (Cursor.start t).Before c) :
    FollowsAt (readDefn t name) c.pos (Item.readDefn name c) := by
  refine .andThen (followsAt_skipParamCount name hc) fun c₁ h₁ => ?_
  have hc₁ := hc.trans (Item.before_of_skipParamCount h₁)
  refine .andThen (followsAt_expect '=' .missingEquals hc₁) fun c₂ h₂ => ?_
  have hc₂ := hc₁.trans (Item.ahead_of_expect h₂).before
  refine .seq (followsAt_readCount "takes".toList hc₂) fun p₃ h₃ => ?_
  have hc₃ := hc₂.trans (Item.ahead_of_readCount h₃).before
  refine .seq (followsAt_readCount "returns".toList hc₃) fun p₄ h₄ => ?_
  have hc₄ := hc₃.trans (Item.ahead_of_readCount h₄).before
  exact .andThen (followsAt_readBody name hc₄) fun p₅ _ => .ok rfl

lemma followsAt_readDecl (kind : DeclKind) (hc : (Cursor.start t).Before c) :
    FollowsAt (readDecl t kind) c.pos (Item.readDecl kind c) := by
  refine .seq (followsAt_readName kind hc) fun p h => ?_
  have hp := hc.trans (Item.ahead_of_readName h).before
  cases kind with
  | defn => exact followsAt_readDefn p.1 hp
  | jumpTable | packedJumpTable | codeTable => exact .andThen (followsAt_readBody p.1 hp) fun _ _ => .ok rfl

/-- Where no parameter list comes next, the scan is back where it was. -/
lemma go_readParams?_of_none (pending : Bool) (hc : (Cursor.start t).Before c) (h : Item.paramsHead? c = none) :
    (readParams? t pending c.pos).go c.pos = some (.ok none, c.pos) := by
  have hpeek : ¬ (Item.skipTemplateWord c).peek? = some '<' := fun hp => by
    rw [Item.paramsHead?, if_pos hp] at h
    cases h
  have hc₁ := hc.trans (Item.before_skipTemplateWord c)
  rw [readParams?, Trial.go_bind_ok (Trial.go_lift (run_skipTemplateWord hc)),
    Trial.go_bind_ok (Trial.go_lift (run_peek? hc₁)), if_neg hpeek, Trial.go_bind_ok (Trial.go_lift (run_jump hc _))]
  rfl

lemma triesAt_readParams? (pending : Bool) (hc : (Cursor.start t).Before c) (h : Item.paramsHead? c = some c') :
    TriesAt (readParams? t pending c.pos) c.pos
      ((if pending then .error .paramsWithoutMacro else Item.readParams c').map some) := by
  have hc₁ := hc.trans (Item.before_skipTemplateWord c)
  refine .lift (run_skipTemplateWord hc) (.lift (run_peek? hc₁) ?_)
  unfold Item.paramsHead? at h
  split at h
  · next hpeek =>
    cases h
    rw [if_pos hpeek]
    split
    · exact .error rfl
    · unfold Item.readParams
      cases hb : (Item.skipTemplateWord c).balanced? '<' '>' with
      | none => exact .lift (run_text?_nothing hc₁ (by rw [Cursor.read, hb])) (.error rfl)
      | some p =>
        refine .lift (run_text? hc₁ (by rw [Cursor.read, hb])) ?_
        dsimp only
        cases (Text.splitCommas p.1).find? fun q => !Text.isWord q with
        | some bad => exact .error rfl
        | none => exact .some rfl
  · cases h

/-- **An item at top level** is scanned as it is read. -/
theorem followsAt_readItem (here : Origin) (pending : Bool) (hc : (Cursor.start t).Before c) :
    FollowsAt (readItem t here pending) c.pos (Item.read here pending c) := by
  refine .lift (y := get) rfl ?_
  unfold Item.read
  cases hk : c.keyword? "#include".toList with
  | some c₁ => exact .lift (run_finds hc (by rw [Cursor.read, hk])) (.error rfl)
  | none =>
    refine .lift (run_finds hc (by rw [Cursor.read, hk])) ?_
    rw [if_neg Bool.false_ne_true, Option.isSome_none, if_neg Bool.false_ne_true, Item.head?]
    cases hp : Item.paramsHead? c with
    | some c₁ =>
      have htries := triesAt_readParams? pending hc hp
      dsimp only
      generalize (if pending then .error .paramsWithoutMacro else Item.readParams c₁) = outcome at htries
      cases outcome with
      | error e =>
        cases htries with
        | error h => exact .bind_error h
      | ok p =>
        cases htries with
        | some h => exact .bind h (.ok rfl)
    | none =>
      refine .bind (go_readParams?_of_none pending hc hp) (.lift (run_declHead? hc) ?_)
      cases hd : Item.declHead? c with
      | none => exact .error rfl
      | some p =>
        have hp := hc.trans (Item.before_of_declHead? (show _ = some (p.1, p.2) from hd))
        dsimp only [Option.map_some, Option.getD_some]
        split
        · exact .error rfl
        · exact followsAt_readDecl p.1 hp

end Items
end Scan

/-! ## sources -/

namespace Program

/-- What is left to do after an item: nothing if it cannot be taken in. -/
def Draft.resume (l : Lines) (here : Origin) (st : Draft) (item : Item) : Draft ⊕ Except Fault Program :=
  match st.add l here item with
  | .error f => .inr (.error f)
  | .ok st' => .inl st'

/-- Scans one item of some sources, of which `st` has been read. -/
def round (s : Sources) (st : Draft) : Scan (Draft ⊕ Except Fault Program) := do
  Scan.skipBlanks s.text
  if ← Scan.atEnd s.text then return .inr st.finish
  else
    let start ← get
    let here := s.lines.originAt start
    match ← (Scan.readItem s.text here st.pending.isSome).run with
    | .error cause => return .inr (.error (.located cause here))
    | .ok item => return st.resume s.lines here item

section Rounds

variable {s : Sources} {c c' : Cursor} (st : Draft)

lemma run_round_of_atEnd (hc : (Cursor.start s.text).Before c) (hend : c.skipBlanks.atEnd = true) :
    (round s st).run c.pos = some (.inr st.finish, c.skipBlanks.pos) := by
  have hc₁ := hc.trans (Cursor.before_skipBlanks c)
  rw [round, Scan.run_bind_of (Scan.run_skipBlanks hc), Scan.run_bind_of (Scan.run_atEnd hc₁), if_pos hend]
  rfl

lemma run_round_of_error (hc : (Cursor.start s.text).Before c) (hend : ¬ c.skipBlanks.atEnd = true) {cause : Cause}
    (h : Item.read (s.lines.originAt c.skipBlanks.pos) st.pending.isSome c.skipBlanks = .error cause) :
    ∃ n, (round s st).run c.pos =
      some (.inr (.error (.located cause (s.lines.originAt c.skipBlanks.pos))), n) := by
  have hc₁ := hc.trans (Cursor.before_skipBlanks c)
  have hitem := Scan.followsAt_readItem (s.lines.originAt c.skipBlanks.pos) st.pending.isSome hc₁
  rw [h] at hitem
  cases hitem with
  | @error _ n hgo =>
    refine ⟨n, ?_⟩
    rw [round, Scan.run_bind_of (Scan.run_skipBlanks hc), Scan.run_bind_of (Scan.run_atEnd hc₁), if_neg hend]
    exact (Scan.run_bind_of rfl).trans (Scan.run_bind_of hgo)

lemma run_round_of_item (hc : (Cursor.start s.text).Before c) (hend : ¬ c.skipBlanks.atEnd = true) {item : Item}
    (h : Item.read (s.lines.originAt c.skipBlanks.pos) st.pending.isSome c.skipBlanks = .ok (item, c')) :
    (round s st).run c.pos = some (st.resume s.lines (s.lines.originAt c.skipBlanks.pos) item, c'.pos) := by
  have hc₁ := hc.trans (Cursor.before_skipBlanks c)
  have hitem := Scan.followsAt_readItem (s.lines.originAt c.skipBlanks.pos) st.pending.isSome hc₁
  rw [h] at hitem
  cases hitem with
  | ok hgo =>
    rw [round, Scan.run_bind_of (Scan.run_skipBlanks hc), Scan.run_bind_of (Scan.run_atEnd hc₁), if_neg hend]
    exact (Scan.run_bind_of rfl).trans (Scan.run_bind_of hgo)

/-- **Sources are scanned as they are read**: the rounds take in the items from `c` on. -/
theorem ends_round (hc : (Cursor.start s.text).Before c) :
    Scan.Ends (round s) st c.pos (st.readFrom s.lines c >>= Draft.finish) := by
  fun_induction Draft.readFrom s.lines st c with
  | case1 st c hend => exact .stop (run_round_of_atEnd st hc hend)
  | case2 st c hend cause hread =>
    obtain ⟨n, hround⟩ := run_round_of_error st hc hend hread
    exact .stop hround
  | case3 st c hend item c' hread f hadd =>
    have hround := run_round_of_item st hc hend hread
    rw [Draft.resume, hadd] at hround
    exact .stop hround
  | case4 st c hend item c' hread st' hadd ih =>
    have hround := run_round_of_item st hc hend hread
    have hc' := (hc.trans (Cursor.before_skipBlanks c)).trans (Item.ahead_of_read hread).before
    rw [Draft.resume, hadd] at hround
    exact .again hround (ih hc')

end Rounds
end Program

end MacroAsm
