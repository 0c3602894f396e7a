import MacroAsm.Program.Printer
import MacroAsm.Proofs.Bare
import MacroAsm.Proofs.Grammar
import MacroAsm.Proofs.RoundTrip

/-!
# Written items are read back

Each item of a written program is read for itself, whatever follows it: its name ends at a space, its counts at a
parenthesis, its body at the first brace.

* `Numeral.count?_decimal`, `Text.splitCommas_join`, `Text.words_join`, `codeBytes_inner`: counts, parameters, labels
  and bytes are read back from what is written for them;
* `Item.read_table`, `Item.read_params`, `Item.read_defn`: so are tables, lists of parameters and definitions.
-/

namespace MacroAsm

/-! ## counts -/

namespace Numeral

lemma digitValue?_digitChar {d : Nat} (h : d < 10) : digitValue? (Nat.digitChar d) = some d := by
  revert d
  decide

/-- A number written in decimal reads back. -/
theorem value?_decimal (n : Nat) : value? (Text.decimal n) = some n := by
  obtain ⟨ds, hds, hval⟩ := exists_digits (by decide) (fun _ => digitValue?_digitChar) n
  have hne : (Text.decimal n).isEmpty = false := List.isEmpty_eq_false_iff.2 Nat.toDigits_ne_nil
  rw [value?, Text.decimal, dropStart?_of_decimal hds, ← Text.decimal]
  show digits? 10 digitValue? (Text.decimal n) = some n
  rw [digits?, hne, Text.decimal, hds]
  exact congrArg some hval

lemma isWord_decimal (n : Nat) : (Text.decimal n).isWord = true :=
  isWord_of_value? (by rw [value?_decimal]; rfl)

lemma count?_decimal {n : Nat} (h : n < countLimit) : count? (Text.decimal n) = some n := by
  rw [count?, (Text.trimmed_of_isWord (isWord_decimal n)).1, value?_decimal]
  exact Option.filter_some_pos (by simpa using h)

end Numeral

/-! ## lists of words -/

namespace Text

lemma isBlank_of_mem_isWord {w : Text} (h : w.isWord = true) {c : Char} (hc : c ∈ w) : isBlank c = false :=
  isBlank_of_isWordChar (isWordChar_of_mem h hc)

lemma isBlank_of_head?_cons {x : Char} (hx : isBlank x = false) (r : Text) :
    ∀ c ∈ (x :: r).head?, isBlank c = false := by
  simpa using hx

lemma isBlank_of_head?_isWord {w : Text} (h : w.isWord = true) (r : Text) :
    ∀ c ∈ (w ++ r).head?, isBlank c = false := by
  obtain ⟨x, v, rfl, hx⟩ := exists_cons_of_isWord h
  exact isBlank_of_head?_cons (isBlank_of_isWordChar hx) _

/-- The first separator ends the first piece. -/
lemma splitWhere_append_cons {p : Char → Bool} {w : Text} {x : Char} (hw : ∀ c ∈ w, p c = false) (hx : p x = true)
    (t : Text) : splitWhere p (w ++ x :: t) = w :: splitWhere p t := by
  obtain ⟨piece, pieces, hsplit, hcut⟩ := splitWhere_append hw (x :: t)
  rw [splitWhere, if_pos hx] at hsplit
  cases hsplit
  rw [hcut, List.append_nil]

lemma splitWhere_eq_singleton {p : Char → Bool} {w : Text} (hw : ∀ c ∈ w, p c = false) : splitWhere p w = [w] := by
  obtain ⟨piece, pieces, hsplit, hcut⟩ := splitWhere_append hw []
  cases hsplit
  rwa [List.append_nil] at hcut

lemma join_cons {sep t : Text} {ts : List Text} (h : ts ≠ []) : join sep (t :: ts) = t ++ (sep ++ join sep ts) := by
  cases ts with
  | nil => exact absurd rfl h
  | cons u ts => rfl

/-- The characters of a joined text are those of the pieces and of the separator. -/
lemma mem_join {sep : Text} {ts : List Text} {c : Char} (h : c ∈ join sep ts) : c ∈ sep ∨ ∃ t ∈ ts, c ∈ t := by
  induction ts with
  | nil => cases h
  | cons t ts ih =>
    by_cases hts : ts = []
    · rw [hts] at h
      exact Or.inr ⟨t, List.mem_cons_self, h⟩
    · rw [join_cons hts] at h
      rcases List.mem_append.1 h with h | h
      · exact Or.inr ⟨t, List.mem_cons_self, h⟩
      · rcases List.mem_append.1 h with h | h
        · exact Or.inl h
        · rcases ih h with h | ⟨u, hu, hc⟩
          · exact Or.inl h
          · exact Or.inr ⟨u, List.mem_cons_of_mem t hu, hc⟩

/-- Words with commas and spaces between them are read back; a space may stand in front of the first. -/
lemma map_trim_splitWhere {ps : List Text} (hne : ps ≠ []) (h : ∀ p ∈ ps, p.isWord = true) {lead : Text}
    (hlead : lead = [] ∨ lead = [' ']) :
    (splitWhere (· == ',') (lead ++ join ", ".toList ps)).map trim = ps := by
  induction ps generalizing lead with
  | nil => exact absurd rfl hne
  | cons p ps ih =>
    have hp := h p List.mem_cons_self
    have htrim : trim (lead ++ p) = p := by
      rcases hlead with rfl | rfl
      · exact (trimmed_of_isWord hp).1
      · exact (trimmed_of_isWord hp).1
    have hfree : ∀ c ∈ lead ++ p, (c == ',') = false := by
      intro c hc
      rcases List.mem_append.1 hc with hc | hc
      · rcases hlead with rfl | rfl
        · cases hc
        · rw [List.mem_singleton.1 hc]
          rfl
      · exact beq_false_of_ne (ne_of_mem_isWord hp hc (by decide))
    by_cases hps : ps = []
    · rw [hps, join, splitWhere_eq_singleton hfree, List.map_singleton, htrim]
    · have hshape : lead ++ join ", ".toList (p :: ps) = (lead ++ p) ++ ',' :: ([' '] ++ join ", ".toList ps) := by
        rw [join_cons hps, List.append_assoc]
        rfl
      rw [hshape, splitWhere_append_cons hfree rfl, List.map_cons, htrim,
        ih hps (fun q hq => h q (List.mem_cons_of_mem p hq)) (Or.inr rfl)]

/-- **Parameters are read back.** -/
lemma splitCommas_join {ps : List Text} (h : ∀ p ∈ ps, p.isWord = true) : splitCommas (join ", ".toList ps) = ps := by
  cases ps with
  | nil => rfl
  | cons p ps =>
    have hp := h p List.mem_cons_self
    have hblank : ¬ allBlank (join ", ".toList (p :: ps)) = true := by
      obtain ⟨x, v, rfl, hx⟩ := exists_cons_of_isWord hp
      have hhead : ∃ t, join ", ".toList ((x :: v) :: ps) = x :: t := by
        cases ps with
        | nil => exact ⟨v, rfl⟩
        | cons q ps => exact ⟨_, rfl⟩
      obtain ⟨t, ht⟩ := hhead
      rw [ht, allBlank, List.all_cons, isBlank_of_isWordChar hx]
      exact Bool.false_ne_true
    rw [splitCommas, if_neg hblank]
    exact map_trim_splitWhere (List.cons_ne_nil p ps) h (Or.inl rfl)

lemma words_space (t : Text) : words (' ' :: t) = words t := rfl

lemma words_append_space {w : Text} (hw : w.isWord = true) (t : Text) : words (w ++ ' ' :: t) = w :: words t := by
  have hne : (!w.isEmpty) = true := by simpa using (isWord_iff.1 hw).1
  rw [words, splitWhere_append_cons (fun c => isBlank_of_mem_isWord hw) rfl]
  exact List.filter_cons_of_pos hne

/-- **Labels are read back.** -/
lemma words_join {ls : List Text} (h : ∀ l ∈ ls, l.isWord = true) : words (join [' '] ls ++ [' ']) = ls := by
  induction ls with
  | nil => rfl
  | cons l ls ih =>
    have hl := h l List.mem_cons_self
    have hrest := ih fun m hm => h m (List.mem_cons_of_mem l hm)
    by_cases hls : ls = []
    · rw [hls, join, words_append_space hl]
      rfl
    · rw [join_cons hls, List.append_assoc, List.append_assoc, List.singleton_append, words_append_space hl, hrest]

end Text

/-! ## bodies of tables -/

/-- The word in front of the name. -/
def DeclKind.word : DeclKind → Text
  | .defn => "macro".toList
  | .jumpTable => "jumptable".toList
  | .packedJumpTable => "jumptable__packed".toList
  | .codeTable => "table".toList

lemma DeclKind.isWord_word (kind : DeclKind) : kind.word.isWord = true := by
  cases kind <;> rfl

/-- The kind of declaration that a table is written as. -/
def Payload.kind : Payload → DeclKind
  | .jumps _ true => .packedJumpTable
  | .jumps _ false => .jumpTable
  | .code _ => .codeTable

/-- What is written between the braces of a table, without the spaces. -/
def Payload.inner : Payload → Text
  | .jumps labels _ => Text.join [' '] labels
  | .code bytes => if bytes.isEmpty then [] else "0x".toList ++ Bytes.toHex bytes

/-- The labels are words. -/
def Payload.Legible : Payload → Prop
  | .jumps labels _ => ∀ l ∈ labels, Text.isWord l = true
  | .code _ => True

lemma braced_append (t r : Text) : braced t ++ r = '{' :: ((' ' :: (t ++ [' '])) ++ '}' :: r) := by
  have hbraced : braced t = '{' :: ' ' :: (t ++ [' ', '}']) := rfl
  simp [hbraced]

lemma Table.render_append (t : Table) (r : Text) :
    t.render ++ r =
      t.payload.kind.word ++ ' ' :: (t.name ++ ' ' :: '{' :: ((' ' :: (t.payload.inner ++ [' '])) ++ '}' :: r)) := by
  have hrender : t.render = t.payload.kind.word ++ [' '] ++ t.name ++ ' ' :: braced t.payload.inner := by
    obtain ⟨name, payload, origin⟩ := t
    match payload with
    | .jumps labels true => rfl
    | .jumps labels false => rfl
    | .code bytes => rfl
  simp only [hrender, List.append_assoc, List.cons_append, List.nil_append, braced_append]

lemma Bytes.isWord_literal (bytes : Bytes) : Text.isWord ("0x".toList ++ toHex bytes) = true := by
  refine Text.isWord_iff.2 ⟨List.cons_ne_nil _ _, fun c hc => ?_⟩
  rcases List.mem_append.1 hc with hc | hc
  · exact Text.isWordChar_of_mem (w := "0x".toList) rfl hc
  · exact isWordChar_of_isHexDigit (isHexDigit_of_mem_toHex hc)

lemma Payload.mem_inner {x : Payload} (hx : x.Legible) {c : Char} (hc : c ∈ x.inner) :
    isWordChar c = true ∨ c = ' ' := by
  cases x with
  | jumps labels packed =>
    rcases Text.mem_join hc with hc | ⟨l, hl, hc⟩
    · exact Or.inr (List.mem_singleton.1 hc)
    · exact Or.inl (Text.isWordChar_of_mem (hx l hl) hc)
  | code bytes =>
    cases bytes with
    | nil => cases hc
    | cons b bytes => exact Or.inl (Text.isWordChar_of_mem (Bytes.isWord_literal (b :: bytes)) hc)

lemma Payload.brace_not_mem {x : Payload} (hx : x.Legible) : '}' ∉ ' ' :: (x.inner ++ [' ']) := by
  have hinner : '}' ∉ x.inner := by
    intro hc
    rcases mem_inner hx hc with hc | hc
    · revert hc
      decide
    · revert hc
      decide
  simpa using hinner

lemma nextEntry_of_rest {c : Cursor} {w r : Text} (hw : ∀ x ∈ w, isBlank x = false)
    (hr : ∀ x ∈ r.head?, isBlank x = true) (h : c.skipBlanks.rest = w ++ r) :
    nextEntry c = (w, c.skipBlanks.behind w r) :=
  Cursor.takeWhile_append (fun x hx => by simp [hw x hx]) (fun x hx => by simp [hr x hx]) h

lemma codeBytesFrom_of_blank {c : Cursor} (h : c.skipBlanks.rest = []) : codeBytesFrom c = .ok [] := by
  have hentry := nextEntry_of_rest (w := []) (r := []) (by simp) (by simp) h
  rw [codeBytesFrom, dif_pos (by rw [hentry])]

/-- A single entry between spaces. -/
lemma codeBytes_of_isWord {w : Text} {bytes : Bytes} (hw : w.isWord = true) (h : entryBytes? w = some bytes) :
    codeBytes (' ' :: (w ++ [' '])) = .ok bytes := by
  have hskip : (Cursor.start (' ' :: (w ++ [' ']))).skipBlanks.rest = w ++ [' '] :=
    Cursor.rest_skipBlanks_of_cons (by decide) (Text.isBlank_of_head?_isWord hw _) rfl
  have hspace : ∀ x ∈ [' '].head?, isBlank x = true := by
    simp
    decide
  have hentry := nextEntry_of_rest (fun c => Text.isBlank_of_mem_isWord hw) hspace hskip
  have hne : ¬ (nextEntry (Cursor.start (' ' :: (w ++ [' '])))).1 = [] := by
    rw [hentry]
    exact (Text.isWord_iff.1 hw).1
  have hend : codeBytesFrom (nextEntry (Cursor.start (' ' :: (w ++ [' '])))).2 = .ok [] := by
    rw [hentry]
    exact codeBytesFrom_of_blank rfl
  rw [codeBytes, codeBytesFrom, dif_neg hne, hend, hentry, h]
  exact congrArg Except.ok (List.append_nil bytes)

/-- **Bytes are read back.** -/
lemma codeBytes_inner (bytes : Bytes) : codeBytes (' ' :: ((Payload.code bytes).inner ++ [' '])) = .ok bytes := by
  cases bytes with
  | nil => exact codeBytesFrom_of_blank rfl
  | cons b bytes =>
    have hentry : entryBytes? ("0x".toList ++ Bytes.toHex (b :: bytes)) = some (b :: bytes) := by
      rw [entryBytes?, Text.dropStart?_append]
      exact Bytes.ofHex?_toHex (List.cons_ne_nil b bytes)
    exact codeBytes_of_isWord (Bytes.isWord_literal (b :: bytes)) hentry

/-! ## parts of a declaration -/

/-- What is written of a macro behind its name, and behind that `r`. -/
def Macro.renderTail (m : Macro) (r : Text) : Text :=
  ' ' :: '=' :: ' ' :: ("takes".toList ++ '(' :: (Text.decimal m.takes ++ ')' :: ' ' :: ("returns".toList ++
    '(' :: (Text.decimal m.returns ++ ')' :: ' ' :: '{' :: (m.body ++ '}' :: r)))))

lemma Macro.render_append (m : Macro) (r : Text) :
    m.render ++ r =
      m.renderParams ++ ("#define".toList ++ ' ' :: ("macro".toList ++ ' ' :: (m.name ++ m.renderTail r))) := by
  simp only [render, List.append_assoc]
  rfl

namespace Item

variable {c : Cursor} {name r : Text}

lemma readName_of_rest (kind : DeclKind) (hname : name.Declarable) (hr : r.breaks = true)
    (h : c.rest = ' ' :: (name ++ r)) : ∃ c', readName kind c = .ok (name, c') ∧ c'.rest = r := by
  have hskip := Cursor.rest_skipBlanks_of_cons (by decide) (Text.isBlank_of_head?_isWord hname.word r) h
  have hword := Cursor.word?_eq_some_iff.2 ⟨hname.word, r, hskip, hr, rfl⟩
  have hisName : Text.isName name = true := by
    have hhex : ("0x".toList).isPrefixOf name = false := by
      rw [← Bool.not_eq_true, List.isPrefixOf_iff_prefix]
      exact hname.hex
    rw [Text.isName, hhex, Bool.and_eq_true]
    exact ⟨List.any_eq_true.2 hname.letter, rfl⟩
  refine ⟨c.skipBlanks.behind name r, ?_, rfl⟩
  rw [readName, hword]
  exact if_pos hisName

lemma expect_of_rest {x : Char} (cause : Text → Cause) (hx : isBlank x = false) (h : c.rest = ' ' :: x :: r) :
    ∃ c', expect x cause c = .ok c' ∧ c'.rest = r := by
  have hskip := Cursor.rest_skipBlanks_of_cons (by decide) (Text.isBlank_of_head?_cons hx r) h
  refine ⟨c.skipBlanks.behind [x] r, ?_, rfl⟩
  rw [expect, Cursor.eat?_eq_some_iff.2 ⟨r, hskip, rfl⟩]

lemma readBody_of_rest (name : Text) {body : Text} (hbody : '}' ∉ body)
    (h : c.rest = ' ' :: '{' :: (body ++ '}' :: r)) :
    ∃ pos c', readBody name c = .ok (body, pos, c') ∧ c'.rest = r := by
  obtain ⟨c₁, hexpect, hrest⟩ := expect_of_rest .missingBrace (by decide) h
  have huntil := Cursor.until?_eq_some_iff.2 ⟨r, hrest, hbody, rfl⟩
  refine ⟨c₁.pos, c₁.behind (body ++ ['}']) r, ?_, rfl⟩
  simp only [readBody, hexpect, huntil]

lemma readCount_of_rest {word : Text} {n : Nat} (hword : word.isWord = true) (hn : n < Numeral.countLimit)
    (h : c.rest = ' ' :: (word ++ '(' :: (Text.decimal n ++ ')' :: r))) :
    ∃ c', readCount word c = .ok (n, c') ∧ c'.rest = r := by
  have hskip := Cursor.rest_skipBlanks_of_cons (by decide) (Text.isBlank_of_head?_isWord hword _) h
  have hkey := Cursor.keyword?_eq_some_iff.2 ⟨_, hskip, rfl, rfl⟩
  have hbalanced := OpReader.balanced_of_isWord (o := '(') (x := ')') (by decide) (by decide) (Numeral.isWord_decimal n)
  rw [readCount, hkey]
  generalize hc₁ : c.skipBlanks.behind word ('(' :: (Text.decimal n ++ ')' :: r)) = c₁
  have hrest : c₁.skipBlanks.rest = '(' :: (Text.decimal n ++ ')' :: r) := by
    rw [← hc₁, Cursor.skipBlanks_eq (Text.isBlank_of_head?_cons (by decide) _)]
    rfl
  have hparens := (Cursor.balanced?_eq_some_iff (by decide)).2 ⟨r, hrest, hbalanced, rfl⟩
  refine ⟨c₁.skipBlanks.behind ('(' :: Text.decimal n ++ [')']) r, ?_, rfl⟩
  simp only [hparens, Numeral.count?_decimal hn]

/-- A macro definition behind its name is read back. -/
lemma readDefn_of_rest {m : Macro} (htakes : m.takes < Numeral.countLimit) (hreturns : m.returns < Numeral.countLimit)
    (hbody : '}' ∉ m.body) (h : c.rest = m.renderTail r) :
    ∃ pos c', readDefn m.name c = .ok (.defn m.name m.takes m.returns m.body pos, c') ∧ c'.rest = r := by
  have hcount : skipParamCount m.name c = .ok c := by
    rw [skipParamCount, if_neg]
    rw [Cursor.peek?, h]
    exact fun heq => absurd (Option.some.inj heq) (by decide)
  obtain ⟨c₁, hequals, h₁⟩ := expect_of_rest .missingEquals (by decide) h
  obtain ⟨c₂, htakes', h₂⟩ := readCount_of_rest rfl htakes h₁
  obtain ⟨c₃, hreturns', h₃⟩ := readCount_of_rest rfl hreturns h₂
  obtain ⟨pos, c₄, hbody', h₄⟩ := readBody_of_rest m.name hbody h₃
  refine ⟨pos, c₄, ?_, h₄⟩
  simp only [readDefn, hcount, hequals, htakes', hreturns', hbody', bind, Except.bind, pure, Except.pure]

/-! ## announcements -/

lemma tableHead?_of_rest {kind : DeclKind} (hkind : kind ≠ .defn) (h : c.rest = kind.word ++ ' ' :: r) :
    tableHead? c = some (kind, c.behind kind.word (' ' :: r)) := by
  have hkey : c.keyword? kind.word = some (c.behind kind.word (' ' :: r)) :=
    Cursor.keyword?_eq_some_iff.2 ⟨_, h, rfl, rfl⟩
  have hother : ∀ s : Text, s.isWord = true → kind.word ≠ s → c.keyword? s = none := fun s hs hne =>
    (Cursor.keyword?_of_word hs kind.isWord_word rfl h).2 hne
  unfold tableHead?
  cases kind with
  | defn => exact absurd rfl hkind
  | packedJumpTable => rw [show c.keyword? "jumptable__packed".toList = _ from hkey]
  | jumpTable =>
    rw [hother "jumptable__packed".toList rfl (by decide), show c.keyword? "jumptable".toList = _ from hkey]
  | codeTable =>
    rw [hother "jumptable__packed".toList rfl (by decide), hother "jumptable".toList rfl (by decide),
      show c.keyword? "table".toList = _ from hkey]
    rfl

lemma declHead?_of_rest (h : c.rest = "#define".toList ++ ' ' :: ("macro".toList ++ ' ' :: r)) :
    ∃ c', declHead? c = some (.defn, c') ∧ c'.rest = ' ' :: r := by
  have hdefine := Cursor.keyword?_eq_some_iff.2 ⟨_, h, rfl, rfl⟩
  generalize hc₁ : c.behind "#define".toList (' ' :: ("macro".toList ++ ' ' :: r)) = c₁ at hdefine
  have hrest : c₁.skipBlanks.rest = "macro".toList ++ ' ' :: r := by
    refine Cursor.rest_skipBlanks_of_cons (x := ' ') (by decide) (Text.isBlank_of_head?_isWord rfl _) ?_
    rw [← hc₁]
    rfl
  refine ⟨c₁.skipBlanks.behind "macro".toList (' ' :: r), ?_, rfl⟩
  simp only [declHead?, hdefine, Cursor.keyword?_eq_some_iff.2 ⟨_, hrest, rfl, rfl⟩]

/-- A declaration that is announced is read, with a parameter list waiting if it is a macro. -/
lemma read_of_declHead? {kind : DeclKind} {c' : Cursor} (here : Origin) {pending : Bool}
    (hinclude : c.keyword? "#include".toList = none) (htemplate : c.keyword? "template".toList = none)
    (hpeek : c.peek? ≠ some '<') (hhead : declHead? c = some (kind, c')) (hpending : pending = false ∨ kind = .defn) :
    read here pending c = readDecl kind c' := by
  have hparams : paramsHead? c = none := by
    have hskip : skipTemplateWord c = c := by simp only [skipTemplateWord, htemplate]
    rw [paramsHead?, hskip, if_neg hpeek]
  have hfree : (pending && kind != .defn) = false := by
    rcases hpending with rfl | rfl
    · rfl
    · exact Bool.and_false pending
  simp only [read, hinclude, head?, hparams, hhead, hfree, Option.isSome_none, Option.map_some, Bool.false_eq_true,
    if_false]

lemma read_of_kind {kind : DeclKind} (hkind : kind ≠ .defn) (here : Origin) (h : c.rest = kind.word ++ ' ' :: r) :
    read here false c = readDecl kind (c.behind kind.word (' ' :: r)) := by
  have hinclude : c.keyword? "#include".toList = none := by
    refine Cursor.keyword?_of_dropStart? ?_
    rw [h]
    cases kind <;> rfl
  have hdefine : c.keyword? "#define".toList = none := by
    refine Cursor.keyword?_of_dropStart? ?_
    rw [h]
    cases kind <;> rfl
  have htemplate : c.keyword? "template".toList = none :=
    (Cursor.keyword?_of_word rfl kind.isWord_word rfl h).2 (by cases kind <;> decide)
  have hpeek : c.peek? ≠ some '<' := by
    obtain ⟨x, v, hword, hx⟩ := Text.exists_cons_of_isWord kind.isWord_word
    rw [Cursor.peek?, h, hword]
    rintro heq
    cases heq
    exact absurd hx (by decide)
  refine read_of_declHead? here hinclude htemplate hpeek ?_ (Or.inl rfl)
  rw [declHead?, hdefine]
  exact tableHead?_of_rest hkind h

end Item

/-- The item that a table is written as. -/
def Table.item (t : Table) (pos : Nat) : Item :=
  match t.payload with
  | .jumps _ packed => .jumpTable t.name packed (' ' :: (t.payload.inner ++ [' ']))
  | .code _ => .codeTable t.name (' ' :: (t.payload.inner ++ [' '])) pos

namespace Item

variable {c : Cursor} {r : Text}

/-- **A written table is read back**, whatever follows it. -/
lemma read_table {t : Table} (hname : t.name.Declarable) (ht : t.payload.Legible) (here : Origin)
    (h : c.rest = t.render ++ r) : ∃ pos c', read here false c = .ok (t.item pos, c') ∧ c'.rest = r := by
  rw [Table.render_append] at h
  have hkind : t.payload.kind ≠ .defn := by
    unfold Payload.kind
    split <;> exact DeclKind.noConfusion
  have hbreaks : Text.breaks (' ' :: '{' :: ((' ' :: (t.payload.inner ++ [' '])) ++ '}' :: r)) = true := rfl
  obtain ⟨c₁, hread, h₁⟩ := readName_of_rest (c := c.behind t.payload.kind.word _) t.payload.kind hname hbreaks rfl
  obtain ⟨pos, c₂, hbody, h₂⟩ := readBody_of_rest t.name (Payload.brace_not_mem ht) h₁
  refine ⟨pos, c₂, ?_, h₂⟩
  rw [read_of_kind hkind here h]
  unfold readDecl
  rw [hread]
  obtain ⟨name, payload, origin⟩ := t
  match payload with
  | .jumps labels true => simp only [Payload.kind, Table.item, hbody, bind, Except.bind, pure, Except.pure]
  | .jumps labels false => simp only [Payload.kind, Table.item, hbody, bind, Except.bind, pure, Except.pure]
  | .code bytes => simp only [Payload.kind, Table.item, hbody, bind, Except.bind, pure, Except.pure]

/-- **A written list of parameters is read back**, whatever follows it. -/
lemma read_params {m : Macro} (hne : m.params ≠ []) (hparams : ∀ x ∈ m.params, Text.isWord x = true) (here : Origin)
    (h : c.rest = m.renderParams ++ r) : ∃ c', read here false c = .ok (.params m.params, c') ∧ c'.rest = ' ' :: r := by
  have hshape : c.rest = "template".toList ++ ' ' :: '<' :: (Text.join ", ".toList m.params ++ '>' :: ' ' :: r) := by
    rw [h, Macro.renderParams, if_neg (by simpa using hne), List.append_assoc, List.append_assoc]
    rfl
  have hinclude : c.keyword? "#include".toList = none := Cursor.keyword?_of_dropStart? (by rw [hshape]; rfl)
  have htemplate := Cursor.keyword?_eq_some_iff.2 ⟨_, hshape, rfl, rfl⟩
  generalize hc₁ : c.behind "template".toList _ = c₁ at htemplate
  have hrest : c₁.skipBlanks.rest = '<' :: (Text.join ", ".toList m.params ++ '>' :: ' ' :: r) := by
    refine Cursor.rest_skipBlanks_of_cons (x := ' ') (by decide) (Text.isBlank_of_head?_cons (by decide) _) ?_
    rw [← hc₁]
    rfl
  have hpeek : c₁.skipBlanks.peek? = some '<' := by
    rw [Cursor.peek?, hrest]
    rfl
  have hhead : head? c = some (.params, c₁.skipBlanks) := by
    have hskip : skipTemplateWord c = c₁.skipBlanks := by simp only [skipTemplateWord, htemplate]
    rw [head?, paramsHead?, hskip, if_pos hpeek]
  have hfree : ∀ x ∈ Text.join ", ".toList m.params, x ≠ '<' ∧ x ≠ '>' := by
    intro x hx
    rcases Text.mem_join hx with hx | ⟨p, hp, hx⟩
    · have hsep : x ∈ [',', ' '] := hx
      rcases List.mem_cons.1 hsep with rfl | hsep
      · decide
      · rw [List.mem_singleton.1 hsep]
        decide
    · exact ⟨Text.ne_of_mem_isWord (hparams p hp) hx (by decide), Text.ne_of_mem_isWord (hparams p hp) hx (by decide)⟩
  have hbalanced : Text.Balanced '<' '>' (Text.join ", ".toList m.params) := by
    rw [← List.append_nil (Text.join _ _)]
    exact (Text.closes_append_left hfree).2 (Text.closes_nil.2 rfl)
  have hgroup := (Cursor.balanced?_eq_some_iff (by decide)).2 ⟨_, hrest, hbalanced, rfl⟩
  have hwords : m.params.find? (fun p => !Text.isWord p) = none := by
    rw [List.find?_eq_none]
    intro p hp
    simp [hparams p hp]
  refine ⟨c₁.skipBlanks.behind ('<' :: Text.join ", ".toList m.params ++ ['>']) (' ' :: r), ?_, rfl⟩
  simp only [read, hinclude, hhead, readParams, hgroup, Text.splitCommas_join hparams, hwords, Option.isSome_none,
    Bool.false_eq_true, if_false]

/-- **A written definition is read back**, whatever follows it, with or without parameters in front. -/
lemma read_defn {m : Macro} (hname : m.name.Declarable) (htakes : m.takes < Numeral.countLimit)
    (hreturns : m.returns < Numeral.countLimit) (hbody : '}' ∉ m.body) (here : Origin) (pending : Bool)
    (h : c.rest = "#define".toList ++ ' ' :: ("macro".toList ++ ' ' :: (m.name ++ m.renderTail r))) :
    ∃ pos c', read here pending c = .ok (.defn m.name m.takes m.returns m.body pos, c') ∧ c'.rest = r := by
  have hinclude : c.keyword? "#include".toList = none := Cursor.keyword?_of_dropStart? (by rw [h]; rfl)
  have htemplate : c.keyword? "template".toList = none := Cursor.keyword?_of_dropStart? (by rw [h]; rfl)
  have hpeek : c.peek? ≠ some '<' := by
    rw [Cursor.peek?, h]
    exact fun heq => absurd (Option.some.inj heq) (by decide)
  obtain ⟨c₁, hhead, h₁⟩ := declHead?_of_rest h
  obtain ⟨c₂, hread, h₂⟩ := readName_of_rest .defn hname rfl h₁
  obtain ⟨pos, c₃, hdefn, h₃⟩ := readDefn_of_rest htakes hreturns hbody h₂
  refine ⟨pos, c₃, ?_, h₃⟩
  rw [read_of_declHead? here hinclude htemplate hpeek hhead (Or.inr rfl), readDecl, hread]
  exact hdefn

end Item

end MacroAsm
