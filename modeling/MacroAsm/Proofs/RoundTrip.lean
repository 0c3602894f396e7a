import MacroAsm.Op.Printer
import MacroAsm.Proofs.Bytes
import MacroAsm.Proofs.Readable

/-!
# Written operations are read back

An operation that has been read is written in a form of its own: none of the earlier forms takes it for something
else, and a space behind it ends it.

* `Text.Gapped r`: nothing comes, or first a blank;
* `OpReader.next_render`: a readable operation with a blank behind it is read back as it is;
* `Body.opsFrom_renderAll`: so are operations with spaces between them;
* `Body.ops_renderAll`: the operations of a body survive being written and read, with any tables at hand.
-/

namespace MacroAsm

/-! ## mnemonics -/

namespace Opcode

/-- The mnemonics are different, and so are their bytes. -/
lemma lookup_of_mem {w : Text} {b : Opcode} (h : (w, b) ∈ table) : mnemonic? b = some w ∧ ofMnemonic? w = some b := by
  have hall : ∀ e ∈ table, mnemonic? e.2 = some e.1 ∧ ofMnemonic? e.1 = some e.2 := by decide +kernel
  exact hall (w, b) h

/-- No mnemonic looks like something else. -/
lemma shape_of_mem : ∀ e ∈ table, Text.isWord e.1 = true ∧ ("0x".toList).isPrefixOf e.1 = false ∧
    e.1 ∉ ["__codesize".toList, "__tablestart".toList, "__tablesize".toList] ∧ e.1.any (! ·.isDigit) = true := by
  decide +kernel

lemma free_of_mem {w : Text} {b : Opcode} (h : (w, b) ∈ table) : w.Free := by
  obtain ⟨hword, hhex, hbuiltin, -⟩ := shape_of_mem _ h
  simp only [List.mem_cons, List.not_mem_nil, or_false, not_or] at hbuiltin
  obtain ⟨hsize, hstart, htables⟩ := hbuiltin
  refine ⟨hword, ?_, hsize, hstart, htables⟩
  rw [← List.isPrefixOf_iff_prefix, hhex]
  exact Bool.false_ne_true

lemma exists_not_digit_of_mem {w : Text} {b : Opcode} (h : (w, b) ∈ table) : ∃ c ∈ w, c.isDigit = false := by
  have hany := (shape_of_mem _ h).2.2.2
  simpa using hany

end Opcode

namespace Text

/-- Nothing comes, or first a blank. -/
def Gapped (r : Text) : Prop := ∀ c ∈ r.head?, isBlank c = true

namespace Gapped

variable {r : Text} (h : Gapped r)

include h

lemma head?_ne {x : Char} (hx : isBlank x = false) : r.head? ≠ some x := by
  intro hhead
  rw [h x hhead] at hx
  cases hx

/-- A class without blanks ends here. -/
lemma eq_false {p : Char → Bool} (hp : ∀ x, p x = true → isBlank x = false) : ∀ c ∈ r.head?, p c = false := by
  intro c hc
  cases hpc : p c with
  | false => rfl
  | true => exact absurd hc (h.head?_ne (hp c hpc))

lemma breaks : r.breaks = true := breaks_iff.2 (h.eq_false fun _ => isBlank_of_isWordChar)

end Gapped

/-- Nothing comes, or first a space. -/
def Spaced (r : Text) : Prop := ∀ c ∈ r.head?, c = ' '

lemma Spaced.gapped {r : Text} (h : Spaced r) : Gapped r := by
  intro c hc
  rw [h c hc]
  decide

lemma exists_cons_of_isWord {w : Text} (h : w.isWord = true) : ∃ x v, w = x :: v ∧ isWordChar x = true := by
  obtain ⟨hne, hall⟩ := isWord_iff.1 h
  obtain ⟨x, v, rfl⟩ := List.exists_cons_of_ne_nil hne
  exact ⟨x, v, rfl, hall x List.mem_cons_self⟩

lemma trimmed_of_isWord {w : Text} (h : w.isWord = true) : Trimmed w := by
  have hblank : ∀ c ∈ w, isBlank c = false := fun c hc => isBlank_of_isWordChar (isWordChar_of_mem h hc)
  refine trimmed_iff.2 ⟨trim_eq_self (fun c hc => ?_) fun c hc => ?_, (isWord_iff.1 h).1⟩
  · exact hblank c (List.mem_of_head? hc)
  · exact hblank c (List.mem_of_getLast? hc)

end Text

namespace OpReader

variable {tables : TableSet} {labels : List Text} {c : Cursor} {w r : Text}

/-! ## forms that pass -/

lemma firstFit_cons_of_none {form : Cursor → Attempt} {forms : List (Cursor → Attempt)} (h : form c = .ok none) :
    firstFit (form :: forms) c = firstFit forms c := by
  rw [firstFit, h]

lemma firstFit_cons_of_some {form : Cursor → Attempt} {forms : List (Cursor → Attempt)} {q : OpKind × Cursor}
    (h : form c = .ok (some q)) : firstFit (form :: forms) c = .ok (some q) := by
  rw [firstFit, h]

/-- Where no builtin is asked for, the literals come first. -/
lemma firstFit_of_keyword? (hsize : c.keyword? "__codesize".toList = none)
    (htables : c.keyword? "__tablesize".toList = none) (hstart : c.keyword? "__tablestart".toList = none) :
    firstFit (forms tables labels) c =
      firstFit [hexLiteral, call, template, labelDef labels, decimalLiteral, bareWord labels] c := by
  rw [forms, firstFit_cons_of_none (codeSize_eq_none_iff.2 hsize),
    firstFit_cons_of_none (tableSize_eq_none_iff.2 htables), firstFit_cons_of_none (tableStart_eq_none_iff.2 hstart)]

lemma firstFit_of_free (hw : w.Free) (hr : r.breaks = true) (h : c.rest = w ++ r) :
    firstFit (forms tables labels) c =
      firstFit [call, template, labelDef labels, decimalLiteral, bareWord labels] c := by
  have hhex : c.eatText? "0x".toList = none := by
    rw [Option.eq_none_iff_forall_ne_some]
    intro c₁ hc₁
    obtain ⟨v, hv, -⟩ := Cursor.eatText?_eq_some_iff.1 hc₁
    obtain ⟨x, u, rfl, -⟩ := Text.exists_cons_of_isWord hw.word
    have hv : x :: (u ++ r) = '0' :: 'x' :: v := h.symm.trans hv
    cases u with
    | nil =>
      obtain ⟨-, rfl⟩ := List.cons.inj hv
      cases hr
    | cons y u =>
      obtain ⟨rfl, hu⟩ := List.cons.inj hv
      obtain ⟨rfl, -⟩ := List.cons.inj hu
      exact hw.hex ⟨u, rfl⟩
  rw [firstFit_of_keyword? ((Cursor.keyword?_of_word rfl hw.word hr h).2 hw.codeSize)
    ((Cursor.keyword?_of_word rfl hw.word hr h).2 hw.tableSize)
    ((Cursor.keyword?_of_word rfl hw.word hr h).2 hw.tableStart), firstFit_cons_of_none (hexLiteral_eq_none_iff.2 hhex)]

/-- A word is no call unless a bracket is next to it. -/
lemma call_of_head? (hw : w.isWord = true) (hr : r.breaks = true) (h : c.rest = w ++ r) (hangle : r.head? ≠ some '<')
    (hparen : r.head? ≠ some '(') : call c = .ok none := by
  have hword := Cursor.word?_eq_some_iff.2 ⟨hw, r, h, hr, rfl⟩
  have hgroup : angleGroup? (c.behind w r) = some (none, c.behind w r) := if_neg hangle
  have hnone : (c.behind w r).balanced? '(' ')' = none := Cursor.balanced?_of_peek? hparen
  simp only [call, hword, hgroup, hnone]

lemma template_of_isWord (hw : w.isWord = true) (h : c.rest = w ++ r) : template c = .ok none := by
  refine if_neg ?_
  obtain ⟨x, v, rfl, hx⟩ := Text.exists_cons_of_isWord hw
  rw [Cursor.peek?, h]
  simp only [List.cons_append, List.head?_cons, Option.some.injEq]
  rintro rfl
  revert hx
  decide

lemma labelDef_of_head? (hw : w.isWord = true) (hr : r.breaks = true) (h : c.rest = w ++ r)
    (hcolon : r.head? ≠ some ':') : labelDef labels c = .ok none := by
  have hword := Cursor.word?_eq_some_iff.2 ⟨hw, r, h, hr, rfl⟩
  have hnone : (c.behind w r).eat? ':' = none := by
    rw [Option.eq_none_iff_forall_ne_some]
    intro c₁ hc₁
    obtain ⟨v, hv, -⟩ := Cursor.eat?_eq_some_iff.1 hc₁
    have hv : r = ':' :: v := hv
    exact hcolon (by rw [hv, List.head?_cons])
  simp only [labelDef, hword, hnone]

/-- Digits that do not end a word are no literal. -/
lemma decimalLiteral_of_exists (hw : w.isWord = true) (h : c.rest = w ++ r) (hdigit : ∃ x ∈ w, x.isDigit = false) :
    decimalLiteral c = .ok none := by
  have hsplit : ∃ x v, w.dropWhile Char.isDigit = x :: v ∧ x ∈ w := by
    cases hdrop : w.dropWhile Char.isDigit with
    | nil =>
      obtain ⟨x, hx, hfalse⟩ := hdigit
      rw [List.dropWhile_eq_nil_iff.1 hdrop x hx] at hfalse
      cases hfalse
    | cons x v => exact ⟨x, v, rfl, (List.dropWhile_suffix _).subset (hdrop ▸ List.mem_cons_self)⟩
  obtain ⟨x, v, hdrop, hx⟩ := hsplit
  have hrest : c.rest.dropWhile Char.isDigit = x :: v ++ r := by
    rw [h, List.dropWhile_append, hdrop]
    rfl
  have hpeek : (c.takeWhile Char.isDigit).2.peek?.any isWordChar = true := by
    simp [Cursor.takeWhile, Cursor.behind, Cursor.peek?, hrest, Text.isWordChar_of_mem hw hx]
  simp only [decimalLiteral, hpeek, Bool.or_true, if_true]

/-- What begins with no word is a template argument, if it is anything. -/
lemma firstFit_of_breaks (h : c.rest.breaks = true) : firstFit (forms tables labels) c = template c := by
  have hkey : ∀ s : Text, s.isWord = true → c.keyword? s = none := by
    intro s hs
    rw [Cursor.keyword?, Cursor.eatText?_of_breaks hs h, Option.filter_none]
  have hword := Cursor.word?_of_breaks h
  have hcall : call c = .ok none := by simp only [call, hword]
  have hlabel : labelDef labels c = .ok none := by simp only [labelDef, hword]
  have hbare : bareWord labels c = .ok none := by simp only [bareWord, hword]
  have hdecimal : decimalLiteral c = .ok none := by
    have hdigits : c.rest.takeWhile Char.isDigit = [] := by
      cases hrest : c.rest with
      | nil => rfl
      | cons x t =>
        have hx := Text.breaks_iff.1 h x (by rw [hrest]; rfl)
        simp only [isWordChar, Char.isAlphanum, Bool.or_eq_false_iff] at hx
        simp [hx.1.2]
    simp [decimalLiteral, Cursor.takeWhile, hdigits]
  rw [firstFit_of_keyword? (hkey _ rfl) (hkey _ rfl) (hkey _ rfl),
    firstFit_cons_of_none (hexLiteral_eq_none_iff.2 (Cursor.eatText?_of_breaks rfl h)), firstFit_cons_of_none hcall,
    firstFit]
  split
  · next hnone => rw [firstFit_cons_of_none hlabel, firstFit_cons_of_none hdecimal, firstFit_cons_of_none hbare, hnone,
      firstFit]
  · rfl

/-! ## forms that read -/

lemma call_parens {s : Text} (hw : w.isWord = true) (hs : Text.Balanced '(' ')' s)
    (h : c.rest = w ++ '(' :: (s ++ ')' :: r)) :
    ∃ c', call c = .ok (some (.call w (Target.argumentGroup s), c')) ∧ c'.rest = r := by
  have hword := Cursor.word?_eq_some_iff.2 ⟨hw, _, h, rfl, rfl⟩
  have hgroup : angleGroup? (c.behind w ('(' :: (s ++ ')' :: r))) = some (none, c.behind w ('(' :: (s ++ ')' :: r))) :=
    rfl
  have hparen := (Cursor.balanced?_eq_some_iff (c := c.behind w ('(' :: (s ++ ')' :: r))) (o := '(') (x := ')')
    (by decide)).2 ⟨r, rfl, hs, rfl⟩
  simp only [call, hword, hgroup, hparen]
  exact ⟨_, rfl, rfl⟩

lemma angleGroup?_of_balanced? {inner : Text} {c' : Cursor} (h : c.balanced? '<' '>' = some (inner, c')) :
    angleGroup? c = some (some inner, c') := by
  obtain ⟨r, hrest, -, -⟩ := (Cursor.balanced?_eq_some_iff (by decide)).1 h
  have hpeek : c.peek? = some '<' := by rw [Cursor.peek?, hrest, List.head?_cons]
  rw [angleGroup?, if_pos hpeek, h, Option.map_some]

lemma call_angles {s : Text} (hw : w.isWord = true) (hs : Text.Balanced '<' '>' s)
    (h : c.rest = w ++ '<' :: (s ++ '>' :: '(' :: ')' :: r)) :
    ∃ c', call c = .ok (some (.call w (Target.argumentGroup s), c')) ∧ c'.rest = r := by
  have hword := Cursor.word?_eq_some_iff.2 ⟨hw, _, h, rfl, rfl⟩
  have hb := (Cursor.balanced?_eq_some_iff (c := c.behind w ('<' :: (s ++ '>' :: '(' :: ')' :: r)))
    (o := '<') (x := '>') (by decide)).2 ⟨_, rfl, hs, rfl⟩
  have hparen := (Cursor.balanced?_eq_some_iff
    (c := (c.behind w ('<' :: (s ++ '>' :: '(' :: ')' :: r))).behind ('<' :: s ++ ['>']) ('(' :: ')' :: r))
    (o := '(') (x := ')') (by decide)).2 ⟨r, rfl, Text.closes_nil.2 rfl, rfl⟩
  simp only [call, hword, angleGroup?_of_balanced? hb, hparen]
  exact ⟨_, rfl, rfl⟩

/-- Hexadecimal digits that end a word are a literal, or fail to be one for their number alone. -/
lemma hexLiteral_of_digits {d : Text} (hd : d ≠ []) (hall : ∀ x ∈ d, isHexDigit x = true) (hr : r.breaks = true)
    (h : c.rest = "0x".toList ++ (d ++ r)) :
    hexLiteral c = (pushLiteral ((Bytes.ofHex? d).getD []) d).map fun kind =>
      some (kind, (c.behind "0x".toList (d ++ r)).behind d r) := by
  have htext := Cursor.eatText?_eq_some_iff.2 ⟨_, h, rfl⟩
  have hread : (c.behind "0x".toList (d ++ r)).takeWhile isHexDigit =
      (d, (c.behind "0x".toList (d ++ r)).behind d r) := by
    refine Cursor.takeWhile_append hall (fun x hx => ?_) rfl
    have hword := Text.breaks_iff.1 hr x hx
    by_contra hhex
    rw [isWordChar_of_isHexDigit (by simpa using hhex)] at hword
    cases hword
  have hdigits : d.isEmpty = false := List.isEmpty_eq_false_iff.2 hd
  have hbreak : ((c.behind "0x".toList (d ++ r)).behind d r).peek?.any isWordChar = false := by
    simpa [Text.breaks, Cursor.peek?, Cursor.behind] using hr
  simp only [hexLiteral, htext, hread, hdigits, hbreak, Bool.or_false, Bool.false_eq_true, if_false]
  cases pushLiteral ((Bytes.ofHex? d).getD []) d <;> rfl

lemma pushLiteral_of_pushOf? {byte : Opcode} {data : Bytes} (hdata : Opcode.pushOf? data.length = some byte)
    (digits : Text) : pushLiteral data digits = .ok (.push byte data) := by
  have hwidth : ¬ Opcode.maxPushWidth < data.length := Nat.not_lt.2 (Opcode.pushOf?_eq_some_iff.1 hdata).2.1
  rw [pushLiteral, if_neg hwidth, OpKind.push?, hdata]
  rfl

/-- A push is written in digits that are read back. -/
lemma hexLiteral_toHex {byte : Opcode} {data : Bytes} (hdata : Opcode.pushOf? data.length = some byte)
    (hr : r.breaks = true) (h : c.rest = "0x".toList ++ (data.toHex ++ r)) :
    ∃ c', hexLiteral c = .ok (some (.push byte data, c')) ∧ c'.rest = r := by
  have hne : data ≠ [] := List.length_pos_iff.1 (Opcode.pushOf?_eq_some_iff.1 hdata).1
  have hdigits : data.toHex ≠ [] := by
    intro hnil
    have hread := Bytes.ofHex?_toHex hne
    rw [hnil] at hread
    cases hread
  rw [hexLiteral_of_digits hdigits (fun x => Bytes.isHexDigit_of_mem_toHex) hr h, Bytes.ofHex?_toHex hne,
    Option.getD_some, pushLiteral_of_pushOf? hdata]
  exact ⟨_, rfl, rfl⟩

/-! ## one operation -/

/-- What a builtin is asked for comes back trimmed. -/
lemma builtin_of_rest {word inner : Text} (hi : Text.Balanced '(' ')' inner)
    (h : c.rest = word ++ '(' :: (inner ++ ')' :: r)) :
    ∃ c', builtin word c = .ok (some (Text.trim inner, c')) ∧ c'.rest = r := by
  have hkey := Cursor.keyword?_eq_some_iff.2 ⟨_, h, rfl, rfl⟩
  have hparen := (Cursor.balanced?_eq_some_iff (c := c.behind word ('(' :: (inner ++ ')' :: r))) (o := '(') (x := ')')
    (by decide)).2 ⟨r, rfl, hi, rfl⟩
  exact ⟨_, builtin_eq_some_iff.2 ⟨_, _, hkey, hparen, rfl⟩, rfl⟩

lemma balanced_of_isWord {o x : Char} (ho : isWordChar o = false) (hx : isWordChar x = false) (hw : w.isWord = true) :
    Text.Balanced o x w := by
  have hfree : ∀ y ∈ w, y ≠ o ∧ y ≠ x := fun y hy =>
    ⟨Text.ne_of_mem_isWord hw hy ho, Text.ne_of_mem_isWord hw hy hx⟩
  rw [← List.append_nil w]
  exact (Text.closes_append_left hfree).2 (Text.closes_nil.2 rfl)

/-- A written target is balanced and trimmed, and splits into what it was made of. -/
lemma renderTarget_spec {args : List Text} (hw : w.isWord = true)
    (hargs : Target.Group (fun t => Text.Balanced '<' '>' t ∧ Text.Balanced '(' ')' t) args) :
    Text.Balanced '(' ')' (OpKind.renderTarget w args) ∧
      Target.split? (Text.trim (OpKind.renderTarget w args)) = some (w, args) := by
  obtain ⟨htrim, -⟩ := Text.trimmed_of_isWord hw
  have hparens := balanced_of_isWord (o := '(') (x := ')') (by decide) (by decide) hw
  rcases hargs with rfl | ⟨t, rfl, ht, hangle, hparen⟩
  · refine ⟨hparens, Target.split?_eq_some_iff.2 ⟨hw, [], ?_, rfl, Or.inl ⟨rfl, rfl⟩⟩⟩
    rw [OpKind.renderTarget, htrim, htrim, List.append_nil]
  · have hrender : OpKind.renderTarget w [t] = w ++ '<' :: (t ++ ['>']) := by
      simp [OpKind.renderTarget, Text.join]
    have hfree : ∀ y ∈ w, y ≠ '(' ∧ y ≠ ')' := fun y hy =>
      ⟨Text.ne_of_mem_isWord hw hy (by decide), Text.ne_of_mem_isWord hw hy (by decide)⟩
    have hend : Text.trim (w ++ '<' :: (t ++ ['>'])) = w ++ '<' :: (t ++ ['>']) := by
      obtain ⟨x, v, rfl, hx⟩ := Text.exists_cons_of_isWord hw
      refine Text.trim_eq_self ?_ ?_
      · simpa using isBlank_of_isWordChar hx
      · simp [List.getLast?_append, List.getLast?_cons]
        decide
    have hgroup : Text.trim ('<' :: (t ++ ['>'])) = '<' :: (t ++ ['>']) := by
      refine Text.trim_eq_self ?_ ?_
      · simp
        decide
      · simp [List.getLast?_cons]
        decide
    rw [hrender]
    constructor
    · refine (Text.closes_append_left hfree).2 ?_
      rw [Text.closes_other (by decide) (by decide),
        Text.closes_append_right (by decide) (List.forall_mem_singleton.2 (by decide))]
      exact hparen
    · refine Target.split?_eq_some_iff.2 ⟨hw, '<' :: (t ++ ['>']), ?_, rfl, Or.inr ⟨t, hgroup, hangle, ?_⟩⟩
      · rw [hend, hend]
      · rw [Target.argumentGroup_of_trimmed ht]

/-- A free word with a blank behind it is left to the last two forms. -/
lemma firstFit_of_gapped (hw : w.Free) (hr : r.Gapped) (h : c.rest = w ++ r) :
    firstFit (forms tables labels) c = firstFit [decimalLiteral, bareWord labels] c := by
  rw [firstFit_of_free hw hr.breaks h,
    firstFit_cons_of_none (call_of_head? hw.word hr.breaks h (hr.head?_ne (by decide)) (hr.head?_ne (by decide))),
    firstFit_cons_of_none (template_of_isWord hw.word h),
    firstFit_cons_of_none (labelDef_of_head? hw.word hr.breaks h (hr.head?_ne (by decide)))]

/-- If it is not all digits, it is left to the last form. -/
lemma firstFit_of_bare (hw : w.Free) (hdigit : ∃ x ∈ w, x.isDigit = false) (hr : r.Gapped) (h : c.rest = w ++ r) :
    firstFit (forms tables labels) c = firstFit [bareWord labels] c := by
  rw [firstFit_of_gapped hw hr h, firstFit_cons_of_none (decimalLiteral_of_exists hw.word h hdigit)]

lemma firstFit_opcode {b : Opcode} (hmem : (w, b) ∈ Opcode.table) (hlabel : w ∉ labels) (hr : r.Gapped)
    (h : c.rest = w ++ r) :
    ∃ c', firstFit (forms tables labels) c = .ok (some (.opcode b, c')) ∧ c'.rest = r := by
  have hfree := Opcode.free_of_mem hmem
  have hword := Cursor.word?_eq_some_iff.2 ⟨hfree.word, r, h, hr.breaks, rfl⟩
  refine ⟨c.behind w r, ?_, rfl⟩
  rw [firstFit_of_bare hfree (Opcode.exists_not_digit_of_mem hmem) hr h]
  refine firstFit_cons_of_some ?_
  simp only [bareWord, hword, List.contains_eq_mem, hlabel, decide_false, Bool.false_eq_true, if_false,
    (Opcode.lookup_of_mem hmem).2]

lemma firstFit_labelRef (hw : w.Free) (hdigit : ∃ x ∈ w, x.isDigit = false)
    (hlabel : w ∈ labels ∨ Opcode.ofMnemonic? w = none) (hr : r.Gapped) (h : c.rest = w ++ r) :
    ∃ c', firstFit (forms tables labels) c = .ok (some (.labelRef w, c')) ∧ c'.rest = r := by
  have hword := Cursor.word?_eq_some_iff.2 ⟨hw.word, r, h, hr.breaks, rfl⟩
  refine ⟨c.behind w r, ?_, rfl⟩
  rw [firstFit_of_bare hw hdigit hr h]
  refine firstFit_cons_of_some ?_
  by_cases hmem : w ∈ labels
  · simp only [bareWord, hword, List.contains_eq_mem, hmem, decide_true, if_true]
  · simp only [bareWord, hword, List.contains_eq_mem, hmem, decide_false, Bool.false_eq_true, if_false,
      hlabel.resolve_left hmem]

/-- No builtin begins with a hexadecimal literal. -/
lemma firstFit_of_hex {d : Text} (hall : ∀ x ∈ d, isHexDigit x = true) (hr : r.breaks = true)
    (h : c.rest = "0x".toList ++ (d ++ r)) :
    firstFit (forms tables labels) c =
      firstFit [hexLiteral, call, template, labelDef labels, decimalLiteral, bareWord labels] c := by
  have hword : Text.isWord ("0x".toList ++ d) = true := by
    refine Text.isWord_iff.2 ⟨by simp, fun x hx => ?_⟩
    rcases List.mem_append.1 hx with hx | hx
    · exact Text.isWordChar_of_mem (rfl : Text.isWord "0x".toList = true) hx
    · exact isWordChar_of_isHexDigit (hall x hx)
  have hrest : c.rest = ("0x".toList ++ d) ++ r := by rw [h, List.append_assoc]
  have hkey : ∀ s : Text, s.isWord = true → s.head? = some '_' → c.keyword? s = none := by
    intro s hs hhead
    refine (Cursor.keyword?_of_word hs hword hr hrest).2 ?_
    rintro rfl
    simp at hhead
  exact firstFit_of_keyword? (hkey _ rfl rfl) (hkey _ rfl rfl) (hkey _ rfl rfl)

lemma firstFit_push {byte : Opcode} {data : Bytes} (hdata : Opcode.pushOf? data.length = some byte) (hr : r.Gapped)
    (h : c.rest = "0x".toList ++ (data.toHex ++ r)) :
    ∃ c', firstFit (forms tables labels) c = .ok (some (.push byte data, c')) ∧ c'.rest = r := by
  obtain ⟨c', hc', hend⟩ := hexLiteral_toHex hdata hr.breaks h
  refine ⟨c', ?_, hend⟩
  rw [firstFit_of_hex (fun x => Bytes.isHexDigit_of_mem_toHex) hr.breaks h]
  exact firstFit_cons_of_some hc'

lemma firstFit_labelDef (hw : w.Free) (hlabel : w ∉ labels) (h : c.rest = w ++ ':' :: r) :
    ∃ c', firstFit (forms tables labels) c = .ok (some (.labelDef w, c')) ∧ c'.rest = r := by
  have hword := Cursor.word?_eq_some_iff.2 ⟨hw.word, ':' :: r, h, rfl, rfl⟩
  have heat := Cursor.eat?_eq_some_iff.2 ⟨r, (rfl : (c.behind w (':' :: r)).rest = ':' :: r), rfl⟩
  refine ⟨(c.behind w (':' :: r)).behind [':'] r, ?_, rfl⟩
  rw [firstFit_of_free hw rfl h, firstFit_cons_of_none (call_of_head? hw.word rfl h (by simp) (by simp)),
    firstFit_cons_of_none (template_of_isWord hw.word h)]
  refine firstFit_cons_of_some ?_
  simp only [labelDef, hword, heat, List.contains_eq_mem, hlabel, decide_false, Bool.false_eq_true, if_false]

lemma firstFit_call {args : List Text} (hw : w.Free)
    (hargs : Target.Group (fun t => Text.Balanced '<' '>' t ∨ Text.Balanced '(' ')' t) args)
    (h : c.rest = OpKind.renderCall w args ++ r) :
    ∃ c', firstFit (forms tables labels) c = .ok (some (.call w args, c')) ∧ c'.rest = r := by
  rcases hargs with rfl | ⟨t, rfl, ht, hbalanced⟩
  · have hrest : c.rest = w ++ '(' :: ([] ++ ')' :: r) := by simpa [OpKind.renderCall] using h
    obtain ⟨c', hc', hend⟩ := call_parens hw.word (Text.closes_nil.2 rfl) hrest
    refine ⟨c', ?_, hend⟩
    rw [firstFit_of_free hw rfl hrest]
    exact firstFit_cons_of_some hc'
  · have hgroup := Target.argumentGroup_of_trimmed ht
    by_cases hangle : Text.Balanced '<' '>' t
    · have hrest : c.rest = w ++ '<' :: (t ++ '>' :: '(' :: ')' :: r) := by
        have hclosing := Text.closing_of_closes (by decide) hangle []
        simpa [OpKind.renderCall, Text.join, hclosing] using h
      obtain ⟨c', hc', hend⟩ := call_angles hw.word hangle hrest
      refine ⟨c', ?_, hend⟩
      rw [firstFit_of_free hw rfl hrest, ← hgroup]
      exact firstFit_cons_of_some hc'
    · have hclosing : Text.closing '<' '>' 0 (t ++ ['>']) ≠ some (t, []) := fun h =>
        hangle ((Text.closing_eq_some_iff (by decide)).1 h).2
      have hrest : c.rest = w ++ '(' :: (t ++ ')' :: r) := by
        simpa [OpKind.renderCall, Text.join, hclosing] using h
      obtain ⟨c', hc', hend⟩ := call_parens hw.word (hbalanced.resolve_left hangle) hrest
      refine ⟨c', ?_, hend⟩
      rw [firstFit_of_free hw rfl hrest, ← hgroup]
      exact firstFit_cons_of_some hc'

lemma firstFit_template {t : Text} (ht : t.Trimmed) (hbalanced : Text.Balanced '<' '>' t)
    (h : c.rest = '<' :: (t ++ '>' :: r)) :
    ∃ c', firstFit (forms tables labels) c = .ok (some (.template t, c')) ∧ c'.rest = r := by
  have hb := (Cursor.balanced?_eq_some_iff (c := c) (o := '<') (x := '>') (by decide)).2 ⟨r, h, hbalanced, rfl⟩
  have hpeek : c.peek? = some '<' := by rw [Cursor.peek?, h, List.head?_cons]
  refine ⟨c.behind ('<' :: t ++ ['>']) r, ?_, rfl⟩
  rw [firstFit_of_breaks (by rw [h]; rfl)]
  simp only [template, hpeek, if_true, hb, ht.2, Bool.false_eq_true, if_false, ht.1]

lemma firstFit_codeSize {args : List Text} (hw : w.isWord = true)
    (hargs : Target.Group (fun t => Text.Balanced '<' '>' t ∧ Text.Balanced '(' ')' t) args)
    (h : c.rest = "__codesize".toList ++ '(' :: (OpKind.renderTarget w args ++ ')' :: r)) :
    ∃ c', firstFit (forms tables labels) c = .ok (some (.codeSize w args, c')) ∧ c'.rest = r := by
  obtain ⟨hbalanced, hsplit⟩ := renderTarget_spec hw hargs
  obtain ⟨c', hbuiltin, hend⟩ := builtin_of_rest hbalanced h
  refine ⟨c', firstFit_cons_of_some ?_, hend⟩
  simp only [codeSize, hbuiltin, hsplit]

lemma firstFit_tableStart (hw : w.isWord = true) (h : c.rest = "__tablestart".toList ++ '(' :: (w ++ ')' :: r)) :
    ∃ c', firstFit (forms tables labels) c = .ok (some (.tableStart w, c')) ∧ c'.rest = r := by
  have hbalanced := balanced_of_isWord (o := '(') (x := ')') (by decide) (by decide) hw
  obtain ⟨c', hbuiltin, hend⟩ := builtin_of_rest hbalanced h
  have hsize : c.keyword? "__codesize".toList = none := (Cursor.keyword?_of_word rfl rfl rfl h).2 (by decide)
  have htables : c.keyword? "__tablesize".toList = none := (Cursor.keyword?_of_word rfl rfl rfl h).2 (by decide)
  refine ⟨c', ?_, hend⟩
  rw [forms, firstFit_cons_of_none (codeSize_eq_none_iff.2 hsize),
    firstFit_cons_of_none (tableSize_eq_none_iff.2 htables)]
  refine firstFit_cons_of_some ?_
  simp only [tableStart, hbuiltin, (Text.trimmed_of_isWord hw).1, hw, if_true]

/-- **A readable operation is read back** from the way it is written, if a blank or nothing follows it. -/
theorem next_render {k : OpKind} (hk : k.Readable labels) (hr : r.Gapped) (h : c.rest = k.render ++ r) :
    ∃ c', next tables labels c = .ok (k, c') ∧ c'.rest = r := by
  simp only [next_eq_ok_iff]
  cases k with
  | opcode b =>
    obtain ⟨w, hmem, hlabel⟩ := hk
    have hrender : (OpKind.opcode b).render = (Opcode.mnemonic? b).getD [] := rfl
    rw [hrender, (Opcode.lookup_of_mem hmem).1, Option.getD_some] at h
    exact firstFit_opcode hmem hlabel hr h
  | push byte data => exact firstFit_push hk hr (h.trans (List.append_assoc ..))
  | labelDef l => exact firstFit_labelDef hk.1 hk.2 (h.trans (List.append_assoc ..))
  | labelRef l => exact firstFit_labelRef hk.1 hk.2.1 hk.2.2 hr h
  | call callee args => exact firstFit_call hk.1 hk.2 h
  | template t => exact firstFit_template hk.1 hk.2 (h.trans (List.append_assoc ..))
  | codeSize callee args =>
    have hrender : (OpKind.codeSize callee args).render =
      "__codesize".toList ++ '(' :: (OpKind.renderTarget callee args ++ [')']) := rfl
    rw [hrender, List.append_assoc, List.cons_append, List.append_assoc] at h
    exact firstFit_codeSize hk.1 hk.2 h
  | tableStart t =>
    have hrender : (OpKind.tableStart t).render = "__tablestart".toList ++ '(' :: (t ++ [')']) := rfl
    rw [hrender, List.append_assoc, List.cons_append, List.append_assoc] at h
    exact firstFit_tableStart hk h

end OpReader

/-! ## bodies -/

namespace OpKind

/-- What is written begins with something that is no blank. -/
lemma Readable.exists_render_eq_cons {labels : List Text} {k : OpKind}
    (hk : k.Readable labels) : ∃ x t, k.render = x :: t ∧ isBlank x = false := by
  have hword : ∀ {w : Text} (t : Text), w.isWord = true → ∃ x u, w ++ t = x :: u ∧ isBlank x = false := by
    intro w t hw
    obtain ⟨x, v, rfl, hx⟩ := Text.exists_cons_of_isWord hw
    exact ⟨x, v ++ t, rfl, isBlank_of_isWordChar hx⟩
  cases k with
  | opcode b =>
    obtain ⟨w, hmem, -⟩ := hk
    have hrender : (OpKind.opcode b).render = w ++ [] := by
      rw [List.append_nil]
      exact congrArg (Option.getD · []) (Opcode.lookup_of_mem hmem).1
    rw [hrender]
    exact hword [] (Opcode.free_of_mem hmem).word
  | push byte data => exact ⟨'0', 'x' :: data.toHex, rfl, by decide⟩
  | labelDef l => exact hword [':'] hk.1.word
  | labelRef l =>
    have hrender : (OpKind.labelRef l).render = l ++ [] := (List.append_nil l).symm
    rw [hrender]
    exact hword [] hk.1.word
  | call callee args =>
    have hrender : ∃ t, renderCall callee args = callee ++ t := by
      unfold renderCall
      split
      · exact ⟨_, rfl⟩
      · simp only
        split <;> exact ⟨_, List.append_assoc ..⟩
    obtain ⟨t, ht⟩ := hrender
    obtain ⟨x, u, hu, hx⟩ := hword t hk.1.word
    exact ⟨x, u, ht.trans hu, hx⟩
  | template t => exact ⟨'<', t ++ ['>'], rfl, by decide⟩
  | codeSize callee args => exact ⟨'_', _, rfl, by decide⟩
  | tableStart t => exact ⟨'_', _, rfl, by decide⟩

lemma renderAll_cons (k : OpKind) (ks : List OpKind) :
    ∃ r, renderAll (k :: ks) = k.render ++ r ∧ r.Spaced ∧ (r = renderAll ks ∨ r = ' ' :: renderAll ks) := by
  cases ks with
  | nil => exact ⟨[], (List.append_nil _).symm, by simp [Text.Spaced], Or.inl rfl⟩
  | cons k' ks => exact ⟨' ' :: renderAll (k' :: ks), rfl, by simp [Text.Spaced], Or.inr rfl⟩

end OpKind

namespace Body

/-- Blanks in front of what begins with none are skipped. -/
lemma rest_skipBlanks {c : Cursor} {t : Text} (ht : ∀ x ∈ t.head?, isBlank x = false)
    (h : c.rest = t ∨ c.rest = ' ' :: t) : c.skipBlanks.rest = t := by
  rcases h with h | h
  · rw [Cursor.skipBlanks_eq (by rw [h]; exact ht), h]
  · exact Cursor.rest_skipBlanks_of_cons (by decide) ht h

/-- Written operations are read back one after the other. -/
theorem opsFrom_renderAll (b : Body) {labels : List Text} {ks : List OpKind} (hks : OpKind.AllReadable labels ks)
    {c : Cursor} (hc : c.rest = OpKind.renderAll ks ∨ c.rest = ' ' :: OpKind.renderAll ks) :
    ∃ ops, b.opsFrom labels c = .ok ops ∧ ops.map Op.kind = ks := by
  induction ks generalizing labels c with
  | nil =>
    have hend : c.skipBlanks.atEnd = true := by
      rw [Cursor.atEnd, rest_skipBlanks (by simp [OpKind.renderAll, Text.join]) hc]
      rfl
    exact ⟨[], opsFrom_of_atEnd hend, rfl⟩
  | cons k ks ih =>
    obtain ⟨hk, hks⟩ := hks
    obtain ⟨r, hrender, hspaced, hr⟩ := OpKind.renderAll_cons k ks
    obtain ⟨x, t, hcons, hx⟩ := hk.exists_render_eq_cons
    have hrest : c.skipBlanks.rest = k.render ++ r := by
      rw [rest_skipBlanks ?_ hc, hrender]
      rw [hrender, hcons]
      simpa using hx
    have hend : ¬ c.skipBlanks.atEnd = true := by
      rw [Cursor.atEnd, hrest, hcons]
      simp
    obtain ⟨c', hnext, hc'⟩ : ∃ c', OpReader.next b.tables labels c.skipBlanks = .ok (k, c') ∧ c'.rest = r :=
      OpReader.next_render hk hspaced.gapped hrest
    obtain ⟨ops, hops, hkinds⟩ := ih (c := c') hks (by rw [hc']; exact hr)
    refine ⟨b.op k c.skipBlanks.pos :: ops, ?_, ?_⟩
    · rw [opsFrom_of_next hend hnext, hops]
      rfl
    · rw [List.map_cons, hkinds]
      rfl

/-- **Operations survive being written and read.** Whatever operations a body holds, their written form, with any base,
lines and tables around it, holds operations of the same kinds in the same order. -/
theorem ops_renderAll {b : Body} {ops : List Op} (h : b.ops = .ok ops) (base : Nat) (lines : Lines)
    (tables : TableSet) :
    ∃ ops', Body.ops ⟨OpKind.renderAll (ops.map Op.kind), base, lines, tables⟩ = .ok ops' ∧
      ops'.map Op.kind = ops.map Op.kind := by
  have hread := allReadable_of_opsFrom b [] _ h
  exact opsFrom_renderAll ⟨OpKind.renderAll (ops.map Op.kind), base, lines, tables⟩ hread (Or.inl rfl)

end Body

/-! ## a body with operations of all kinds -/

namespace Sample

/-- `add` is an operation up to its definition as a label, and a reference behind it. -/
def phrase : Body where
  text := "add add: add 0x00ff 255 F() G< x, <y> >( ) H( y> ) < t > __codesize( M ) __codesize(M < n > )
    __tablesize(T) __tablestart( T )".toList
  base := 7
  lines := Sources.lines []
  tables := [⟨"T".toList, .code [1, 2, 3], .unknown⟩]

/-- The operations of the body as they are written. -/
def phraseText : Text :=
  "add add: add 0x00ff 0xff F() G<x, <y>>() H(y>) <t> __codesize(M) __codesize(M<n>) 0x03 __tablestart(T)".toList

/-- They are read back where no table is known. -/
theorem ops_phraseText : ∃ ops, phrase.ops = .ok ops ∧ OpKind.renderAll (ops.map Op.kind) = phraseText ∧
    ∃ ops', Body.ops ⟨phraseText, 0, Sources.lines [], []⟩ = .ok ops' ∧ ops'.map Op.kind = ops.map Op.kind := by
  have hread : (phrase.ops.map fun ops => OpKind.renderAll (ops.map Op.kind)).toOption = some phraseText := by
    decide +kernel
  cases hops : phrase.ops with
  | error f =>
    rw [hops] at hread
    cases hread
  | ok ops =>
    rw [hops] at hread
    have htext : OpKind.renderAll (ops.map Op.kind) = phraseText := Option.some.inj hread
    exact ⟨ops, rfl, htext, htext ▸ Body.ops_renderAll hops 0 (Sources.lines []) []⟩

end Sample
end MacroAsm
