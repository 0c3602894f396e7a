import MacroAsm.Op.Reader
import MacroAsm.Proofs.Bytes
import MacroAsm.Proofs.Readings

/-!
# What can be read in a body

The forms of a token are tried in a fixed order, so what a later form reads is something that the earlier ones have
left to it.

* `Text.Free w`: a word that neither a builtin nor a hexadecimal literal claims;
* `OpKind.Readable labels k`: what is true of an operation that has been read behind the definitions of `labels`;
* `OpReader.next_eq_ok_iff`: an operation is what one form reads, the earlier ones having passed;
* `OpReader.readable_of_next`: whatever is read is readable.
-/

namespace MacroAsm

lemma Opcode.mem_table {w : Text} {b : Opcode} (h : ofMnemonic? w = some b) : (w, b) ∈ table := by
  obtain ⟨⟨w', b'⟩, hfind, hb⟩ := Option.map_eq_some_iff.1 h
  have hw := List.find?_some hfind
  have heq : (w, b) = (w', b') := Prod.ext (eq_of_beq hw).symm hb.symm
  rw [heq]
  exact List.mem_of_find?_eq_some hfind

/-- A word that is no builtin and no hexadecimal literal. -/
structure Text.Free (w : Text) : Prop where
  word : w.isWord = true
  hex : ¬ "0x".toList <+: w
  codeSize : w ≠ "__codesize".toList
  tableStart : w ≠ "__tablestart".toList
  tableSize : w ≠ "__tablesize".toList

namespace OpKind

open Text in
/-- The shape of an operation that has been read behind the definitions of `labels`. -/
def Readable (labels : List Text) : OpKind → Prop
  | opcode b => ∃ w, (w, b) ∈ Opcode.table ∧ w ∉ labels
  | push byte data => Opcode.pushOf? data.length = some byte
  | labelDef l => Free l ∧ l ∉ labels
  | labelRef l => Free l ∧ (∃ c ∈ l, c.isDigit = false) ∧ (l ∈ labels ∨ Opcode.ofMnemonic? l = none)
  | call callee args => Free callee ∧ Target.Group (fun t => Balanced '<' '>' t ∨ Balanced '(' ')' t) args
  | template t => Trimmed t ∧ Balanced '<' '>' t
  | codeSize callee args =>
    callee.isWord = true ∧ Target.Group (fun t => Balanced '<' '>' t ∧ Balanced '(' ')' t) args
  | tableStart t => t.isWord = true

lemma readable_of_push? {labels : List Text} {data : Bytes} {k : OpKind} (h : push? data = some k) :
    k.Readable labels := by
  obtain ⟨byte, hbyte, rfl⟩ := Option.map_eq_some_iff.1 h
  exact hbyte

end OpKind

/-- **A macro with its arguments** is a word, alone or with one bracketed group behind it. -/
theorem Target.split?_eq_some_iff {t name : Text} {args : List Text} :
    split? t = some (name, args) ↔
      name.isWord = true ∧ ∃ r, Text.trim t = name ++ r ∧ r.breaks = true ∧
        (Text.trim r = [] ∧ args = [] ∨
          ∃ inner, Text.trim r = '<' :: (inner ++ ['>']) ∧ Text.Balanced '<' '>' inner ∧
            args = argumentGroup inner) := by
  constructor
  · intro h
    unfold split? at h
    split at h
    · cases h
    · next w c hword =>
      obtain ⟨hw, r, hrest, hr, rfl⟩ := Cursor.word?_eq_some_iff.1 hword
      simp only at h
      split at h
      · next hempty =>
        obtain ⟨rfl, rfl⟩ := Prod.mk.inj (Option.some.inj h)
        exact ⟨hw, r, hrest, hr, Or.inl ⟨List.isEmpty_iff.1 hempty, rfl⟩⟩
      · split at h
        · next inner c' hb =>
          split at h
          · next hend =>
            obtain ⟨rfl, rfl⟩ := Prod.mk.inj (Option.some.inj h)
            obtain ⟨tail, htail, hbalanced, rfl⟩ := (Cursor.balanced?_eq_some_iff (by decide)).1 hb
            have hnil : tail = [] := List.isEmpty_iff.1 hend
            rw [hnil] at htail
            exact ⟨hw, r, hrest, hr, Or.inr ⟨inner, htail, hbalanced, rfl⟩⟩
          · cases h
        · cases h
  · rintro ⟨hw, r, hrest, hr, hargs⟩
    have hstart : (Cursor.start (Text.trim t)).rest = name ++ r := hrest
    have hword := Cursor.word?_eq_some_iff.2 ⟨hw, r, hstart, hr, rfl⟩
    simp only [split?, hword, Cursor.behind]
    rcases hargs with ⟨hnil, rfl⟩ | ⟨inner, hgroup, hbalanced, rfl⟩
    · simp [hnil]
    · have hb := (Cursor.balanced?_eq_some_iff (c := Cursor.start (Text.trim r)) (o := '<') (x := '>') (by decide)).2
        ⟨[], hgroup, hbalanced, rfl⟩
      simp [hgroup ▸ hb, hgroup, Cursor.behind, Cursor.atEnd]

namespace OpReader

/-! ## the first form that fits -/

lemma firstFit_cons_eq {form : Cursor → Attempt} {forms : List (Cursor → Attempt)} {c : Cursor} {r : OpKind × Cursor} :
    firstFit (form :: forms) c = .ok (some r) ↔
      form c = .ok (some r) ∨ form c = .ok none ∧ firstFit forms c = .ok (some r) := by
  rw [firstFit]
  split
  · next h => simp [h]
  · next h => simpa using fun hnone => absurd hnone h

/-- An operation is what one of the forms reads, where all earlier ones have passed. -/
theorem next_eq_ok_iff {tables : TableSet} {labels : List Text} {c : Cursor} {r : OpKind × Cursor} :
    next tables labels c = .ok r ↔ firstFit (forms tables labels) c = .ok (some r) := by
  unfold next
  split
  · next h => simp [h]
  · next h => simp [h]
  · next h => simp [h]

section Forms

variable {tables : TableSet} {labels : List Text} {c c' : Cursor} {k : OpKind} {w r : Text}

lemma kind_eq {k k' : OpKind} {c c' : Cursor}
    (h : (Except.ok (some (k, c)) : Attempt) = .ok (some (k', c'))) : k = k' :=
  (Prod.mk.inj (Option.some.inj (Except.ok.inj h))).1

lemma builtin_eq_none_iff {word : Text} : builtin word c = .ok none ↔ c.keyword? word = none := by
  unfold builtin
  split
  · next h => simp [h]
  · next c₁ h =>
    split
    · simp [h]
    · simp [h]

lemma builtin_eq_some_iff {word t : Text} :
    builtin word c = .ok (some (t, c')) ↔
      ∃ c₁ inner, c.keyword? word = some c₁ ∧ c₁.balanced? '(' ')' = some (inner, c') ∧ t = Text.trim inner := by
  unfold builtin
  split
  · next h => simp [h]
  · next c₁ h =>
    split
    · next inner c₂ hb =>
      simp only [Except.ok.injEq, Option.some.injEq, Prod.mk.injEq, h]
      constructor
      · rintro ⟨rfl, rfl⟩
        exact ⟨c₁, inner, rfl, hb, rfl⟩
      · rintro ⟨_, _, rfl, hb', rfl⟩
        rw [hb] at hb'
        obtain ⟨rfl, rfl⟩ := Prod.mk.inj (Option.some.inj hb')
        exact ⟨rfl, rfl⟩
    · next hb => simp [h, hb]

/-! ## forms that pass -/

lemma codeSize_eq_none_iff : codeSize c = .ok none ↔ c.keyword? "__codesize".toList = none := by
  rw [← builtin_eq_none_iff]
  unfold codeSize
  split
  · next h => rw [h]; simp
  · next h => rw [h]; simp
  · next h =>
    rw [h]
    split <;> simp

lemma tableStart_eq_none_iff : tableStart c = .ok none ↔ c.keyword? "__tablestart".toList = none := by
  rw [← builtin_eq_none_iff]
  unfold tableStart
  split
  · next h => rw [h]; simp
  · next h => rw [h]; simp
  · next h =>
    rw [h]
    split <;> simp

lemma tableSize_eq_none_iff : tableSize tables c = .ok none ↔ c.keyword? "__tablesize".toList = none := by
  rw [← builtin_eq_none_iff]
  unfold tableSize
  split
  · next h => rw [h]; simp
  · next h => rw [h]; simp
  · next h =>
    rw [h]
    split
    · simp [OpKind.pushValue?_wrapCount_ne_none]
    · simp

lemma hexLiteral_eq_none_iff : hexLiteral c = .ok none ↔ c.eatText? "0x".toList = none := by
  unfold hexLiteral
  split
  · next h => rw [h]; simp
  · next c₁ h =>
    simp only [h, reduceCtorEq, iff_false]
    split
    · simp
    · split <;> simp

/-- Where the builtins and the hexadecimal literals have passed, a word is free. -/
lemma free_of_none (hsize : codeSize c = .ok none) (htables : tableSize tables c = .ok none)
    (hstart : tableStart c = .ok none) (hhex : hexLiteral c = .ok none) (hw : w.isWord = true) (hr : r.breaks = true)
    (hrest : c.rest = w ++ r) : w.Free where
  word := hw
  hex := by
    rintro ⟨v, rfl⟩
    rw [hexLiteral_eq_none_iff, Cursor.eatText?_eq_some_iff.2 ⟨v ++ r, by rw [hrest, List.append_assoc], rfl⟩] at hhex
    cases hhex
  codeSize := (Cursor.keyword?_of_word rfl hw hr hrest).1 (codeSize_eq_none_iff.1 hsize)
  tableStart := (Cursor.keyword?_of_word rfl hw hr hrest).1 (tableStart_eq_none_iff.1 hstart)
  tableSize := (Cursor.keyword?_of_word rfl hw hr hrest).1 (tableSize_eq_none_iff.1 htables)

/-- Digits alone are a literal. -/
lemma exists_of_decimalLiteral_eq_none (h : decimalLiteral c = .ok none) (hw : w.isWord = true) (hr : r.breaks = true)
    (hrest : c.rest = w ++ r) : ∃ x ∈ w, x.isDigit = false := by
  by_contra hall
  have hdigit : ∀ x ∈ w, x.isDigit = true := by
    intro x hx
    by_contra hx'
    exact hall ⟨x, hx, by simpa using hx'⟩
  have hread : c.takeWhile Char.isDigit = (w, c.behind w r) := by
    refine Cursor.takeWhile_append hdigit (fun x hx => ?_) hrest
    have := Text.breaks_iff.1 hr x hx
    simp only [isWordChar, Char.isAlphanum, Bool.or_eq_false_iff] at this
    exact this.1.2
  have hbreak : (c.behind w r).peek?.any isWordChar = false := by
    simpa [Text.breaks, Cursor.peek?, Cursor.behind] using hr
  simp only [decimalLiteral, hread, hbreak, Bool.or_false] at h
  rw [if_neg (by simpa using (Text.isWord_iff.1 hw).1)] at h
  split at h <;> cases h

/-! ## forms that read -/

lemma readable_of_pushLiteral {data : Bytes} {digits : Text} (h : pushLiteral data digits = .ok k) :
    k.Readable labels := by
  unfold pushLiteral at h
  split at h
  · cases h
  · split at h
    · next hpush =>
      cases h
      exact OpKind.readable_of_push? hpush
    · cases h

lemma readable_of_hexLiteral (h : hexLiteral c = .ok (some (k, c'))) : k.Readable labels := by
  unfold hexLiteral at h
  split at h
  · cases h
  · simp only at h
    split at h
    · cases h
    · split at h
      · next hpush =>
        rw [← kind_eq h]
        exact readable_of_pushLiteral hpush
      · cases h

lemma readable_of_decimalLiteral (h : decimalLiteral c = .ok (some (k, c'))) : k.Readable labels := by
  unfold decimalLiteral at h
  simp only at h
  split at h
  · cases h
  · split at h
    · next hpush =>
      rw [← kind_eq h]
      exact readable_of_pushLiteral hpush
    · cases h

lemma readable_of_tableSize (h : tableSize tables c = .ok (some (k, c'))) : k.Readable labels := by
  unfold tableSize at h
  split at h
  · cases h
  · cases h
  · split at h
    · obtain ⟨kind, hpush, heq⟩ := Option.map_eq_some_iff.1 (Except.ok.inj h)
      rw [← (Prod.mk.inj heq).1]
      exact OpKind.readable_of_push? hpush
    · cases h

lemma readable_of_tableStart (h : tableStart c = .ok (some (k, c'))) : k.Readable labels := by
  unfold tableStart at h
  split at h
  · cases h
  · cases h
  · split at h
    · next hword =>
      rw [← kind_eq h]
      exact hword
    · cases h

lemma readable_of_template (h : template c = .ok (some (k, c'))) : k.Readable labels := by
  unfold template at h
  split at h
  · split at h
    · next inner c₁ hb =>
      split at h
      · cases h
      · next hblank =>
        obtain ⟨-, -, hbalanced, -⟩ := (Cursor.balanced?_eq_some_iff (by decide)).1 hb
        rw [← kind_eq h]
        exact ⟨Text.trimmed_trim (by simpa using hblank), hbalanced.trim (by decide) (by decide) (by decide)⟩
    · cases h
  · cases h

/-- A call is a free word with at most one trimmed argument, balanced in the brackets that it was written in. -/
lemma readable_of_call (hsize : codeSize c = .ok none) (htables : tableSize tables c = .ok none)
    (hstart : tableStart c = .ok none) (hhex : hexLiteral c = .ok none) (h : call c = .ok (some (k, c'))) :
    k.Readable labels := by
  unfold call at h
  split at h
  · cases h
  · next callee c₁ hword =>
    obtain ⟨hw, r, hrest, hr, -⟩ := Cursor.word?_eq_some_iff.1 hword
    have hfree := free_of_none hsize htables hstart hhex hw hr hrest
    split at h
    · cases h
    · next angle c₂ hangle =>
      split at h
      · cases h
      · next paren c₃ hparen =>
        split at h
        · cases h
        · rw [← kind_eq h]
          refine ⟨hfree, Target.group_argumentGroup ?_⟩
          unfold angleGroup? at hangle
          split at hangle
          · obtain ⟨⟨inner, c₄⟩, hb, heq⟩ := Option.map_eq_some_iff.1 hangle
            obtain ⟨rfl, -⟩ := Prod.mk.inj heq
            obtain ⟨-, -, hbalanced, -⟩ := (Cursor.balanced?_eq_some_iff (by decide)).1 hb
            exact Or.inl (hbalanced.trim (by decide) (by decide) (by decide))
          · obtain ⟨rfl, -⟩ := Prod.mk.inj (Option.some.inj hangle)
            obtain ⟨-, -, hbalanced, -⟩ := (Cursor.balanced?_eq_some_iff (by decide)).1 hparen
            exact Or.inr (hbalanced.trim (by decide) (by decide) (by decide))

lemma readable_of_labelDef (hsize : codeSize c = .ok none) (htables : tableSize tables c = .ok none)
    (hstart : tableStart c = .ok none) (hhex : hexLiteral c = .ok none)
    (h : labelDef labels c = .ok (some (k, c'))) : k.Readable labels := by
  unfold labelDef at h
  split at h
  · cases h
  · next label c₁ hword =>
    obtain ⟨hw, r, hrest, hr, -⟩ := Cursor.word?_eq_some_iff.1 hword
    split at h
    · cases h
    · split at h
      · cases h
      · next hnew =>
        rw [← kind_eq h]
        exact ⟨free_of_none hsize htables hstart hhex hw hr hrest, by simpa using hnew⟩

lemma readable_of_bareWord (hsize : codeSize c = .ok none) (htables : tableSize tables c = .ok none)
    (hstart : tableStart c = .ok none) (hhex : hexLiteral c = .ok none) (hdecimal : decimalLiteral c = .ok none)
    (h : bareWord labels c = .ok (some (k, c'))) : k.Readable labels := by
  unfold bareWord at h
  split at h
  · cases h
  · next word c₁ hword =>
    obtain ⟨hw, r, hrest, hr, -⟩ := Cursor.word?_eq_some_iff.1 hword
    have hfree := free_of_none hsize htables hstart hhex hw hr hrest
    have hdigit := exists_of_decimalLiteral_eq_none hdecimal hw hr hrest
    split at h
    · next hlabel =>
      rw [← kind_eq h]
      exact ⟨hfree, hdigit, Or.inl (by simpa using hlabel)⟩
    · next hlabel =>
      split at h
      · next b hb =>
        rw [← kind_eq h]
        exact ⟨word, Opcode.mem_table hb, by simpa using hlabel⟩
      · next hb =>
        rw [← kind_eq h]
        exact ⟨hfree, hdigit, Or.inr hb⟩

/-- The arguments of a macro whose size is asked for are balanced in both kinds of brackets around them. -/
lemma readable_of_codeSize (h : codeSize c = .ok (some (k, c'))) : k.Readable labels := by
  unfold codeSize at h
  split at h
  · cases h
  · cases h
  · next inner c₁ hbuiltin =>
    split at h
    · next callee args hsplit =>
      obtain ⟨c₂, raw, -, hparen, rfl⟩ := builtin_eq_some_iff.1 hbuiltin
      obtain ⟨-, -, hbalanced, -⟩ := (Cursor.balanced?_eq_some_iff (by decide)).1 hparen
      obtain ⟨hw, r, hrest, -, hargs⟩ := Target.split?_eq_some_iff.1 hsplit
      rw [← kind_eq h]
      refine ⟨hw, ?_⟩
      rcases hargs with ⟨-, rfl⟩ | ⟨group, hgroup, hangle, rfl⟩
      · exact Or.inl rfl
      · refine Target.group_argumentGroup ⟨hangle.trim (by decide) (by decide) (by decide), ?_⟩
        -- the name, the blanks and the angle brackets around the group hold no parenthesis
        have hname : ∀ x ∈ callee, x ≠ '(' ∧ x ≠ ')' := fun x hx =>
          ⟨Text.ne_of_mem_isWord hw hx (by decide), Text.ne_of_mem_isWord hw hx (by decide)⟩
        have htrim := hbalanced.trim (by decide) (by decide) (by decide)
        rw [← Text.trim_trim, hrest] at htrim
        have hbracket := ((Text.closes_append_left hname).1 htrim).trim (by decide) (by decide) (by decide)
        rw [hgroup, Text.closes_other (by decide) (by decide),
          Text.closes_append_right (by decide) (List.forall_mem_singleton.2 (by decide))] at hbracket
        exact hbracket.trim (by decide) (by decide) (by decide)
    · cases h

/-- **Whatever is read is readable.** -/
theorem readable_of_next (h : next tables labels c = .ok (k, c')) : k.Readable labels := by
  simp only [next_eq_ok_iff, forms, firstFit_cons_eq] at h
  rcases h with h | ⟨hsize, h | ⟨htables, h | ⟨hstart, h | ⟨hhex, h |
    ⟨-, h | ⟨-, h | ⟨-, h | ⟨hdecimal, h | ⟨-, h⟩⟩⟩⟩⟩⟩⟩⟩⟩
  · exact readable_of_codeSize h
  · exact readable_of_tableSize h
  · exact readable_of_tableStart h
  · exact readable_of_hexLiteral h
  · exact readable_of_call hsize htables hstart hhex h
  · exact readable_of_template h
  · exact readable_of_labelDef hsize htables hstart hhex h
  · exact readable_of_decimalLiteral h
  · exact readable_of_bareWord hsize htables hstart hhex hdecimal h
  · cases h

end Forms
end OpReader

/-! ## bodies -/

/-- Operations that have been read one after the other, the first behind the definitions of `labels`. -/
def OpKind.AllReadable : List Text → List OpKind → Prop
  | _, [] => True
  | labels, k :: ks => k.Readable labels ∧ AllReadable (k.defines ++ labels) ks

theorem Body.allReadable_of_opsFrom (b : Body) (labels : List Text) (c : Cursor) {ops : List Op}
    (h : b.opsFrom labels c = .ok ops) : OpKind.AllReadable labels (ops.map Op.kind) := by
  fun_induction Body.opsFrom b labels c generalizing ops with
  | case1 labels c hend =>
    cases h
    exact trivial
  | case2 labels c hend cause hnext => cases h
  | case3 labels c hend kind c' hnext f hrest ih => cases h
  | case4 labels c hend kind c' hnext rest hrest ih =>
    cases h
    exact ⟨OpReader.readable_of_next hnext, ih hrest⟩

end MacroAsm
