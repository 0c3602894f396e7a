import MacroAsm.Proofs.Concatenation
import MacroAsm.Proofs.RoundTrip

/-!
# Bodies side by side

Reading a token looks ahead: for a parenthesis behind a word, and for the bracket that closes one, however far away it
may be. Still a token does not depend on what follows it. Where a body is read to its end, every bracket that was looked
for is found in it, since one that is not closed would be the start of a token that cannot be read.

* `Cursor.Settled c`: what comes makes no call of a word in front of it; `Body.settled_of_opsFrom`;
* `OpReader.Carries`: what a form makes of a cursor, another makes of it in a longer text; `OpReader.next_embed`;
* `Body.opsFrom_embed`: the operations of a body are read first where a blank and more text follow it;
* `Body.Tokenized`: a body is blanks and tokens; `Body.ops_append`: bodies with blanks between them.
-/

namespace MacroAsm

namespace Text

lemma gapped_of_allBlank {w : Text} (hne : w ≠ []) (hw : allBlank w = true) (r : Text) : Gapped (w ++ r) := by
  obtain ⟨x, v, rfl⟩ := List.exists_cons_of_ne_nil hne
  rintro c hc
  cases hc
  exact List.all_eq_true.1 hw x List.mem_cons_self

end Text

/-! ## readings before a blank -/

/-- Before a blank, no reading runs on that takes no blanks. -/
lemma Text.Gapped.stops {p : Char → Bool} {post : Text} (hpost : post.Gapped)
    (hp : ∀ x, p x = true → isBlank x = false) (c : Cursor) : c.Stops p post :=
  Or.inr (hpost.eq_false hp)

/-- In particular none that takes parts of words. -/
lemma Text.Gapped.stops_keyword {post : Text} (hpost : post.Gapped) {s : Text} (hs : s.isWord = true) (c : Cursor) :
    c.Stops (Cursor.keywordClass s) post :=
  hpost.stops (fun x hx => isBlank_of_isWordChar <| by
    rcases Bool.or_eq_true_iff.1 hx with hmem | hword
    · exact Text.isWordChar_of_mem hs (List.contains_iff_mem.1 hmem)
    · exact hword) c

lemma Text.Gapped.stops_word {post : Text} (hpost : post.Gapped) (c : Cursor) : c.Stops isWordChar post :=
  hpost.stops (fun _ => isBlank_of_isWordChar) c

lemma Text.Gapped.stops_char {post : Text} (hpost : post.Gapped) {x : Char} (hx : isBlank x = false) (c : Cursor) :
    c.Stops (· == x) post :=
  hpost.stops (fun y (hy : (y == x) = true) => by rwa [eq_of_beq hy]) c

/-! ## forms before a blank -/

namespace OpReader

open Cursor

/-- What one form makes of a cursor, another makes of it in the longer text: it passes where the first passes, and reads
the operation `kind` up to `c'` where the first does. -/
structure Carries (k : Nat) (post : Text) (form form' : Cursor → Attempt) (c : Cursor) (kind : OpKind) (c' : Cursor) :
    Prop where
  pass : form c = .ok none → form' (c.embed k post) = .ok none
  read : form c = .ok (some (kind, c')) → form' (c.embed k post) = .ok (some (kind, c'.embed k post))

section Forms

variable {tables : TableSet} {labels extra : List Text} {c c' : Cursor} {kind : OpKind} {k : Nat} {post : Text}

lemma Carries.firstFit {form form' : Cursor → Attempt} {forms forms' : List (Cursor → Attempt)}
    (hform : Carries k post form form' c kind c')
    (hforms : firstFit forms c = .ok (some (kind, c')) →
      firstFit forms' (c.embed k post) = .ok (some (kind, c'.embed k post)))
    (h : firstFit (form :: forms) c = .ok (some (kind, c'))) :
    firstFit (form' :: forms') (c.embed k post) = .ok (some (kind, c'.embed k post)) := by
  rcases firstFit_cons_eq.1 h with hread | ⟨hpass, hrest⟩
  · exact firstFit_cons_of_some (hform.read hread)
  · rw [firstFit_cons_of_none (hform.pass hpass)]
    exact hforms hrest

variable (hpost : post.Gapped)

include hpost

lemma builtin_embed {word : Text} (hword : word.isWord = true) {found : Option (Text × Cursor)}
    (h : builtin word c = .ok found) :
    builtin word (c.embed k post) = .ok (found.map fun x => (x.1, x.2.embed k post)) := by
  have hkey := keyword?_embed k (hpost.stops_keyword hword c)
  cases found with
  | none =>
    rw [builtin_eq_none_iff] at h
    rw [h] at hkey
    exact builtin_eq_none_iff.2 hkey
  | some x =>
    obtain ⟨t, c₂⟩ := x
    obtain ⟨c₁, inner, hc₁, hbalanced, rfl⟩ := builtin_eq_some_iff.1 h
    rw [hc₁] at hkey
    exact builtin_eq_some_iff.2 ⟨_, _, hkey, balanced?_embed (by decide) hbalanced k post, rfl⟩

lemma carries_codeSize : Carries k post codeSize codeSize c kind c' := by
  refine ⟨fun h => ?_, fun h => ?_⟩
  · rw [codeSize_eq_none_iff] at h ⊢
    rw [keyword?_embed k (hpost.stops_keyword rfl c), h]
    rfl
  · unfold codeSize at h
    split at h
    · cases h
    · cases h
    · next inner c₁ hbuiltin =>
      split at h
      · next hsplit =>
        cases h
        simp only [codeSize, builtin_embed hpost rfl hbuiltin, Option.map_some, hsplit]
      · cases h

lemma carries_tableSize : Carries k post (tableSize tables) (tableSize tables) c kind c' := by
  have hall : ∀ {found : Option (OpKind × Cursor)}, tableSize tables c = .ok found →
      tableSize tables (c.embed k post) = .ok (found.map fun x => (x.1, x.2.embed k post)) := by
    intro found h
    unfold tableSize at h
    split at h
    · cases h
    · next hbuiltin =>
      cases h
      simp only [tableSize, builtin_embed hpost rfl hbuiltin, Option.map_none]
    · next name c₁ hbuiltin =>
      split at h
      · next table htable =>
        cases h
        simp only [tableSize, builtin_embed hpost rfl hbuiltin, Option.map_some, htable, Option.map_map]
        rfl
      · cases h
  exact ⟨hall, hall⟩

lemma carries_tableStart : Carries k post tableStart tableStart c kind c' := by
  refine ⟨fun h => ?_, fun h => ?_⟩
  · rw [tableStart_eq_none_iff] at h ⊢
    rw [keyword?_embed k (hpost.stops_keyword rfl c), h]
    rfl
  · unfold tableStart at h
    split at h
    · cases h
    · cases h
    · next name c₁ hbuiltin =>
      split at h
      · next hname =>
        cases h
        simp only [tableStart, builtin_embed hpost rfl hbuiltin, Option.map_some, hname, if_true]
      · cases h

lemma carries_hexLiteral : Carries k post hexLiteral hexLiteral c kind c' := by
  have hmark := hpost.stops_keyword (rfl : Text.isWord "0x".toList = true) c
  refine ⟨fun h => ?_, fun h => ?_⟩
  · rw [hexLiteral_eq_none_iff] at h ⊢
    rw [eatText?_embed k (hmark.mono fun x hx => by rw [keywordClass, hx, Bool.true_or]), h]
    rfl
  · unfold hexLiteral at h
    split at h
    · cases h
    · next c₁ heat =>
      have hlong := eatText?_embed k (hmark.mono fun x hx => by rw [keywordClass, hx, Bool.true_or])
      rw [heat, Option.map_some] at hlong
      simp only at h
      split at h
      · cases h
      · next hend =>
        split at h
        · next hpush =>
          cases h
          have hdigits := takeWhile_embed k ((hpost.stops_word c₁).mono fun _ => isWordChar_of_isHexDigit)
          simp only [hexLiteral, hlong, hdigits, any_peek?_embed k (hpost.stops_word _), hend, hpush]
          rfl
        · cases h

lemma carries_template : Carries k post template template c kind c' := by
  refine ⟨fun h => ?_, fun h => ?_⟩
  · unfold template at h
    split at h
    · split at h
      · split at h <;> cases h
      · cases h
    · next hpeek => exact if_neg fun hlong => hpeek ((peek?_embed k (hpost.stops_char (by decide) c)).1 hlong)
  · unfold template at h
    split at h
    · next hpeek =>
      split at h
      · next inner c₁ hbalanced =>
        split at h
        · cases h
        · next hblank =>
          cases h
          have hlong := (peek?_embed k (hpost.stops_char (by decide) c)).2 hpeek
          simp only [template, hlong, balanced?_embed (by decide) hbalanced k post, hblank, if_true]
          rfl
      · cases h
    · cases h

lemma carries_decimalLiteral : Carries k post decimalLiteral decimalLiteral c kind c' := by
  have hblank : ∀ x : Char, x.isDigit = true → isBlank x = false := fun x hx =>
    isBlank_of_isWordChar (isWordChar_iff.2 (Or.inr (Or.inl hx)))
  have hdigits := takeWhile_embed k (hpost.stops hblank c)
  refine ⟨fun h => ?_, fun h => ?_⟩
  · unfold decimalLiteral at h
    simp only at h
    split at h
    · next hend =>
      simp only [decimalLiteral, hdigits, any_peek?_embed k (hpost.stops_word _)]
      exact if_pos hend
    · split at h <;> cases h
  · unfold decimalLiteral at h
    simp only at h
    split at h
    · cases h
    · next hend =>
      split at h
      · next hpush =>
        cases h
        simp only [decimalLiteral, hdigits, any_peek?_embed k (hpost.stops_word _), hend, hpush]
        rfl
      · cases h

/-- More labels do not change a definition, unless the label is among them. -/
lemma carries_labelDef (hextra : ∀ l ∈ extra, l ∉ kind.defines) :
    Carries k post (labelDef labels) (labelDef (labels ++ extra)) c kind c' := by
  have hword := word?_embed k (hpost.stops_word c)
  refine ⟨fun h => ?_, fun h => ?_⟩
  · unfold labelDef at h
    split at h
    · next hnone =>
      rw [hnone] at hword
      simp only [labelDef, hword, Option.map_none]
    · next w c₁ hsome =>
      rw [hsome] at hword
      have hcolon := eat?_embed k (hpost.stops_char (x := ':') (by decide) c₁)
      split at h
      · next heat =>
        rw [heat] at hcolon
        simp only [labelDef, hword, Option.map_some, hcolon, Option.map_none]
      · split at h <;> cases h
  · unfold labelDef at h
    split at h
    · cases h
    · next w c₁ hsome =>
      rw [hsome] at hword
      have hcolon := eat?_embed k (hpost.stops_char (x := ':') (by decide) c₁)
      split at h
      · cases h
      · next c₂ heat =>
        rw [heat] at hcolon
        split at h
        · cases h
        · next hnew =>
          cases h
          have hfree : (labels ++ extra).contains w = false := by
            have hmem : w ∉ extra := fun hmem => hextra w hmem List.mem_cons_self
            simpa [hmem] using hnew
          simp only [labelDef, hword, Option.map_some, hcolon, hfree]
          rfl

/-- More labels do not change what a word means, unless they are mnemonics. -/
lemma carries_bareWord (hextra : ∀ l ∈ extra, Opcode.ofMnemonic? l = none) :
    Carries k post (bareWord labels) (bareWord (labels ++ extra)) c kind c' := by
  have hword := word?_embed k (hpost.stops_word c)
  refine ⟨fun h => ?_, fun h => ?_⟩
  · unfold bareWord at h
    split at h
    · next hnone =>
      rw [hnone] at hword
      simp only [bareWord, hword, Option.map_none]
    · split at h
      · cases h
      · split at h <;> cases h
  · unfold bareWord at h
    split at h
    · cases h
    · next w c₁ hsome =>
      rw [hsome] at hword
      simp only [bareWord, hword, Option.map_some, List.contains_eq_mem, List.mem_append, Bool.decide_or]
      by_cases hlabel : w ∈ labels
      · simp only [List.contains_eq_mem, hlabel, decide_true, if_true] at h
        cases h
        simp [hlabel]
      · simp only [List.contains_eq_mem, hlabel, decide_false, Bool.false_eq_true, if_false] at h
        by_cases hmem : w ∈ extra
        · rw [hextra w hmem] at h
          cases h
          simp [hmem]
        · cases hcode : Opcode.ofMnemonic? w with
          | none =>
            rw [hcode] at h
            cases h
            simp [hlabel, hmem]
          | some byte =>
            rw [hcode] at h
            cases h
            simp [hlabel, hmem]

end Forms
end OpReader

/-! ## words that are no calls -/

/-- What comes makes no call of a word in front of it: neither a parenthesis nor a bracketed group with one behind it,
and a bracket is closed. -/
structure Cursor.Settled (c : Cursor) : Prop where
  paren : c.peek? ≠ some '('
  angle : c.peek? = some '<' → ∃ inner c', c.balanced? '<' '>' = some (inner, c') ∧ c'.peek? ≠ some '('

namespace OpReader

open Cursor

variable {tables : TableSet} {labels extra : List Text} {c c' : Cursor} {kind : OpKind} {k : Nat} {post : Text}

lemma exists_balanced?_of_template (h : template c = .ok (some (kind, c'))) :
    c.peek? = some '<' ∧ ∃ inner, c.balanced? '<' '>' = some (inner, c') := by
  unfold template at h
  split at h
  · next hpeek =>
    split at h
    · next inner c₁ hbalanced =>
      split at h
      · cases h
      · cases h
        exact ⟨hpeek, inner, hbalanced⟩
    · cases h
  · cases h

lemma word?_of_decimalLiteral (h : decimalLiteral c = .ok (some (kind, c'))) : ∃ w, c.word? = some (w, c') := by
  unfold decimalLiteral at h
  simp only at h
  split at h
  · cases h
  · next hend =>
    split at h
    · cases h
      obtain ⟨hne, hbreak⟩ := Bool.or_eq_false_iff.1 (Bool.not_eq_true _ ▸ hend)
      refine ⟨_, word?_eq_some_iff.2 ⟨?_, _, List.takeWhile_append_dropWhile.symm, ?_, rfl⟩⟩
      · refine Text.isWord_iff.2 ⟨List.isEmpty_eq_false_iff.1 hne, fun x hx => ?_⟩
        exact isWordChar_iff.2 (Or.inr (Or.inl (List.mem_takeWhile_imp hx)))
      · exact Bool.not_eq_true' _ ▸ hbreak
    · cases h

lemma word?_of_bareWord (h : bareWord labels c = .ok (some (kind, c'))) : ∃ w, c.word? = some (w, c') := by
  unfold bareWord at h
  split at h
  · cases h
  · next w c₁ hword =>
    split at h
    · cases h
      exact ⟨w, hword⟩
    · split at h <;>
      · cases h
        exact ⟨w, hword⟩

lemma settled_of_labelDef {w : Text} {c₁ : Cursor} (hword : c.word? = some (w, c₁))
    (h : labelDef labels c = .ok (some (kind, c'))) : c₁.Settled := by
  unfold labelDef at h
  rw [hword] at h
  simp only at h
  split at h
  · cases h
  · next heat =>
    obtain ⟨r, hrest, -⟩ := eat?_eq_some_iff.1 heat
    have hpeek : c₁.peek? = some ':' := by rw [peek?, hrest, List.head?_cons]
    constructor <;> simp [hpeek]

/-- Where a word is read that is no call, what comes behind it is settled, since what comes behind the token is. -/
lemma settled_of_word? {w : Text} {c₁ : Cursor} (hword : c.word? = some (w, c₁)) (hc' : c'.Settled)
    (h : firstFit [template, labelDef labels, decimalLiteral, bareWord labels] c = .ok (some (kind, c'))) :
    c₁.Settled := by
  have hend : ∀ {w' : Text}, c.word? = some (w', c') → c₁.Settled := by
    intro w' hword'
    rw [hword] at hword'
    cases hword'
    exact hc'
  simp only [firstFit_cons_eq] at h
  rcases h with h | ⟨-, h | ⟨-, h | ⟨-, h | ⟨-, h⟩⟩⟩⟩
  · obtain ⟨hpeek, -⟩ := exists_balanced?_of_template h
    obtain ⟨hw, r, hrest, -⟩ := word?_eq_some_iff.1 hword
    obtain ⟨x, v, rfl, hx⟩ := Text.exists_cons_of_isWord hw
    rw [peek?, hrest] at hpeek
    cases hpeek
    exact absurd hx (by decide)
  · exact settled_of_labelDef hword h
  · obtain ⟨w', hword'⟩ := word?_of_decimalLiteral h
    exact hend hword'
  · obtain ⟨w', hword'⟩ := word?_of_bareWord h
    exact hend hword'
  · cases h

section Calls

variable (hpost : post.Gapped)

include hpost

lemma call_embed (h : call c = .ok (some (kind, c'))) :
    call (c.embed k post) = .ok (some (kind, c'.embed k post)) := by
  have hword := word?_embed k (hpost.stops_word c)
  unfold call at h
  split at h
  · cases h
  · next w c₁ hsome =>
    rw [hsome] at hword
    split at h
    · cases h
    · next angle c₂ hangle =>
      have hgroup : angleGroup? (c₁.embed k post) = some (angle, c₂.embed k post) := by
        unfold angleGroup? at hangle ⊢
        split at hangle
        · next hpeek =>
          obtain ⟨⟨inner, c₃⟩, hbalanced, heq⟩ := Option.map_eq_some_iff.1 hangle
          cases heq
          rw [if_pos ((peek?_embed k (hpost.stops_char (by decide) c₁)).2 hpeek), balanced?_embed (by decide) hbalanced]
          rfl
        · next hpeek =>
          cases hangle
          exact if_neg fun hlong => hpeek ((peek?_embed k (hpost.stops_char (by decide) c₁)).1 hlong)
      split at h
      · cases h
      · next paren c₃ hparen =>
        split at h
        · cases h
        · next hmixed =>
          cases h
          simp only [call, hword, Option.map_some, hgroup, balanced?_embed (by decide) hparen k post, hmixed]
          rfl

/-- No call comes to be of a word behind which everything is settled. -/
lemma call_embed_of_settled (h : ∀ w c₁, c.word? = some (w, c₁) → c₁.Settled) :
    call (c.embed k post) = .ok none := by
  have hword := word?_embed k (hpost.stops_word c)
  unfold call
  rw [hword]
  cases hsome : c.word? with
  | none => rfl
  | some x =>
    obtain ⟨w, c₁⟩ := x
    obtain ⟨hparen, hangle⟩ := h w c₁ hsome
    have hno : ∀ c₂ : Cursor, c₂.peek? ≠ some '(' → (c₂.embed k post).balanced? '(' ')' = none := fun c₂ hc₂ =>
      balanced?_of_peek? fun hlong => hc₂ ((peek?_embed k (hpost.stops_char (by decide) c₂)).1 hlong)
    simp only [Option.map_some]
    by_cases hpeek : c₁.peek? = some '<'
    · obtain ⟨inner, c₂, hbalanced, hc₂⟩ := hangle hpeek
      simp only [angleGroup?_of_balanced? (balanced?_embed (by decide) hbalanced k post), hno c₂ hc₂]
    · have hgroup : angleGroup? (c₁.embed k post) = some (none, c₁.embed k post) :=
        if_neg fun hlong => hpeek ((peek?_embed k (hpost.stops_char (by decide) c₁)).1 hlong)
      simp only [hgroup, hno c₁ hparen]

/-- **A token does not depend on what follows it**, if a blank follows the text and what comes behind the token is
settled. Nor does it depend on labels defined elsewhere, if they are no mnemonics and it defines none of them. -/
theorem next_embed (hextra : ∀ l ∈ extra, Opcode.ofMnemonic? l = none ∧ l ∉ kind.defines)
    (h : next tables labels c = .ok (kind, c')) (hc' : c'.Settled) :
    next tables (labels ++ extra) (c.embed k post) = .ok (kind, c'.embed k post) := by
  rw [next_eq_ok_iff] at h ⊢
  refine (carries_codeSize hpost).firstFit ((carries_tableSize hpost).firstFit ((carries_tableStart hpost).firstFit
    ((carries_hexLiteral hpost).firstFit fun h => ?_))) h
  -- a call closes its brackets in the text itself, but a word that is none might become one by what follows
  rcases firstFit_cons_eq.1 h with hcall | ⟨-, h⟩
  · exact firstFit_cons_of_some (call_embed hpost hcall)
  · rw [firstFit_cons_of_none (call_embed_of_settled hpost fun w c₁ hword => settled_of_word? hword hc' h)]
    exact (carries_template hpost).firstFit ((carries_labelDef hpost fun l hl => (hextra l hl).2).firstFit
      ((carries_decimalLiteral hpost).firstFit ((carries_bareWord hpost fun l hl => (hextra l hl).1).firstFit
      fun hnone => by cases hnone))) h

end Calls
end OpReader

/-! ## bodies before a blank -/

/-- The operation `k` bytes later, among the lines `l`. -/
def Op.moved (l : Lines) (k : Nat) (o : Op) : Op := ⟨o.kind, o.index + k, l.originAt (o.index + k)⟩

/-- The labels that operations define. -/
def Op.labels (ops : List Op) : List Text := ops.flatMap fun o => o.kind.defines

/-- The labels defined before the end of some operations, the newest in front. -/
def Op.labelsBehind : List Text → List Op → List Text
  | labels, [] => labels
  | labels, o :: ops => labelsBehind (o.kind.defines ++ labels) ops

lemma Op.mem_labelsBehind {l : Text} {labels : List Text} {ops : List Op} :
    l ∈ labelsBehind labels ops ↔ l ∈ labels ∨ l ∈ Op.labels ops := by
  induction ops generalizing labels with
  | nil => simp [labelsBehind, Op.labels]
  | cons o ops ih =>
    have hcons : Op.labels (o :: ops) = o.kind.defines ++ Op.labels ops := List.flatMap_cons
    rw [labelsBehind, ih, hcons, List.mem_append, List.mem_append]
    exact or_assoc.trans or_left_comm

namespace Cursor

variable {c : Cursor}

lemma exists_cons_skipBlanks (h : ¬ c.skipBlanks.atEnd = true) :
    ∃ x r, c.skipBlanks.rest = x :: r ∧ isBlank x = false := by
  have hhead := List.head?_dropWhile_not isBlank c.rest
  cases hrest : c.skipBlanks.rest with
  | nil => exact absurd (by rw [atEnd, hrest, List.isEmpty_nil]) h
  | cons x r =>
    have hdrop : c.rest.dropWhile isBlank = x :: r := hrest
    rw [hdrop] at hhead
    exact ⟨x, r, rfl, by simpa using hhead⟩

lemma skipBlanks_embed_of_not_atEnd (k : Nat) (post : Text) (h : ¬ c.skipBlanks.atEnd = true) :
    (c.embed k post).skipBlanks = c.skipBlanks.embed k post := by
  obtain ⟨x, r, hrest, hx⟩ := exists_cons_skipBlanks h
  have hmem : x ∈ c.rest := by
    obtain ⟨gap, hgap, -⟩ := before_skipBlanks c
    rw [hgap, hrest]
    exact List.mem_append_right gap List.mem_cons_self
  exact skipBlanks_embed k (Or.inl ⟨x, hmem, hx⟩)

end Cursor

namespace Body

variable {b : Body} {labels extra : List Text} {c : Cursor} {ops : List Op}

/-- Only a template argument starts with a character that is neither blank nor part of a word. -/
lemma exists_template_of_opsFrom {x : Char} (hblank : isBlank x = false) (hword : isWordChar x = false)
    (hpeek : c.peek? = some x) (h : b.opsFrom labels c = .ok ops) :
    ∃ kind c' rest, OpReader.template c = .ok (some (kind, c')) ∧
      b.opsFrom (kind.defines ++ labels) c' = .ok rest := by
  have hhead : ∀ y ∈ c.rest.head?, y = x := fun y hy => Option.some.inj (hy.symm.trans hpeek)
  have hskip : c.skipBlanks = c := Cursor.skipBlanks_eq fun y hy => hhead y hy ▸ hblank
  have hbreaks : c.rest.breaks = true := Text.breaks_iff.2 fun y hy => hhead y hy ▸ hword
  have hend : ¬ c.skipBlanks.atEnd = true := by
    rw [hskip, Cursor.atEnd, List.isEmpty_iff]
    intro hnil
    rw [Cursor.peek?, hnil] at hpeek
    cases hpeek
  cases hnext : OpReader.next b.tables labels c.skipBlanks with
  | error cause =>
    rw [opsFrom_of_error hend hnext] at h
    cases h
  | ok r =>
    obtain ⟨kind, c'⟩ := r
    rw [opsFrom_of_next hend hnext] at h
    obtain ⟨rest, hrest, -⟩ := ok_of_bind h
    rw [OpReader.next_eq_ok_iff, hskip, OpReader.firstFit_of_breaks hbreaks] at hnext
    exact ⟨kind, c', rest, hnext, hrest⟩

lemma peek?_ne_of_opsFrom (h : b.opsFrom labels c = .ok ops) : c.peek? ≠ some '(' := by
  intro hpeek
  obtain ⟨kind, c', rest, htemplate, -⟩ := exists_template_of_opsFrom (by decide) (by decide) hpeek h
  obtain ⟨hangle, -⟩ := OpReader.exists_balanced?_of_template htemplate
  rw [hpeek] at hangle
  cases hangle

/-- Where a body is read to its end, every bracket is closed in it. -/
theorem settled_of_opsFrom (h : b.opsFrom labels c = .ok ops) : c.Settled := by
  refine ⟨peek?_ne_of_opsFrom h, fun hpeek => ?_⟩
  obtain ⟨kind, c', rest, htemplate, hrest⟩ := exists_template_of_opsFrom (by decide) (by decide) hpeek h
  obtain ⟨-, inner, hbalanced⟩ := OpReader.exists_balanced?_of_template htemplate
  exact ⟨inner, c', hbalanced, peek?_ne_of_opsFrom hrest⟩

/-- **The operations of a body are read first where a blank and more text follow it.** What follows is read behind the
labels of the body. -/
theorem opsFrom_embed (h : b.opsFrom labels c = .ok ops) (b' : Body) (htables : b'.tables = b.tables)
    (hbase : b'.base = b.base) {post : Text} (hpost : post.Gapped) (k : Nat)
    (hextra : ∀ l ∈ extra, Opcode.ofMnemonic? l = none ∧ l ∉ Op.labels ops) :
    b'.opsFrom (labels ++ extra) (c.embed k post) =
      b'.opsFrom (Op.labelsBehind labels ops ++ extra) ⟨c.total + k, post⟩ >>= fun rest =>
        .ok (ops.map (Op.moved b'.lines k) ++ rest) := by
  fun_induction Body.opsFrom b labels c generalizing ops with
  | case1 labels c hend =>
    cases h
    rw [opsFrom_of_skipBlanks (Cursor.skipBlanks_embed_of_atEnd k post hend)]
    exact (bind_pure _).symm
  | case2 labels c hend cause hnext => cases h
  | case3 labels c hend kind c' hnext f hrest => cases h
  | case4 labels c hend kind c' hnext rest hrest ih =>
    cases h
    have hskip := Cursor.skipBlanks_embed_of_not_atEnd k post hend
    have htotal := ((Cursor.before_skipBlanks c).trans (OpReader.ahead_of_next hnext).before).total
    have hend' : ¬ (c.embed k post).skipBlanks.atEnd = true := by
      rw [hskip, Cursor.atEnd, List.isEmpty_iff]
      exact fun hnil => hend (List.isEmpty_iff.2 (List.append_eq_nil_iff.1 hnil).1)
    have hlabels : ∀ l ∈ extra, l ∉ kind.defines ∧ l ∉ Op.labels rest := fun l hl =>
      not_or.1 fun hmem => (hextra l hl).2 (List.mem_append.2 hmem)
    -- what comes behind the token is read to the end too, and that settles it
    have hnext' : OpReader.next b'.tables (labels ++ extra) (c.embed k post).skipBlanks =
        .ok (kind, c'.embed k post) := by
      rw [htables, hskip]
      exact OpReader.next_embed hpost (fun l hl => ⟨(hextra l hl).1, (hlabels l hl).1⟩) hnext
        (settled_of_opsFrom hrest)
    have hop : b'.op kind (c.embed k post).skipBlanks.pos = (b.op kind c.skipBlanks.pos).moved b'.lines k := by
      rw [hskip, op, op, Op.moved, hbase, Cursor.embed, Nat.add_assoc]
    rw [opsFrom_of_next hend' hnext', ← List.append_assoc, ih hrest fun l hl => ⟨(hextra l hl).1, (hlabels l hl).2⟩,
      hop, htotal, bind_assoc]
    rfl

/-! ## blanks and tokens -/

/-- **Blanks and tokens.** From a cursor on a body is blank, or there are blanks, a token that is read from its first
character to its last, and the like behind it. The place of an operation is the first byte of its token. -/
inductive Tokenized (b : Body) : List Text → Cursor → List Op → Prop
  | blank {labels : List Text} {c : Cursor} (h : c.rest.allBlank = true) : Tokenized b labels c []
  | token {labels : List Text} {c : Cursor} {gap t r : Text} {x : Char} {kind : OpKind} {ops : List Op}
      (hrest : c.rest = gap ++ (x :: t ++ r)) (hgap : gap.allBlank = true) (hx : isBlank x = false)
      (hnext : OpReader.next b.tables labels (c.behind gap (x :: t ++ r)) =
        .ok (kind, (c.behind gap (x :: t ++ r)).behind (x :: t) r))
      (h : Tokenized b (kind.defines ++ labels) ((c.behind gap (x :: t ++ r)).behind (x :: t) r) ops) :
      Tokenized b labels c (b.op kind (c.pos + Text.byteLength gap) :: ops)

theorem tokenized_of_opsFrom (h : b.opsFrom labels c = .ok ops) : b.Tokenized labels c ops := by
  fun_induction Body.opsFrom b labels c generalizing ops with
  | case1 labels c hend =>
    cases h
    exact .blank (List.all_eq_true.2 (List.dropWhile_eq_nil_iff.1 (List.isEmpty_iff.1 hend)))
  | case2 labels c hend cause hnext => cases h
  | case3 labels c hend kind c' hnext f hrest => cases h
  | case4 labels c hend kind c' hnext rest hrest ih =>
    cases h
    obtain ⟨x, r, hx, hblank⟩ := Cursor.exists_cons_skipBlanks hend
    obtain ⟨⟨w, hw, hpos⟩, hlt⟩ := OpReader.ahead_of_next hnext
    obtain ⟨t, rfl⟩ : ∃ t, w = x :: t := by
      cases w with
      | nil =>
        rw [hw, List.nil_append] at hlt
        exact absurd hlt (Nat.lt_irrefl _)
      | cons y t =>
        rw [hx] at hw
        exact ⟨t, by rw [(List.cons.inj hw).1]⟩
    have hgap : Text.allBlank (c.rest.takeWhile isBlank) = true :=
      List.all_eq_true.2 fun y hy => List.mem_takeWhile_imp hy
    have hskip : c.behind (c.rest.takeWhile isBlank) (x :: t ++ c'.rest) = c.skipBlanks := by
      rw [← hw]
      rfl
    have hc' : c.skipBlanks.behind (x :: t) c'.rest = c' := by
      rw [Cursor.behind, ← hpos]
    refine .token (t := t) (r := c'.rest) ?_ hgap hblank ?_ ?_
    · rw [← hw]
      exact List.takeWhile_append_dropWhile.symm
    · rw [hskip, hc']
      exact hnext
    · rw [hskip, hc']
      exact ih hrest

namespace Tokenized

/-- Every operation stands where something is still to come, and has the line of its place. -/
lemma located (h : b.Tokenized labels c ops) :
    ∀ o ∈ ops, b.base + c.pos ≤ o.index ∧ o.index < b.base + c.total ∧ o.origin = b.lines.originAt o.index := by
  induction h with
  | blank hc => exact fun o ho => absurd ho List.not_mem_nil
  | @token labels c gap t r x kind ops hrest hgap hx hnext h ih =>
    have hbytes := congrArg Text.byteLength hrest
    have hpos := x.utf8Size_pos
    rw [Text.byteLength_append, Text.byteLength_append, Text.byteLength_cons] at hbytes
    simp only [Cursor.behind, Cursor.total, Text.byteLength_cons] at ih ⊢
    refine List.forall_mem_cons.2 ⟨⟨?_, ?_, rfl⟩, fun o ho => ?_⟩
    · simp only [op]
      omega
    · simp only [op]
      omega
    · obtain ⟨hlow, hhigh, horigin⟩ := ih o ho
      exact ⟨by omega, by omega, horigin⟩

/-- Operations stand one behind the other. -/
lemma ascending (h : b.Tokenized labels c ops) : (ops.map Op.index).Pairwise (· < ·) := by
  induction h with
  | blank hc => exact List.Pairwise.nil
  | @token labels c gap t r x kind ops hrest hgap hx hnext h ih =>
    refine List.pairwise_cons.2 ⟨List.forall_mem_map.2 fun o ho => ?_, ih⟩
    have hlow := (h.located o ho).1
    have hpos := x.utf8Size_pos
    simp only [Cursor.behind, Text.byteLength_cons] at hlow
    simp only [op]
    omega

end Tokenized

/-- **Tokens do not depend on what follows them.** Of two bodies that can be read with blanks between them, where the
first defines no label of the second and no mnemonic, the operations are those of the first and those of the second,
these later by what comes before them. The operations of a body stand in order, each at the first byte of its token. -/
theorem ops_append :
    (∀ {a w t : Text} {base : Nat} {tables : TableSet} {lines lines₁ lines₂ : Lines} {ops₁ ops₂ : List Op},
      Body.ops ⟨a, base, lines₁, tables⟩ = .ok ops₁ → Body.ops ⟨t, base, lines₂, tables⟩ = .ok ops₂ →
      (∀ l ∈ Op.labels ops₁, l ∉ Op.labels ops₂ ∧ Opcode.ofMnemonic? l = none) →
      w ≠ [] → w.allBlank = true →
      Body.ops ⟨a ++ (w ++ t), base, lines, tables⟩ =
        .ok (ops₁.map (Op.moved lines 0) ++ ops₂.map (Op.moved lines (Text.byteLength (a ++ w))))) ∧
    ∀ {b : Body} {ops : List Op}, b.ops = .ok ops →
      b.Tokenized [] (Cursor.start b.text) ops ∧ (ops.map Op.index).Pairwise (· < ·) ∧
      ∀ o ∈ ops, b.base ≤ o.index ∧ o.index < b.base + Text.byteLength b.text ∧
        o.origin = b.lines.originAt o.index := by
  constructor
  · intro a w t base tables lines lines₁ lines₂ ops₁ ops₂ ha ht hlabels hne hblank
    have hlabels' : ∀ l ∈ Op.labelsBehind [] ops₁, Opcode.ofMnemonic? l = none ∧ l ∉ Op.labels ops₂ := by
      intro l hl
      rcases Op.mem_labelsBehind.1 hl with hnil | hmem
      · exact absurd hnil List.not_mem_nil
      · exact (hlabels l hmem).symm
    -- the blanks are skipped before the second body, so it is read from its own start on
    have hskip : (Cursor.embed 0 t ⟨(Cursor.start a).total, w⟩).skipBlanks =
        ((Cursor.start t).embed (Text.byteLength (a ++ w)) []).skipBlanks := by
      have hend : (Cursor.skipBlanks ⟨(Cursor.start a).total, w⟩).atEnd = true :=
        List.isEmpty_iff.2 (List.dropWhile_eq_nil_iff.2 (List.all_eq_true.1 hblank))
      rw [Cursor.skipBlanks_embed_of_atEnd 0 t hend, Cursor.embed, Cursor.total, Text.byteLength_append]
      simp [Cursor.start, Cursor.total]
    have hthen : Body.opsFrom ⟨a ++ (w ++ t), base, lines, tables⟩ ([] ++ Op.labelsBehind [] ops₁)
        ((Cursor.start t).embed (Text.byteLength (a ++ w)) []) =
        .ok (ops₂.map (Op.moved lines (Text.byteLength (a ++ w))) ++ []) := by
      rw [opsFrom_embed ht ⟨a ++ (w ++ t), base, lines, tables⟩ rfl rfl (by simp [Text.Gapped]) _ hlabels',
        opsFrom_of_atEnd rfl]
      rfl
    calc Body.ops ⟨a ++ (w ++ t), base, lines, tables⟩
      _ = Body.opsFrom ⟨a ++ (w ++ t), base, lines, tables⟩ (Op.labelsBehind [] ops₁ ++ [])
            (Cursor.embed 0 t ⟨(Cursor.start a).total, w⟩) >>= fun rest =>
            .ok (ops₁.map (Op.moved lines 0) ++ rest) :=
        opsFrom_embed ha ⟨a ++ (w ++ t), base, lines, tables⟩ rfl rfl (Text.gapped_of_allBlank hne hblank t) 0
          fun l hl => absurd hl List.not_mem_nil
      _ = _ := by
        rw [opsFrom_of_skipBlanks hskip, List.append_nil, ← List.nil_append (Op.labelsBehind [] ops₁), hthen,
          List.append_nil]
        rfl
  · intro b ops h
    have htokens := tokenized_of_opsFrom h
    refine ⟨htokens, htokens.ascending, fun o ho => ?_⟩
    simpa [Cursor.start, Cursor.total] using htokens.located o ho

end Body

/-! ## two bodies -/

namespace Sample

/-- A bracket ends the body, so a parenthesis next to it would make a call. -/
def front : Text := "back: F<x>".toList

def frontOps : List Op :=
  [⟨.labelDef "back".toList, 0, .unknown⟩, ⟨.labelRef "F".toList, 6, .unknown⟩, ⟨.template "x".toList, 7, .unknown⟩]

/-- The label of the first body is only mentioned here. -/
def rear : Text := " back ahead: F(ahead)".toList

def rearOps : List Op :=
  [⟨.labelRef "back".toList, 1, .unknown⟩, ⟨.labelDef "ahead".toList, 6, .unknown⟩,
    ⟨.call "F".toList ["ahead".toList], 13, .unknown⟩]

end Sample

open Sample in
/-- The bodies on two lines. -/
theorem Body.ops_append_front_rear :
    Body.ops ⟨front, 0, Sources.lines [], []⟩ = .ok frontOps ∧ Body.ops ⟨rear, 0, Sources.lines [], []⟩ = .ok rearOps ∧
    ∀ lines, Body.ops ⟨front ++ (['\n'] ++ rear), 0, lines, []⟩ =
        .ok (frontOps.map (Op.moved lines 0) ++ rearOps.map (Op.moved lines 11)) ∧
      Body.Tokenized ⟨front ++ (['\n'] ++ rear), 0, lines, []⟩ [] (Cursor.start (front ++ (['\n'] ++ rear)))
        (frontOps.map (Op.moved lines 0) ++ rearOps.map (Op.moved lines 11)) := by
  have hfront : Body.ops ⟨front, 0, Sources.lines [], []⟩ = .ok frontOps := eq_ok_of_toOption (by decide +kernel)
  have hrear : Body.ops ⟨rear, 0, Sources.lines [], []⟩ = .ok rearOps := eq_ok_of_toOption (by decide +kernel)
  have hlabels : ∀ l ∈ Op.labels frontOps, l ∉ Op.labels rearOps ∧ Opcode.ofMnemonic? l = none := by decide +kernel
  refine ⟨hfront, hrear, fun lines => ?_⟩
  have hops : Body.ops ⟨front ++ (['\n'] ++ rear), 0, lines, []⟩ = _ :=
    Body.ops_append.1 hfront hrear hlabels (List.cons_ne_nil '\n' []) (by decide)
  exact ⟨hops, (Body.ops_append.2 hops).1⟩

end MacroAsm
