import MacroAsm.Program.Item
import MacroAsm.Op.Reader
import MacroAsm.Proofs.Readings

/-!
# Reading inside a longer text

What is read from a text is read from the same text with more before and after it, as long as reading does not come to
the end. Every declaration ends with a closing brace, which stops all readings but those of brackets.

* `Cursor.embed k post c`: the place `c` with `k` more bytes before it and `post` behind the text;
* `Cursor.Stops p post c`: what is read from `c` of a class of characters does not run on into `post`;
* `Cursor.Braced c`: a closing brace is still to come;
* `Item.read_embed`: an item that is read from a text is read from the longer one.
-/

namespace MacroAsm

/-- A text that holds a character which `s` does not hold, or that such a character follows, is not read across. -/
lemma Text.dropStart?_append_of_stops {s t post : Text} (h : (∃ x ∈ t, x ∉ s) ∨ ∀ x ∈ post.head?, x ∉ s) :
    dropStart? s (t ++ post) = (dropStart? s t).map (· ++ post) := by
  induction s generalizing t with
  | nil => rfl
  | cons c s ih =>
    cases t with
    | nil =>
      have hpost : ∀ x ∈ post.head?, x ∉ c :: s := h.resolve_left fun ⟨x, hx, _⟩ => by cases hx
      cases post with
      | nil => rfl
      | cons d post =>
        have hne : c ≠ d := by
          rintro rfl
          exact hpost c rfl List.mem_cons_self
        exact if_neg hne
    | cons d t =>
      rw [List.cons_append, dropStart?, dropStart?]
      split
      · next hcd =>
        refine ih ?_
        rcases h with ⟨x, hx, hxs⟩ | hpost
        · have hne : x ≠ d := by
            rintro rfl
            exact hxs (by simp [hcd])
          exact Or.inl ⟨x, (List.mem_cons.1 hx).resolve_left hne, fun hmem => hxs (List.mem_cons_of_mem c hmem)⟩
        · exact Or.inr fun x hx hmem => hpost x hx (List.mem_cons_of_mem c hmem)
      · rfl

namespace Cursor

/-- The same place with `k` more bytes before it and `post` behind the text. -/
def embed (k : Nat) (post : Text) (c : Cursor) : Cursor := ⟨c.pos + k, c.rest ++ post⟩

/-- The bytes of the whole text. -/
def total (c : Cursor) : Nat := c.pos + Text.byteLength c.rest

/-- A closing brace is still to come. -/
def Braced (c : Cursor) : Prop := '}' ∈ c.rest

/-- A reading that takes characters of a class only does not run on into `post`: some character still to come is not of
the class, or the first of `post` is not. -/
def Stops (p : Char → Bool) (post : Text) (c : Cursor) : Prop :=
  (∃ x ∈ c.rest, p x = false) ∨ ∀ x ∈ post.head?, p x = false

lemma pos_lt_total {c : Cursor} (h : ¬ c.atEnd = true) : c.pos < c.total := by
  unfold total
  cases hrest : c.rest with
  | nil => exact absurd (by rw [atEnd, hrest, List.isEmpty_nil]) h
  | cons x r =>
    have := x.utf8Size_pos
    rw [Text.byteLength_cons]
    omega

variable {c c' : Cursor}

lemma Before.total (h : c.Before c') : c'.total = c.total := by
  obtain ⟨w, hrest, hpos⟩ := h
  rw [Cursor.total, Cursor.total, hrest, hpos, Text.byteLength_append, Nat.add_assoc]

lemma Before.braced (h : c.Before c') (hb : c'.Braced) : c.Braced := by
  obtain ⟨w, hrest, -⟩ := h
  rw [Braced, hrest]
  exact List.mem_append_right w hb

lemma Braced.stops {p : Char → Bool} (hb : c.Braced) (hp : p '}' = false) (post : Text) : c.Stops p post :=
  Or.inl ⟨'}', hb, hp⟩

lemma Stops.mono {p q : Char → Bool} {post : Text} (h : c.Stops p post) (hpq : ∀ x, q x = true → p x = true) :
    c.Stops q post := by
  have hfalse : ∀ x, p x = false → q x = false := fun x hx => by
    rw [Bool.eq_false_iff]
    exact fun hq => Bool.eq_false_iff.1 hx (hpq x hq)
  exact h.imp (fun ⟨x, hx, hpx⟩ => ⟨x, hx, hfalse x hpx⟩) fun hpost x hx => hfalse x (hpost x hx)

theorem until?_eq_some_iff {x : Char} {t : Text} :
    c.until? x = some (t, c') ↔ ∃ r, c.rest = t ++ x :: r ∧ x ∉ t ∧ c' = c.behind (t ++ [x]) r := by
  constructor
  · intro h
    have hcut := List.takeWhile_append_dropWhile (p := (· != x)) (l := c.rest)
    have hhead := List.head?_dropWhile_not (· != x) c.rest
    have hbefore : x ∉ c.rest.takeWhile (· != x) := fun hx => by simpa using List.mem_takeWhile_imp hx
    unfold until? at h
    split at h
    · cases h
    · next y r hdrop =>
      obtain ⟨rfl, rfl⟩ := Prod.mk.inj (Option.some.inj h)
      rw [hdrop] at hcut hhead
      have hy : y = x := by simpa using hhead
      subst hy
      exact ⟨r, hcut.symm, hbefore, rfl⟩
  · rintro ⟨r, hrest, hx, rfl⟩
    have hclass : ∀ y ∈ t, (y != x) = true := fun y hy => by
      rw [bne_iff_ne]
      rintro rfl
      exact hx hy
    have hcut := Text.takeWhile_append_of_head (r := x :: r) hclass (by simp)
    unfold until?
    rw [hrest, hcut.1, hcut.2]

/-! ## readings in the longer text -/

section Embed

variable (k : Nat) {post : Text}

lemma behind_embed (w r : Text) : (c.embed k post).behind w (r ++ post) = (c.behind w r).embed k post := by
  simp only [behind, embed, mk.injEq, and_true]
  omega

lemma takeWhile_embed {p : Char → Bool} (h : c.Stops p post) :
    (c.embed k post).takeWhile p = ((c.takeWhile p).1, (c.takeWhile p).2.embed k post) := by
  have hall : ∀ x ∈ c.rest.takeWhile p, p x = true := fun x hx => List.mem_takeWhile_imp hx
  have hcut : c.rest.takeWhile p ++ c.rest.dropWhile p = c.rest := List.takeWhile_append_dropWhile
  have hhead : ∀ x ∈ (c.rest.dropWhile p ++ post).head?, p x = false := by
    cases hdrop : c.rest.dropWhile p with
    | nil =>
      -- everything still to come is of the class, so it is `post` that stops
      rw [hdrop, List.append_nil] at hcut
      refine h.resolve_left fun ⟨x, hx, hpx⟩ => ?_
      rw [← hcut] at hx
      exact Bool.eq_false_iff.1 hpx (hall x hx)
    | cons y r =>
      have hy := List.head?_dropWhile_not p c.rest
      rw [hdrop] at hy
      simpa using hy
  have hrest : (c.embed k post).rest = c.rest.takeWhile p ++ (c.rest.dropWhile p ++ post) := by
    rw [← List.append_assoc, hcut, embed]
  rw [takeWhile_append hall hhead hrest, behind_embed]
  rfl

lemma word?_embed (h : c.Stops isWordChar post) :
    (c.embed k post).word? = c.word?.map fun x => (x.1, x.2.embed k post) := by
  unfold word?
  rw [takeWhile_embed k h]
  rcases c.takeWhile isWordChar with ⟨w, c'⟩
  simp only
  split <;> rfl

lemma any_peek?_embed {p : Char → Bool} (h : c.Stops p post) : (c.embed k post).peek?.any p = c.peek?.any p := by
  unfold peek? embed
  cases hrest : c.rest with
  | cons y r => rfl
  | nil =>
    have hpost : ∀ x ∈ post.head?, p x = false := h.resolve_left fun ⟨x, hx, _⟩ => by
      rw [hrest] at hx
      cases hx
    rw [List.nil_append, List.head?_nil, Option.any_none]
    cases post with
    | nil => rfl
    | cons y r => exact hpost y rfl

lemma peek?_embed {x : Char} (h : c.Stops (· == x) post) : (c.embed k post).peek? = some x ↔ c.peek? = some x := by
  have hany := any_peek?_embed k h
  rw [Bool.eq_iff_iff] at hany
  simpa [Option.any_eq_true] using hany

lemma eat?_embed {x : Char} (h : c.Stops (· == x) post) : (c.embed k post).eat? x = (c.eat? x).map (embed k post) := by
  cases hrest : c.rest with
  | cons y r =>
    have hlong : (c.embed k post).rest = y :: (r ++ post) := by rw [embed, hrest, List.cons_append]
    unfold eat?
    simp only [hrest, hlong, behind_embed]
    split <;> rfl
  | nil =>
    have hnone : c.eat? x = none := by unfold eat?; rw [hrest]
    rw [hnone, Option.map_none, Option.eq_none_iff_forall_ne_some]
    intro c₁ hc₁
    obtain ⟨r, hr, -⟩ := eat?_eq_some_iff.1 hc₁
    have hpeek : (c.embed k post).peek? = some x := by rw [peek?, hr, List.head?_cons]
    rw [peek?_embed k h, peek?, hrest] at hpeek
    cases hpeek

lemma eatText?_embed {s : Text} (h : c.Stops s.contains post) :
    (c.embed k post).eatText? s = (c.eatText? s).map (embed k post) := by
  have hstops : (∃ x ∈ c.rest, x ∉ s) ∨ ∀ x ∈ post.head?, x ∉ s := by simpa [Stops] using h
  unfold eatText?
  rw [embed, Text.dropStart?_append_of_stops hstops, Option.map_map, Option.map_map]
  congr 1
  funext r
  exact behind_embed ..

/-- Behind a text of the class, what stops a reading is still to come. -/
lemma Stops.of_eatText? {p : Char → Bool} {s : Text} (h : c.Stops p post) (hs : ∀ x ∈ s, p x = true)
    (heat : c.eatText? s = some c') : c'.Stops p post := by
  obtain ⟨r, hrest, rfl⟩ := eatText?_eq_some_iff.1 heat
  refine h.imp_left fun ⟨x, hx, hpx⟩ => ⟨x, ?_, hpx⟩
  rw [hrest] at hx
  exact (List.mem_append.1 hx).resolve_left fun hmem => Bool.eq_false_iff.1 hpx (hs x hmem)

/-- The characters of a keyword, and those which must not follow it. -/
def keywordClass (s : Text) (x : Char) : Bool := s.contains x || isWordChar x

lemma keyword?_embed {s : Text} (h : c.Stops (keywordClass s) post) :
    (c.embed k post).keyword? s = (c.keyword? s).map (embed k post) := by
  unfold keyword?
  rw [eatText?_embed k (h.mono fun x hx => by rw [keywordClass, hx, Bool.true_or])]
  cases heat : c.eatText? s with
  | none => rfl
  | some c' =>
    have hstops : c'.Stops (keywordClass s) post := h.of_eatText? (fun x hx => by simp [keywordClass, hx]) heat
    have hbreak := any_peek?_embed k (hstops.mono (q := isWordChar) fun x hx => by rw [keywordClass, hx, Bool.or_true])
    rw [Option.map_some, Option.filter_some, Option.filter_some, hbreak]
    split <;> rfl

lemma skipBlanks_embed (h : c.Stops isBlank post) : (c.embed k post).skipBlanks = c.skipBlanks.embed k post := by
  rw [skipBlanks, takeWhile_embed k h, skipBlanks]

/-- Where only blanks are still to come, they run on into what follows. -/
lemma skipBlanks_embed_of_atEnd (post : Text) (h : c.skipBlanks.atEnd = true) :
    (c.embed k post).skipBlanks = skipBlanks ⟨c.total + k, post⟩ := by
  have hdrop : c.rest.dropWhile isBlank = [] := List.isEmpty_iff.1 h
  have hall : ∀ x ∈ c.rest, isBlank x = true := List.dropWhile_eq_nil_iff.1 hdrop
  simp only [skipBlanks, takeWhile, behind, embed, total, List.takeWhile_append_of_pos hall,
    List.dropWhile_append_of_pos hall, Text.byteLength_append, mk.injEq, and_true]
  omega

end Embed

section Brace

variable (hb : c.Braced)

include hb

lemma braced_skipBlanks : c.skipBlanks.Braced := by
  have hcut : c.rest.takeWhile isBlank ++ c.skipBlanks.rest = c.rest := List.takeWhile_append_dropWhile
  have hb : '}' ∈ c.rest := hb
  rw [← hcut] at hb
  rcases List.mem_append.1 hb with hmem | hmem
  · exact absurd (List.mem_takeWhile_imp hmem) (by decide)
  · exact hmem

lemma not_atEnd_embed (k : Nat) (post : Text) : ¬ (c.embed k post).atEnd = true := by
  rw [atEnd, List.isEmpty_iff, embed, List.append_eq_nil_iff]
  exact fun h => List.ne_nil_of_mem hb h.1

lemma braced_of_keyword? {s : Text} (hs : '}' ∉ s) (h : c.keyword? s = some c') : c'.Braced := by
  obtain ⟨r, hrest, rfl⟩ := eatText?_eq_some_iff.1 (Option.filter_eq_some_iff.1 h).1
  have hb : '}' ∈ c.rest := hb
  rw [hrest, List.mem_append, or_iff_right hs] at hb
  exact hb

end Brace

lemma balanced?_embed {o x : Char} (ho : o ≠ x) {inner : Text} (h : c.balanced? o x = some (inner, c')) (k : Nat)
    (post : Text) : (c.embed k post).balanced? o x = some (inner, c'.embed k post) := by
  obtain ⟨r, hrest, hbal, rfl⟩ := (balanced?_eq_some_iff ho).1 h
  exact (balanced?_eq_some_iff ho).2 ⟨r ++ post, by simp [embed, hrest], hbal, (behind_embed ..).symm⟩

lemma until?_embed {x : Char} {t : Text} (h : c.until? x = some (t, c')) (k : Nat) (post : Text) :
    (c.embed k post).until? x = some (t, c'.embed k post) := by
  obtain ⟨r, hrest, hx, rfl⟩ := until?_eq_some_iff.1 h
  exact until?_eq_some_iff.2 ⟨r ++ post, by simp [embed, hrest], hx, (behind_embed ..).symm⟩

end Cursor

/-! ## items in the longer text -/

namespace Item

open Cursor

/-- The item with its body `k` bytes later. -/
def shift (k : Nat) : Item → Item
  | params names => params names
  | defn name takes returns body bodyPos => defn name takes returns body (bodyPos + k)
  | jumpTable name packed body => jumpTable name packed body
  | codeTable name body bodyPos => codeTable name body (bodyPos + k)

/-- If the item is a macro, its body ends within the first `n` bytes. -/
def Within (n : Nat) : Item → Prop
  | defn _ _ _ body bodyPos => bodyPos + Text.byteLength body ≤ n
  | _ => True

variable {c c' : Cursor}

section Heads

variable (k : Nat) (post : Text) (hb : c.Braced)

include hb

lemma braced_skipTemplateWord : (skipTemplateWord c).Braced := by
  unfold skipTemplateWord
  split
  · next c₁ hk => exact braced_skipBlanks (braced_of_keyword? hb (by decide) hk)
  · exact hb

lemma skipTemplateWord_embed : skipTemplateWord (c.embed k post) = (skipTemplateWord c).embed k post := by
  unfold skipTemplateWord
  rw [keyword?_embed k (hb.stops (by decide) post)]
  cases hk : c.keyword? "template".toList with
  | none => rfl
  | some c₁ => exact skipBlanks_embed k ((braced_of_keyword? hb (by decide) hk).stops (by decide) post)

lemma paramsHead?_embed : paramsHead? (c.embed k post) = (paramsHead? c).map (embed k post) := by
  unfold paramsHead?
  rw [skipTemplateWord_embed k post hb]
  simp only [peek?_embed k ((braced_skipTemplateWord hb).stops (p := (· == '<')) (by decide) post)]
  split <;> rfl

lemma tableHead?_embed : tableHead? (c.embed k post) = (tableHead? c).map fun x => (x.1, x.2.embed k post) := by
  unfold tableHead?
  rw [keyword?_embed k (hb.stops (by decide) post), keyword?_embed k (hb.stops (by decide) post),
    keyword?_embed k (hb.stops (by decide) post)]
  cases c.keyword? "jumptable__packed".toList with
  | some c₁ => rfl
  | none =>
    cases c.keyword? "jumptable".toList with
    | some c₁ => rfl
    | none => cases c.keyword? "table".toList <;> rfl

lemma declHead?_embed : declHead? (c.embed k post) = (declHead? c).map fun x => (x.1, x.2.embed k post) := by
  unfold declHead?
  rw [keyword?_embed k (hb.stops (by decide) post)]
  cases hk : c.keyword? "#define".toList with
  | none => exact tableHead?_embed k post hb
  | some c₁ =>
    have hb₁ := braced_of_keyword? hb (by decide) hk
    have hb₂ := braced_skipBlanks hb₁
    simp only [Option.map_some]
    rw [skipBlanks_embed k (hb₁.stops (by decide) post), keyword?_embed k (hb₂.stops (by decide) post)]
    cases c₁.skipBlanks.keyword? "macro".toList with
    | some c₂ => rfl
    | none => exact tableHead?_embed k post hb₂

lemma head?_embed : head? (c.embed k post) = (head? c).map fun x => (x.1, x.2.embed k post) := by
  unfold head?
  rw [paramsHead?_embed k post hb, declHead?_embed k post hb]
  cases paramsHead? c with
  | some c₁ => rfl
  | none => cases declHead? c <;> rfl

end Heads

section Readers

variable (k : Nat) (post : Text) {name : Text} {item : Item}

lemma readParams_embed (h : readParams c = .ok (item, c')) :
    (∃ names, item = .params names) ∧ readParams (c.embed k post) = .ok (item, c'.embed k post) := by
  unfold readParams at h
  split at h
  · cases h
  · next inner c₁ hbal =>
    split at h
    · cases h
    · next hwords =>
      cases h
      refine ⟨⟨_, rfl⟩, ?_⟩
      unfold readParams
      simp only [balanced?_embed (by decide) hbal, hwords]

lemma readName_embed {kind : DeclKind} (hb : c.Braced) (h : readName kind c = .ok (name, c')) :
    readName kind (c.embed k post) = .ok (name, c'.embed k post) := by
  unfold readName at h
  split at h
  · cases h
  · next w c₁ hw =>
    split at h
    · next hname =>
      cases h
      unfold readName
      rw [skipBlanks_embed k (hb.stops (by decide) post),
        word?_embed k ((braced_skipBlanks hb).stops (by decide) post), hw]
      simp only [Option.map_some, hname, if_true]
    · cases h

lemma expect_embed {x : Char} (hx : x ≠ '}') {cause : Text → Cause} (hb : c.Braced) (h : expect x cause c = .ok c') :
    expect x cause (c.embed k post) = .ok (c'.embed k post) := by
  unfold expect at h
  split at h
  · next c₁ he =>
    cases h
    unfold expect
    rw [skipBlanks_embed k (hb.stops (by decide) post),
      eat?_embed k ((braced_skipBlanks hb).stops (by simpa using hx.symm) post), he]
    rfl
  · cases h

/-- A parenthesis that is not closed is left where it is, and nothing can be expected there but it. -/
lemma skipParamCount_embed (hb : c.Braced) (h : skipParamCount name c = .ok c') (hpeek : c'.peek? ≠ some '(') :
    skipParamCount name (c.embed k post) = .ok (c'.embed k post) := by
  have hlong := peek?_embed k (hb.stops (p := (· == '(')) (by decide) post)
  unfold skipParamCount at h
  split at h
  · next hopen =>
    split at h
    · cases h
      exact absurd hopen hpeek
    · next inner c₁ hbal =>
      split at h
      · next hcount =>
        cases h
        unfold skipParamCount
        simp only [hlong, hopen, balanced?_embed (by decide) hbal, hcount, if_true]
      · cases h
  · next hopen =>
    cases h
    unfold skipParamCount
    rw [if_neg (hlong.not.2 hopen)]

lemma peek?_of_expect {x : Char} {cause : Text → Cause} (h : expect x cause c = .ok c') {y : Char}
    (hy : isBlank y = false) (hne : y ≠ x) : c.peek? ≠ some y := by
  intro hpeek
  have hskip : c.skipBlanks = c := skipBlanks_eq fun z hz => by
    rw [Cursor.peek?] at hpeek
    rw [hpeek] at hz
    cases hz
    exact hy
  unfold expect at h
  rw [hskip] at h
  split at h
  · next c₁ he =>
    obtain ⟨r, hrest, -⟩ := eat?_eq_some_iff.1 he
    rw [Cursor.peek?, hrest] at hpeek
    cases hpeek
    exact hne rfl
  · cases h

lemma readCount_embed {word : Text} (hword : keywordClass word '}' = false) {n : Nat} (hb : c.Braced)
    (h : readCount word c = .ok (n, c')) : readCount word (c.embed k post) = .ok (n, c'.embed k post) := by
  unfold readCount at h
  split at h
  · cases h
  · next c₁ hk =>
    split at h
    · cases h
    · next inner c₂ hbal =>
      split at h
      · next hcount =>
        cases h
        have hskip := braced_skipBlanks hb
        have hmem : '}' ∉ word := by simpa [keywordClass] using (Bool.or_eq_false_iff.1 hword).1
        have hb₁ := braced_of_keyword? hskip hmem hk
        unfold readCount
        rw [skipBlanks_embed k (hb.stops (by decide) post), keyword?_embed k (hskip.stops hword post), hk]
        simp only [Option.map_some, skipBlanks_embed k (hb₁.stops (p := isBlank) (by decide) post),
          balanced?_embed (by decide) hbal, hcount]
      · cases h

/-- A body is closed by a brace. -/
lemma readBody_embed {body : Text} {bodyPos : Nat} (h : readBody name c = .ok (body, bodyPos, c')) :
    c.Braced ∧ readBody name (c.embed k post) = .ok (body, bodyPos + k, c'.embed k post) ∧
      bodyPos + Text.byteLength body ≤ c.total := by
  unfold readBody at h
  split at h
  · cases h
  · next c₁ he =>
    split at h
    · next body' c₂ hu =>
      cases h
      have hbefore := (ahead_of_expect he).before
      obtain ⟨r, hrest, -, -⟩ := until?_eq_some_iff.1 hu
      have hb₁ : c₁.Braced := by
        rw [Braced, hrest]
        simp
      have hb := hbefore.braced hb₁
      refine ⟨hb, ?_, ?_⟩
      · unfold readBody
        simp only [expect_embed k post (by decide) hb he, until?_embed hu]
        rfl
      · rw [← hbefore.total, Cursor.total, hrest, Text.byteLength_append]
        omega
    · cases h

lemma readDefn_embed (h : readDefn name c = .ok (item, c')) :
    c.Braced ∧ readDefn name (c.embed k post) = .ok (item.shift k, c'.embed k post) ∧ item.Within c.total := by
  obtain ⟨c₁, h₁, h⟩ := ok_of_bind h
  obtain ⟨c₂, h₂, h⟩ := ok_of_bind h
  obtain ⟨⟨takes, c₃⟩, h₃, h⟩ := ok_of_bind h
  obtain ⟨⟨returns, c₄⟩, h₄, h⟩ := ok_of_bind h
  obtain ⟨⟨body, bodyPos, c₅⟩, h₅, h⟩ := ok_of_bind h
  cases h
  have hpeek := peek?_of_expect h₂ (y := '(') (by decide) (by decide)
  have hbefore₁ := before_of_skipParamCount h₁
  have hbefore₂ := (ahead_of_expect h₂).before
  have hbefore₃ := (ahead_of_readCount h₃).before
  have hbefore₄ := (ahead_of_readCount h₄).before
  obtain ⟨hb₄, hembed₅, hwithin⟩ := readBody_embed k post h₅
  -- the brace behind the body is still to come at every place before it
  have hb₃ := hbefore₄.braced hb₄
  have hb₂ := hbefore₃.braced hb₃
  have hb₁ := hbefore₂.braced hb₂
  have hb := hbefore₁.braced hb₁
  refine ⟨hb, ?_, ?_⟩
  · unfold readDefn
    simp only [bind, Except.bind, skipParamCount_embed k post hb h₁ hpeek, expect_embed k post (by decide) hb₁ h₂,
      readCount_embed k post (by decide) hb₂ h₃, readCount_embed k post (by decide) hb₃ h₄, hembed₅]
    rfl
  · rw [← (hbefore₁.trans (hbefore₂.trans (hbefore₃.trans hbefore₄))).total]
    exact hwithin

lemma readDecl_embed {kind : DeclKind} (h : readDecl kind c = .ok (item, c')) :
    c.Braced ∧ readDecl kind (c.embed k post) = .ok (item.shift k, c'.embed k post) ∧ item.Within c.total := by
  obtain ⟨⟨name, c₁⟩, h₁, h⟩ := ok_of_bind h
  have hbefore := (ahead_of_readName h₁).before
  unfold readDecl
  cases kind with
  | defn =>
    obtain ⟨hb₁, hembed₂, hwithin⟩ := readDefn_embed k post h
    have hb := hbefore.braced hb₁
    refine ⟨hb, ?_, hbefore.total ▸ hwithin⟩
    simp only [bind, Except.bind, readName_embed k post hb h₁, hembed₂]
  | jumpTable | packedJumpTable | codeTable =>
    obtain ⟨⟨body, bodyPos, c₂⟩, h₂, h⟩ := ok_of_bind h
    cases h
    obtain ⟨hb₁, hembed₂, -⟩ := readBody_embed k post h₂
    have hb := hbefore.braced hb₁
    refine ⟨hb, ?_, trivial⟩
    simp only [bind, Except.bind, readName_embed k post hb h₁, hembed₂]
    rfl

/-- **An item in a longer text.** Only behind a parameter list may the text end without a brace. -/
theorem read_embed {here : Origin} {pending : Bool} (h : read here pending c = .ok (item, c')) :
    item.Within c.total ∧ ((∀ names, item ≠ .params names) → c.Braced) ∧
      (c.Braced → read here pending (c.embed k post) = .ok (item.shift k, c'.embed k post)) := by
  unfold read at h
  split at h
  · cases h
  · next hinclude =>
    have hembed : c.Braced → ((c.embed k post).keyword? "#include".toList).isSome ≠ true := fun hb => by
      rw [keyword?_embed k (hb.stops (by decide) post), Option.isSome_map]
      exact hinclude
    split at h
    · cases h
    · next c₁ hhead =>
      split at h
      · cases h
      · next hpending =>
        obtain ⟨⟨names, rfl⟩, hread⟩ := readParams_embed k post h
        refine ⟨trivial, fun hne => absurd rfl (hne names), fun hb => ?_⟩
        unfold read
        rw [if_neg (hembed hb), head?_embed k post hb, hhead]
        simp only [Option.map_some, hpending]
        exact hread
    · next kind c₁ hhead =>
      split at h
      · cases h
      · next hpending =>
        obtain ⟨hb₁, hread, hwithin⟩ := readDecl_embed k post h
        have hfirst := before_of_head? hhead
        refine ⟨hfirst.total ▸ hwithin, fun _ => hfirst.braced hb₁, fun hb => ?_⟩
        unfold read
        rw [if_neg (hembed hb), head?_embed k post hb, hhead]
        simp only [Option.map_some, hpending]
        exact hread

end Readers

end Item
end MacroAsm
