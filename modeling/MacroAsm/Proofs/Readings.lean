import MacroAsm.Proofs.Brackets
import MacroAsm.Text.Hex

/-!
# What the readings of a cursor find

Each reading of a cursor succeeds exactly where the text to come is of its form, and then stands behind it.

* `Text.breaks r`: no word goes on in `r`;
* `Cursor.takeWhile_append`: characters of one class, up to one that is not;
* `Cursor.word?_eq_some_iff`, `Cursor.keyword?_eq_some_iff`, `Cursor.balanced?_eq_some_iff`,
  `Cursor.eat?_eq_some_iff`, `Cursor.eatText?_eq_some_iff`: when the readings succeed, and with what.
-/

namespace MacroAsm

/-! ## classes of characters -/

lemma isDigit_iff {c : Char} : c.isDigit = true ↔ 48 ≤ c.toNat ∧ c.toNat ≤ 57 := by
  simp [Char.isDigit, UInt32.le_iff_toNat_le]

lemma isAlpha_iff {c : Char} : c.isAlpha = true ↔ 65 ≤ c.toNat ∧ c.toNat ≤ 90 ∨ 97 ≤ c.toNat ∧ c.toNat ≤ 122 := by
  have hupper : c.isUpper = decide (65 ≤ c.val ∧ c.val ≤ 90) := rfl
  have hlower : c.isLower = (decide (97 ≤ c.val) && decide (c.val ≤ 122)) := rfl
  have halpha : c.isAlpha = (c.isUpper || c.isLower) := rfl
  rw [halpha, hupper, hlower]
  simp [UInt32.le_iff_toNat_le]

lemma isWordChar_iff {c : Char} : isWordChar c = true ↔ c.isAlpha = true ∨ c.isDigit = true ∨ c = '_' := by
  simp [isWordChar, Char.isAlphanum, or_assoc]

lemma toNat_of_isWordChar {c : Char} (h : isWordChar c = true) : 48 ≤ c.toNat ∧ c.toNat ≤ 122 := by
  rcases isWordChar_iff.1 h with h | h | rfl
  · have := isAlpha_iff.1 h
    omega
  · have := isDigit_iff.1 h
    omega
  · decide

lemma isWordChar_of_isHexDigit {c : Char} (h : isHexDigit c = true) : isWordChar c = true := by
  unfold isHexDigit hexValue? at h
  rw [isWordChar_iff, isAlpha_iff]
  split at h
  · next hdigit => exact Or.inr (Or.inl hdigit)
  · split at h
    · next hlower =>
      have hlow : 97 ≤ c.toNat := hlower.1
      have hhigh : c.toNat ≤ 102 := hlower.2
      omega
    · split at h
      · next hupper =>
        have hlow : 65 ≤ c.toNat := hupper.1
        have hhigh : c.toNat ≤ 70 := hupper.2
        omega
      · cases h

lemma isBlank_of_isWordChar {c : Char} (h : isWordChar c = true) : isBlank c = false := by
  have := toNat_of_isWordChar h
  unfold isBlank
  simp only [Bool.or_eq_false_iff, Bool.and_eq_false_iff, decide_eq_false_iff_not, beq_eq_false_iff_ne]
  omega

namespace Text

lemma isWord_iff {w : Text} : w.isWord = true ↔ w ≠ [] ∧ ∀ c ∈ w, isWordChar c = true := by
  simp [isWord]

lemma isWordChar_of_mem {w : Text} (h : w.isWord = true) {c : Char} (hc : c ∈ w) : isWordChar c = true :=
  (isWord_iff.1 h).2 c hc

/-- A character that stands in no word stands in none. -/
lemma ne_of_mem_isWord {w : Text} (h : w.isWord = true) {c x : Char} (hc : c ∈ w) (hx : isWordChar x = false) :
    c ≠ x := by
  rintro rfl
  rw [isWordChar_of_mem h hc] at hx
  cases hx

/-- No word goes on: nothing comes, or first a character that stands in no word. -/
def breaks (r : Text) : Bool := !r.head?.any isWordChar

lemma breaks_cons {c : Char} {r : Text} : breaks (c :: r) = !isWordChar c := rfl

lemma breaks_iff {r : Text} : r.breaks = true ↔ ∀ c ∈ r.head?, isWordChar c = false := by
  cases r with
  | nil => simp [breaks]
  | cons c r => simp [breaks]

/-- Characters of a class up to the first that is not of it. -/
lemma takeWhile_append_of_head {p : Char → Bool} {w r : Text} (hw : ∀ c ∈ w, p c = true)
    (hr : ∀ c ∈ r.head?, p c = false) : (w ++ r).takeWhile p = w ∧ (w ++ r).dropWhile p = r := by
  rw [List.takeWhile_append_of_pos hw, List.dropWhile_append_of_pos hw]
  cases r with
  | nil => simp
  | cons c r => simp [hr c (by simp)]

/-- Two words in front of one text, each of which ends there, are one. -/
lemma eq_of_append_breaks {w w' r r' : Text} (hw : w.isWord = true) (hw' : w'.isWord = true) (hr : r.breaks = true)
    (hr' : r'.breaks = true) (h : w ++ r = w' ++ r') : w = w' := by
  have h₁ := takeWhile_append_of_head (fun c => isWordChar_of_mem hw) (breaks_iff.1 hr)
  have h₂ := takeWhile_append_of_head (fun c => isWordChar_of_mem hw') (breaks_iff.1 hr')
  rw [← h₁.1, h, h₂.1]

end Text

namespace Cursor

variable {c c' : Cursor}

lemma takeWhile_append {p : Char → Bool} {w r : Text} (hw : ∀ x ∈ w, p x = true) (hr : ∀ x ∈ r.head?, p x = false)
    (h : c.rest = w ++ r) : c.takeWhile p = (w, c.behind w r) := by
  have := Text.takeWhile_append_of_head hw hr
  rw [takeWhile, h, this.1, this.2]

lemma skipBlanks_eq (h : ∀ x ∈ c.rest.head?, isBlank x = false) : c.skipBlanks = c := by
  rw [skipBlanks, takeWhile_append (w := []) (by simp) h rfl]
  simp [behind]

lemma rest_skipBlanks_of_cons {x : Char} {t : Text} (hx : isBlank x = true) (ht : ∀ y ∈ t.head?, isBlank y = false)
    (h : c.rest = x :: t) : c.skipBlanks.rest = t := by
  rw [skipBlanks, takeWhile_append (w := [x]) (List.forall_mem_singleton.2 hx) ht h]
  rfl

theorem word?_eq_some_iff {w : Text} :
    c.word? = some (w, c') ↔ w.isWord = true ∧ ∃ r, c.rest = w ++ r ∧ r.breaks = true ∧ c' = c.behind w r := by
  constructor
  · intro h
    unfold word? at h
    simp only at h
    split at h
    · cases h
    · next hne =>
      obtain ⟨rfl, rfl⟩ := Prod.mk.inj (Option.some.inj h)
      refine ⟨Text.isWord_iff.2 ⟨by simpa using hne, fun x hx => List.mem_takeWhile_imp hx⟩, _, ?_, ?_, rfl⟩
      · exact (List.takeWhile_append_dropWhile ..).symm
      · rw [Text.breaks_iff]
        intro x hx
        have := List.head?_dropWhile_not isWordChar c.rest
        rw [Option.mem_def.1 hx] at this
        simpa using this
  · rintro ⟨hw, r, hrest, hr, rfl⟩
    have hread := takeWhile_append (fun x => Text.isWordChar_of_mem hw) (Text.breaks_iff.1 hr) hrest
    unfold word?
    simp [hread, (Text.isWord_iff.1 hw).1]

theorem eatText?_eq_some_iff {s : Text} :
    c.eatText? s = some c' ↔ ∃ r, c.rest = s ++ r ∧ c' = c.behind s r := by
  unfold eatText?
  rw [Option.map_eq_some_iff]
  constructor
  · rintro ⟨r, hr, rfl⟩
    exact ⟨r, Text.eq_append_of_dropStart? hr, rfl⟩
  · rintro ⟨r, hr, rfl⟩
    exact ⟨r, by rw [hr, Text.dropStart?_append], rfl⟩

theorem keyword?_eq_some_iff {s : Text} :
    c.keyword? s = some c' ↔ ∃ r, c.rest = s ++ r ∧ r.breaks = true ∧ c' = c.behind s r := by
  unfold keyword?
  rw [Option.filter_eq_some_iff, eatText?_eq_some_iff]
  constructor
  · rintro ⟨⟨r, hr, rfl⟩, hbreak⟩
    exact ⟨r, hr, hbreak, rfl⟩
  · rintro ⟨r, hr, hbreak, rfl⟩
    exact ⟨⟨r, hr, rfl⟩, hbreak⟩

lemma keyword?_of_dropStart? {s : Text} (h : Text.dropStart? s c.rest = none) : c.keyword? s = none := by
  rw [keyword?, eatText?, h]
  rfl

theorem eat?_eq_some_iff {x : Char} : c.eat? x = some c' ↔ ∃ r, c.rest = x :: r ∧ c' = c.behind [x] r := by
  unfold eat?
  cases c.rest with
  | nil => simp
  | cons y t =>
    by_cases hxy : x = y
    · simp [hxy, eq_comm]
    · simp [hxy, Ne.symm hxy]

theorem balanced?_eq_some_iff {o x : Char} (ho : o ≠ x) {inner : Text} :
    c.balanced? o x = some (inner, c') ↔
      ∃ r, c.rest = o :: (inner ++ x :: r) ∧ Text.Balanced o x inner ∧ c' = c.behind (o :: inner ++ [x]) r := by
  unfold balanced?
  cases c.rest with
  | nil => simp
  | cons y t =>
    by_cases hy : y = o
    · simp only [hy, if_true, Option.map_eq_some_iff, Prod.exists, Text.closing_eq_some_iff ho, Prod.mk.injEq,
        List.cons.injEq, true_and]
      constructor
      · rintro ⟨i, r, ⟨rfl, hi⟩, rfl, rfl⟩
        exact ⟨r, rfl, hi, rfl⟩
      · rintro ⟨r, rfl, hi, rfl⟩
        exact ⟨inner, r, ⟨rfl, hi⟩, rfl, rfl⟩
    · simp [hy]

lemma balanced?_of_peek? {o x : Char} (h : c.peek? ≠ some o) : c.balanced? o x = none := by
  unfold balanced?
  split
  · rfl
  · next y t hrest =>
    have hne : y ≠ o := by
      rintro rfl
      simp [peek?, hrest] at h
    rw [if_neg hne]

/-! ## what a word is not -/

/-- A word is no other keyword. -/
lemma keyword?_of_word {w r s : Text} (hs : s.isWord = true) (hw : w.isWord = true) (hr : r.breaks = true)
    (h : c.rest = w ++ r) : c.keyword? s = none ↔ w ≠ s := by
  constructor
  · rintro hnone rfl
    rw [keyword?_eq_some_iff.2 ⟨r, h, hr, rfl⟩] at hnone
    cases hnone
  · intro hne
    rw [Option.eq_none_iff_forall_ne_some]
    intro c₁ hkey
    obtain ⟨r', hrest, hr', -⟩ := keyword?_eq_some_iff.1 hkey
    rw [h] at hrest
    exact hne (Text.eq_of_append_breaks hw hs hr hr' hrest)

/-- What does not begin with a character of a word is no word and no keyword. -/
lemma word?_of_breaks (h : c.rest.breaks = true) : c.word? = none := by
  rw [Option.eq_none_iff_forall_ne_some]
  rintro ⟨w, c₁⟩ hw
  obtain ⟨hword, r, hrest, -, -⟩ := word?_eq_some_iff.1 hw
  obtain ⟨hne, hall⟩ := Text.isWord_iff.1 hword
  cases w with
  | nil => exact hne rfl
  | cons x w =>
    rw [hrest, List.cons_append, Text.breaks_cons, hall x List.mem_cons_self] at h
    cases h

lemma eatText?_of_breaks {s : Text} (hs : s.isWord = true) (h : c.rest.breaks = true) : c.eatText? s = none := by
  rw [Option.eq_none_iff_forall_ne_some]
  intro c₁ hs'
  obtain ⟨r, hrest, -⟩ := eatText?_eq_some_iff.1 hs'
  obtain ⟨hne, hall⟩ := Text.isWord_iff.1 hs
  cases s with
  | nil => exact hne rfl
  | cons x s =>
    rw [hrest, List.cons_append, Text.breaks_cons, hall x List.mem_cons_self] at h
    cases h

end Cursor
end MacroAsm
