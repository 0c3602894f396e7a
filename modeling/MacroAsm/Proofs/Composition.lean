import MacroAsm.Proofs.Substitution

/-!
# Replacements one after the other

What is put in for a word stands between characters that belong to no word, or at an end of the text. So its words are
words of the result, none of them longer than before, and a second replacement finds them as it finds them alone.

* `Text.parted a b`: no word goes on from `a` into `b`;
* `Text.pieces_append_of_parted`, `Text.replaceWords_append_of_parted`: such texts are cut, and replaced in, one by one;
* `Text.pieces_replaceWords`: the words of a text with values put in;
* `Text.thenReplace f g`: what two replacements make of a word; `Text.replaceWords_thenReplace`: and of a text.
-/

namespace MacroAsm

namespace Text

/-! ## texts side by side -/

/-- No word goes on from the first text into the second. -/
def parted (a b : Text) : Bool := !(a.getLast?.any isWordChar && b.head?.any isWordChar)

lemma parted_of_breaks {b : Text} (hb : b.breaks = true) (a : Text) : parted a b = true := by
  have hnone : b.head?.any isWordChar = false := by simpa [breaks] using hb
  rw [parted, hnone, Bool.and_false, Bool.not_false]

lemma parted_cons_cons {c d : Char} {a b : Text} : parted (c :: d :: a) b = parted (d :: a) b := by
  rw [parted, parted, List.getLast?_cons_cons]

lemma pieces_ne_nil (c : Char) (t : Text) : pieces (c :: t) ≠ [] := by
  rw [pieces]
  split
  · split <;> exact List.cons_ne_nil _ _
  · exact List.cons_ne_nil _ _

/-- **Texts between which no word goes on are cut one by one.** -/
theorem pieces_append_of_parted {a b : Text} (h : parted a b = true) : pieces (a ++ b) = pieces a ++ pieces b := by
  induction a with
  | nil => rfl
  | cons c a ih =>
    cases hc : isWordChar c with
    | false =>
      have hrest : pieces (a ++ b) = pieces a ++ pieces b := by
        cases a with
        | nil => rfl
        | cons d a => exact ih (parted_cons_cons.symm.trans h)
      simp [pieces, hc, hrest]
    | true =>
      cases a with
      | nil =>
        -- the word ends here, so the second text begins with none
        have hb : b.breaks = true := by simpa [parted, hc, breaks] using h
        have hword : pieces [c] = [.word [c]] := by simp [pieces, hc]
        rw [hword]
        exact pieces_append (w := [c]) (by simp [isWord, hc]) hb
      | cons d a =>
        obtain ⟨p, ps, hp⟩ := List.exists_cons_of_ne_nil (pieces_ne_nil d a)
        have hrest : pieces (d :: a ++ b) = p :: (ps ++ pieces b) := by
          rw [ih (parted_cons_cons.symm.trans h), hp, List.cons_append]
        rw [List.cons_append, pieces, if_pos hc, hrest, pieces, if_pos hc, hp]
        cases p <;> rfl

lemma replaceWords_append_of_parted {a b : Text} (h : parted a b = true) (f : Text → Option Text) :
    replaceWords f (a ++ b) = replaceWords f a ++ replaceWords f b := by
  rw [replaceWords, pieces_append_of_parted h, List.flatMap_append]
  rfl

/-! ## values between other text -/

section Values

variable {f : Text → Option Text}

/-- A text that begins with no word does not begin with one when values are put in. -/
lemma breaks_replaceWords {r : Text} (hr : r.breaks = true) : (replaceWords f r).breaks = true := by
  cases r with
  | nil => rfl
  | cons c r =>
    have hc : isWordChar c = false := breaks_iff.1 hr c rfl
    rw [replaceWords_cons hc, breaks_cons, hc]
    rfl

/-- **Values are not merged with what stands next to them**: the words and the other characters of a text with values
put in are those of the values, in their places. -/
theorem pieces_replaceWords (t : Text) :
    pieces (replaceWords f t) = (pieces t).flatMap fun p => pieces (p.replace f) := by
  induction t using word_induction with
  | nil => rfl
  | other c t hc ih =>
    rw [replaceWords_cons hc]
    simp [pieces, hc, ih, Piece.replace]
  | word w r hw hr ih =>
    rw [replaceWords_append hw hr, pieces_append_of_parted (parted_of_breaks (breaks_replaceWords hr) _), ih,
      pieces_append hw hr, List.flatMap_cons]
    rfl

/-- A value is put in as it is, whatever it spells. -/
lemma replaceWords_of_value {a w b v : Text} (hw : w.isWord = true) (ha : parted a w = true) (hb : b.breaks = true)
    (hv : f w = some v) : replaceWords f (a ++ (w ++ b)) = replaceWords f a ++ (v ++ replaceWords f b) := by
  have hparted : parted a (w ++ b) = true := by
    obtain ⟨x, u, rfl, -⟩ := exists_cons_of_isWord hw
    exact ha
  rw [replaceWords_append_of_parted hparted, replaceWords_append hw hb, hv, Option.getD_some]

end Values

/-! ## two replacements -/

/-- What two replacements make of a word: the second goes through the value that the first puts in. -/
def thenReplace (f g : Text → Option Text) (w : Text) : Option Text := ((f w).map (replaceWords g)).or (g w)

variable (f g : Text → Option Text)

lemma thenReplace_getD {w : Text} (hw : w.isWord = true) :
    (thenReplace f g w).getD w = replaceWords g ((f w).getD w) := by
  unfold thenReplace
  cases f w with
  | none => exact (replaceWords_of_isWord hw).symm
  | some v => rfl

theorem replaceWords_thenReplace (t : Text) : replaceWords (thenReplace f g) t = replaceWords g (replaceWords f t) := by
  induction t using word_induction with
  | nil => rfl
  | other c t hc ih => rw [replaceWords_cons hc, replaceWords_cons hc, replaceWords_cons hc, ih]
  | word w r hw hr ih =>
    have hparted := parted_of_breaks (breaks_replaceWords (f := f) hr) ((f w).getD w)
    rw [replaceWords_append hw hr, replaceWords_append hw hr, replaceWords_append_of_parted hparted,
      thenReplace_getD f g hw, ih]

/-- **Replacement composes.** Two replacements, one after the other, are one: a word with a value becomes the value with
the second replacement made in it, and any other word becomes what the second makes of it. For no value is merged with
the words next to it, and none is looked at again in the same pass, even if it spells another word that has a value. -/
theorem replaceWords_composes (t : Text) :
    replaceWords g (replaceWords f t) = replaceWords (thenReplace f g) t ∧
    pieces (replaceWords f t) = (pieces t).flatMap (fun p => pieces (p.replace f)) ∧
    ∀ a w b v, t = a ++ (w ++ b) → w.isWord = true → parted a w = true → parted w b = true → f w = some v →
      replaceWords f t = replaceWords f a ++ (v ++ replaceWords f b) := by
  refine ⟨(replaceWords_thenReplace f g t).symm, pieces_replaceWords t, ?_⟩
  rintro a w b v rfl hw ha hb hv
  have hbreaks : b.breaks = true := by
    obtain ⟨hne, hall⟩ := isWord_iff.1 hw
    have hlast : w.getLast?.any isWordChar = true := by
      rw [List.getLast?_eq_some_getLast hne]
      exact hall _ (List.getLast_mem hne)
    rwa [parted, hlast, Bool.true_and] at hb
  exact replaceWords_of_value hw ha hbreaks hv

end Text

namespace Sample

/-- `a` and `b` change places, and `e` goes. -/
def exchange : Bindings := ⟨["a".toList, "b".toList, "e".toList], ["b".toList, "a".toList, []]⟩

/-- `b` becomes two words, and `ab` one. -/
def spread : Bindings := ⟨["b".toList, "ab".toList], ["x<b y".toList, "z".toList]⟩

/-- Words next to each other and to a character of two bytes. -/
def exchanged : Text := "a+bé<e ab>b".toList

end Sample

/-- The `b` that is put in for `a` stays, though `b` has a value; and what is left of `e` joins nothing. -/
theorem Text.replaceWords_composes_exchange :
    Sample.exchange.lookup "a".toList = some "b".toList ∧ Sample.exchange.lookup "b".toList = some "a".toList ∧
      Sample.exchange.substitute Sample.exchanged = "b+aé< ab>a".toList ∧
      Sample.exchange.substitute Sample.exchanged = 'b' :: Sample.exchange.substitute "+bé<e ab>b".toList ∧
      Text.replaceWords (Text.thenReplace Sample.exchange.lookup Sample.spread.lookup) Sample.exchanged =
        "x<b y+aé< z>a".toList := by
  obtain ⟨hcompose, -, hvalue⟩ :=
    Text.replaceWords_composes Sample.exchange.lookup Sample.spread.lookup Sample.exchanged
  have ha : Sample.exchange.lookup "a".toList = some "b".toList := by decide
  refine ⟨ha, by decide, by decide, ?_, hcompose.symm.trans (by decide)⟩
  exact hvalue [] "a".toList "+bé<e ab>b".toList "b".toList rfl rfl rfl rfl ha

end MacroAsm
