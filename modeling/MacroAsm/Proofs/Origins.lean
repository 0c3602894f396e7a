import MacroAsm.Proofs.Concatenation
import MacroAsm.Source.Include

/-!
# The line of every byte

Two parts of the assembler lead a place back to its line. The files are joined, and a byte of the joined text is looked
up among the lines of all of them; the directives in front of a file are found while it is still alone, and its text is
cut at the place. Both give the line that the place stands in.

* `Text.LineIs t n line`: line `n` of a text; `Origin.Locates o f before`: what is right for the place behind `before`;
* `Origin.locates_between`: a text cut at a place tells its line;
* `Lines.lastUpTo_ofLines`: so does the search among the lines of one file;
* `Sources.originAt_locates`: every byte of joined files is led back to its file and line.
-/

namespace MacroAsm

/-- Line `n` of a text, counted from one, is `line`: whole lines stand above it, and it goes up to the next newline or
to the end. -/
def Text.LineIs (t : Text) (n : Nat) (line : Text) : Prop :=
  ∃ above below, t = above ++ (line ++ below) ∧ '\n' ∉ line ∧ n = 1 + above.count '\n' ∧
    (∀ c ∈ above.getLast?, c = '\n') ∧ ∀ c ∈ below.head?, c = '\n'

/-- The origin of the place behind `before` in a file: the file, one more than the newlines before the place, and the
line of that number without the carriage returns at its end. -/
structure Origin.Locates (o : Origin) (f : SourceFile) (before : Text) : Prop where
  file : o.file = String.ofList f.name
  line : o.line = 1 + before.count '\n'
  text : ∃ returns, f.text.LineIs o.line (o.text.toList ++ returns) ∧ (∀ c ∈ returns, c = '\r') ∧
    o.text.toList.getLast? ≠ some '\r'

namespace Text

/-! ## lines of a text -/

/-- What a text ends with behind its last newline. -/
def lastLine (t : Text) : Text := (t.reverse.takeWhile (· != '\n')).reverse

/-- What a text begins with in front of its first newline. -/
def firstLine (t : Text) : Text := t.takeWhile (· != '\n')

lemma ne_newline_of_mem_takeWhile {t : Text} {c : Char} (h : c ∈ t.takeWhile (· != '\n')) : c ≠ '\n' := by
  simpa using List.mem_takeWhile_imp h

/-- Whole lines stand above the last one. -/
lemma exists_eq_append_lastLine (t : Text) :
    ∃ above, t = above ++ lastLine t ∧ ∀ c ∈ above.getLast?, c = '\n' := by
  refine ⟨(t.reverse.dropWhile (· != '\n')).reverse, ?_, fun c hc => ?_⟩
  · rw [lastLine, ← List.reverse_append, List.takeWhile_append_dropWhile, List.reverse_reverse]
  · have hnot := List.head?_dropWhile_not (· != '\n') t.reverse
    rw [List.getLast?_reverse, Option.mem_def] at hc
    rw [hc] at hnot
    simpa using hnot

/-- The first line goes up to a newline or to the end. -/
lemma exists_eq_firstLine_append (t : Text) : ∃ below, t = firstLine t ++ below ∧ ∀ c ∈ below.head?, c = '\n' := by
  refine ⟨t.dropWhile (· != '\n'), List.takeWhile_append_dropWhile.symm, fun c hc => ?_⟩
  have hnot := List.head?_dropWhile_not (· != '\n') t
  rw [Option.mem_def.1 hc] at hnot
  simpa using hnot

/-- The line around a place is the last one before it and the first one behind it. -/
lemma lineIs_append (before rest : Text) :
    LineIs (before ++ rest) (1 + before.count '\n') (lastLine before ++ firstLine rest) := by
  obtain ⟨above, habove, hend⟩ := exists_eq_append_lastLine before
  obtain ⟨below, hbelow, hstart⟩ := exists_eq_firstLine_append rest
  have hlast : '\n' ∉ lastLine before := fun hmem =>
    ne_newline_of_mem_takeWhile (List.mem_reverse.1 hmem) rfl
  have hfirst : '\n' ∉ firstLine rest := fun hmem => ne_newline_of_mem_takeWhile hmem rfl
  refine ⟨above, below, ?_, ?_, ?_, hend, hstart⟩
  · conv_lhs => rw [habove, hbelow]
    simp only [List.append_assoc]
  · rw [List.mem_append]
    exact not_or.2 ⟨hlast, hfirst⟩
  · conv_lhs => rw [habove]
    rw [List.count_append, List.count_eq_zero_of_not_mem hlast, Nat.add_zero]

lemma lastLine_of_not_mem {t : Text} (h : '\n' ∉ t) : lastLine t = t := by
  have hall : ∀ c ∈ t.reverse, (c != '\n') = true := fun c hc => by
    rw [bne_iff_ne]
    rintro rfl
    exact h (List.mem_reverse.1 hc)
  rw [lastLine, List.takeWhile_eq_self_iff.2 hall, List.reverse_reverse]

lemma lastLine_append_newline (u v : Text) : lastLine (u ++ '\n' :: v) = lastLine v := by
  rw [lastLine, List.reverse_append, List.reverse_cons, List.append_assoc, List.takeWhile_append]
  split
  · next hall =>
    have hself : v.reverse.takeWhile (· != '\n') = v.reverse := (List.takeWhile_prefix _).eq_of_length hall
    simp [lastLine, hself]
  · rfl

/-- What is cut first from a text is its first line. -/
lemma exists_splitWhere_newline (t : Text) : ∃ lines, splitWhere (· == '\n') t = firstLine t :: lines := by
  induction t with
  | nil => exact ⟨[], rfl⟩
  | cons c t ih =>
    obtain ⟨lines, hlines⟩ := ih
    rw [splitWhere, firstLine, List.takeWhile_cons]
    by_cases hc : c = '\n'
    · exact ⟨splitWhere (· == '\n') t, by simp [hc]⟩
    · exact ⟨lines, by simp [hc, hlines, consFirst, firstLine]⟩

lemma splitWhere_newline_append {u t line : Text} {lines : List Text} (hu : '\n' ∉ u)
    (ht : splitWhere (· == '\n') t = line :: lines) : splitWhere (· == '\n') (u ++ t) = (u ++ line) :: lines := by
  have hnone : ∀ c ∈ u, (c == '\n') = false := fun c hc => by
    rw [beq_eq_false_iff_ne]
    rintro rfl
    exact hu hc
  obtain ⟨piece, pieces, hsplit, happend⟩ := splitWhere_append hnone t
  obtain ⟨rfl, rfl⟩ := List.cons.inj (hsplit.symm.trans ht)
  exact happend

/-- The character in which a byte of a text lies. -/
lemma exists_char_of_lt {t : Text} (k : Nat) (h : k < byteLength t) :
    ∃ before x rest, t = before ++ x :: rest ∧ byteLength before ≤ k ∧ k < byteLength before + x.utf8Size := by
  induction t generalizing k with
  | nil => cases h
  | cons c t ih =>
    by_cases hk : k < c.utf8Size
    · exact ⟨[], c, t, rfl, Nat.zero_le k, by simpa using hk⟩
    · rw [byteLength_cons] at h
      obtain ⟨before, x, rest, rfl, hlow, hhigh⟩ := ih (k - c.utf8Size) (by omega)
      refine ⟨c :: before, x, rest, rfl, ?_, ?_⟩ <;> rw [byteLength_cons] <;> omega

end Text

namespace Origin

/-- Carriage returns, and nothing else, are taken off the end of a line. -/
lemma exists_eq_trimReturns_append (t : Text) :
    ∃ returns, t = trimReturns t ++ returns ∧ (∀ c ∈ returns, c = '\r') ∧ (trimReturns t).getLast? ≠ some '\r' := by
  refine ⟨(t.reverse.takeWhile (· == '\r')).reverse, ?_, fun c hc => ?_, fun hlast => ?_⟩
  · rw [trimReturns, ← List.reverse_append, List.takeWhile_append_dropWhile, List.reverse_reverse]
  · simpa using List.mem_takeWhile_imp (List.mem_reverse.1 hc)
  · have hnot := List.head?_dropWhile_not (· == '\r') t.reverse
    rw [trimReturns, List.getLast?_reverse] at hlast
    rw [hlast] at hnot
    simp at hnot

/-- **A text cut at a place tells its line.** -/
theorem locates_between (f : SourceFile) {before rest : Text} (h : f.text = before ++ rest) :
    (between f.name before rest).Locates f before where
  file := rfl
  line := Nat.add_comm ..
  text := by
    obtain ⟨returns, hline, hreturns, hlast⟩ :=
      exists_eq_trimReturns_append (Text.lastLine before ++ Text.firstLine rest)
    have htext : (between f.name before rest).text.toList =
        trimReturns (Text.lastLine before ++ Text.firstLine rest) := String.toList_ofList
    have hnumber : (between f.name before rest).line = 1 + before.count '\n' := Nat.add_comm ..
    refine ⟨returns, ?_, hreturns, ?_⟩
    · rw [htext, ← hline, hnumber, h]
      exact Text.lineIs_append before rest
    · rw [htext]
      exact hlast

end Origin

/-! ## the search among the lines of a file -/

namespace Lines

/-- A line that starts later is not looked at. -/
lemma lastUpTo_of_lt {file : String} {n start number : Nat} (hn : n < start) (best : Origin) (lines : List Text) :
    lastUpTo n best (Origin.ofLines file start number lines) = best := by
  cases lines with
  | nil => rfl
  | cons line lines => exact if_pos hn

/-- **The search comes to the line of the place** behind `before`, if byte `n` lies in the character that follows, or
behind the whole text. -/
theorem lastUpTo_ofLines (file : String) {n : Nat} (start number : Nat) (best : Origin) (before : Text) {rest : Text}
    (hlow : start + Text.byteLength before ≤ n)
    (hhigh : ∀ x ∈ rest.head?, n < start + Text.byteLength before + x.utf8Size) :
    lastUpTo n best (Origin.ofLines file start number (Text.splitWhere (· == '\n') (before ++ rest))) =
      ⟨file, number + before.count '\n',
        String.ofList (Origin.trimReturns (Text.lastLine before ++ Text.firstLine rest))⟩ := by
  have hstart : ¬ n < start := by omega
  -- on the newlines before the place: each of them ends a line that is passed by
  induction hcount : before.count '\n' generalizing start number best before with
  | zero =>
    have hnone : '\n' ∉ before := List.count_eq_zero.1 hcount
    obtain ⟨lines, hlines⟩ := Text.exists_splitWhere_newline rest
    have hbehind : ∀ o, lastUpTo n o (Origin.ofLines file
        (start + Text.byteLength (before ++ Text.firstLine rest) + 1) (number + 1) lines) = o := by
      intro o
      cases rest with
      | nil =>
        obtain ⟨-, rfl⟩ := List.cons.inj hlines
        rfl
      | cons x rest =>
        have hx := hhigh x rfl
        refine lastUpTo_of_lt ?_ o lines
        rw [Text.byteLength_append]
        by_cases hnewline : x = '\n'
        · subst hnewline
          have hsize : '\n'.utf8Size = 1 := rfl
          omega
        · have hfirst : Text.firstLine (x :: rest) = x :: Text.firstLine rest := by simp [Text.firstLine, hnewline]
          rw [hfirst, Text.byteLength_cons]
          omega
    rw [Text.splitWhere_newline_append hnone hlines, Origin.ofLines, lastUpTo, if_neg hstart, hbehind,
      Text.lastLine_of_not_mem hnone, Nat.add_zero]
  | succ k ih =>
    have hmem : '\n' ∈ before := List.count_pos_iff.1 (by omega)
    obtain ⟨u, v, rfl, hu⟩ := List.eq_append_cons_of_mem hmem
    have hlines : Text.splitWhere (· == '\n') ('\n' :: (v ++ rest)) = [] :: Text.splitWhere (· == '\n') (v ++ rest) :=
      rfl
    have hsize : '\n'.utf8Size = 1 := rfl
    rw [List.count_append, List.count_eq_zero_of_not_mem hu, List.count_cons_self] at hcount
    rw [Text.byteLength_append, Text.byteLength_cons, hsize] at hlow hhigh
    have hv := ih (start + Text.byteLength u + 1) (number + 1) ⟨file, number, String.ofList (Origin.trimReturns u)⟩ v
      (by omega) (fun x hx => by have := hhigh x hx; omega) (by omega) (by omega)
    rw [List.append_assoc, List.cons_append, Text.splitWhere_newline_append hu hlines, List.append_nil, Origin.ofLines,
      lastUpTo, if_neg hstart, hv, Text.lastLine_append_newline, Nat.add_assoc, Nat.add_comm 1 k]

end Lines

/-! ## joined files -/

namespace Sources

/-- Byte `n` of a single file, in the character behind `before` or behind the whole text. -/
lemma originAt_singleton (f : SourceFile) {n : Nat} {before rest : Text} (htext : f.text = before ++ rest)
    (hlow : Text.byteLength before ≤ n) (hhigh : ∀ x ∈ rest.head?, n < Text.byteLength before + x.utf8Size) :
    (lines [f]).originAt n = Origin.between f.name before rest := by
  have hstarts : (lines [f]).starts = f.lines 0 := List.append_nil _
  rw [Lines.originAt, hstarts, SourceFile.lines, htext]
  split
  · next hempty =>
    obtain ⟨rfl, rfl⟩ := List.append_eq_nil_iff.1 (List.isEmpty_iff.1 hempty)
    rfl
  · rw [Lines.lastUpTo_ofLines _ 0 1 _ before (by rwa [Nat.zero_add]) (by simpa only [Nat.zero_add] using hhigh),
      Nat.add_comm 1]
    rfl

/-- A byte of one of several files is looked up as if the file were alone. -/
lemma originAt_getElem? {files : Sources} {i : Nat} {f : SourceFile} (hf : files[i]? = some f) {k : Nat}
    (hk : k < Text.byteLength f.text) :
    (lines files).originAt (Text.byteLength (text (files.take i)) + k) = (lines [f]).originAt k := by
  obtain ⟨hi, rfl⟩ := List.getElem?_eq_some_iff.1 hf
  have hcut : files.take i ++ ([files[i]] ++ files.drop (i + 1)) = files := by simp
  have halone : k < Text.byteLength (text [files[i]]) := by simpa [text] using hk
  have hlength : k < Text.byteLength (text ([files[i]] ++ files.drop (i + 1))) := by
    rw [text_append, Text.byteLength_append]
    omega
  have hright := originAt_append_right (files.take i) _ hlength
  rw [hcut, Nat.add_comm] at hright
  exact hright.trans (originAt_append_left [files[i]] (files.drop (i + 1)) halone)

end Sources

/-- **Every byte is led back to its file and line.** In joined files, empty ones among them, byte `k` of a file has the
origin of the character that it lies in: the name of the file, one more than the newlines before the character, and
the line of that number without the carriage returns at its end. And at every place between two characters of a single
file, the origin that a directive gets there is the one that the joined text gives. -/
theorem Sources.originAt_locates :
    (∀ (files : Sources) (i : Nat) (f : SourceFile) (k : Nat), files[i]? = some f → k < Text.byteLength f.text →
      ∃ before x rest, f.text = before ++ x :: rest ∧ Text.byteLength before ≤ k ∧
        k < Text.byteLength before + x.utf8Size ∧
        (files.lines.originAt (Text.byteLength (text (files.take i)) + k)).Locates f before) ∧
    ∀ file before rest : Text, Prepared.originOf file (before ++ rest) ⟨Text.byteLength before, rest⟩ =
      (lines [⟨file, before ++ rest⟩]).originAt (Text.byteLength before) := by
  constructor
  · intro files i f k hf hk
    obtain ⟨before, x, rest, htext, hlow, hhigh⟩ := Text.exists_char_of_lt k hk
    refine ⟨before, x, rest, htext, hlow, hhigh, ?_⟩
    rw [originAt_getElem? hf hk, originAt_singleton f htext hlow (by simpa using hhigh)]
    exact Origin.locates_between f htext
  · intro file before rest
    have htake : (before ++ rest).take ((before ++ rest).length - rest.length) = before := by
      rw [List.length_append, Nat.add_sub_cancel, List.take_left]
    rw [originAt_singleton ⟨file, before ++ rest⟩ rfl (Nat.le_refl _), Prepared.originOf, htake]
    intro x hx
    have := x.utf8Size_pos
    omega

namespace Sample

/-- A file, an empty one, and one with a character of four bytes in its second line. -/
def sheets : Sources :=
  [⟨"one".toList, "é\r\nx".toList⟩, ⟨"none".toList, []⟩, ⟨"two".toList, "a\r\n😀b\r\r\nc".toList⟩]

end Sample

/-- Byte 5 of the last file is one of the four, and byte 10 of all files; the line loses its two carriage returns. -/
theorem Sources.originAt_locates_sheets :
    ∃ before x rest, "a\r\n😀b\r\r\nc".toList = before ++ x :: rest ∧ Text.byteLength before ≤ 5 ∧
      5 < Text.byteLength before + x.utf8Size ∧
      (Sample.sheets.lines.originAt 10).Locates ⟨"two".toList, "a\r\n😀b\r\r\nc".toList⟩ before ∧
      Sample.sheets.lines.originAt 10 = ⟨"two", 2, "😀b"⟩ := by
  have hlength : Text.byteLength (Sources.text (Sample.sheets.take 2)) + 5 = 10 := by decide
  obtain ⟨before, x, rest, htext, hlow, hhigh, hlocates⟩ :=
    Sources.originAt_locates.1 Sample.sheets 2 _ 5 rfl (by decide)
  rw [hlength] at hlocates
  exact ⟨before, x, rest, htext, hlow, hhigh, hlocates, by decide⟩

end MacroAsm
