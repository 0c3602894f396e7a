import Mathlib.Logic.Relation
import MacroAsm.Proofs.Grammar
import MacroAsm.Proofs.LabelScope
import MacroAsm.Proofs.RoundTrip

/-!
# Values put in for parameters

Values are put into the arguments of a call as they are written, and only then the arguments are cut at commas. A text
is cut as before if every value is an argument itself: its brackets match, its commas stand inside brackets, and it has
no blanks at its ends.

* `Text.word_induction`: a text is made of words and of characters between them;
* `Text.Argument v`: what a parameter may stand for; `Text.enclosed` tests it;
* `Text.splitOutsideFrom_replaceWords`, `Text.trim_replaceWords`: what cuts a text cuts it with the values put in;
* `Text.splitArguments_replaceWords`: so do both together, through any number of calls.
-/

namespace MacroAsm

namespace Text

/-! ## words -/

/-- A word and a text that does not go on with it. -/
lemma pieces_append {w r : Text} (hw : w.isWord = true) (hr : r.breaks = true) :
    pieces (w ++ r) = .word w :: pieces r := by
  obtain ⟨hne, hall⟩ := isWord_iff.1 hw
  clear hw
  induction w with
  | nil => exact absurd rfl hne
  | cons c w ih =>
    have hc : isWordChar c = true := hall c List.mem_cons_self
    cases w with
    | cons d w =>
      have hrest := ih (List.cons_ne_nil d w) fun x hx => hall x (List.mem_cons_of_mem _ hx)
      rw [List.cons_append, pieces, if_pos hc, hrest]
    | nil =>
      cases r with
      | nil => simp [pieces, hc]
      | cons d r =>
        have hd : isWordChar d = false := breaks_iff.1 hr d rfl
        simp [pieces, hc, hd]

/-- A text is empty, or begins with a character that stands in no word, or with a word that does not go on. -/
theorem word_induction {P : Text → Prop} (nil : P []) (other : ∀ c t, isWordChar c = false → P t → P (c :: t))
    (word : ∀ w r : Text, w.isWord = true → r.breaks = true → P r → P (w ++ r)) (t : Text) : P t := by
  induction hn : t.length using Nat.strong_induction_on generalizing t with
  | _ n ih =>
    cases t with
    | nil => exact nil
    | cons c t =>
      cases hc : isWordChar c with
      | false => exact other c t hc (ih t.length (by simp [← hn]) t rfl)
      | true =>
        -- the longest word in front, and what is left behind it
        have hword : isWord ((c :: t).takeWhile isWordChar) = true :=
          isWord_iff.2 ⟨by simp [hc], fun x hx => List.mem_takeWhile_imp hx⟩
        have hbreaks : breaks ((c :: t).dropWhile isWordChar) = true := by
          have hnot := List.head?_dropWhile_not isWordChar (c :: t)
          refine breaks_iff.2 fun x hx => ?_
          rw [Option.mem_def.1 hx] at hnot
          simpa using hnot
        have hshort : ((c :: t).dropWhile isWordChar).length < n := by
          rw [List.dropWhile_cons_of_pos hc, ← hn, List.length_cons]
          exact Nat.lt_succ_of_le (List.dropWhile_sublist _).length_le
        rw [← List.takeWhile_append_dropWhile (p := isWordChar) (l := c :: t)]
        exact word _ _ hword hbreaks (ih _ hshort _ rfl)

section Replacement

variable {f : Text → Option Text}

lemma replaceWords_nil : replaceWords f [] = [] := rfl

lemma replaceWords_cons {c : Char} (hc : isWordChar c = false) (t : Text) :
    replaceWords f (c :: t) = c :: replaceWords f t := by
  simp [replaceWords, pieces, hc, Piece.replace]

lemma replaceWords_append {w r : Text} (hw : w.isWord = true) (hr : r.breaks = true) :
    replaceWords f (w ++ r) = (f w).getD w ++ replaceWords f r := by
  rw [replaceWords, pieces_append hw hr]
  rfl

lemma replaceWords_of_isWord {w : Text} (hw : w.isWord = true) : replaceWords f w = (f w).getD w := by
  rw [← List.append_nil w, replaceWords_append hw rfl, replaceWords_nil, List.append_nil, List.append_nil]

end Replacement

/-! ## arguments -/

/-- What a parameter may stand for: a text without blanks at its ends, not empty, whose brackets match and in which a
comma stands inside brackets only. -/
structure Argument (v : Text) : Prop where
  trimmed : trim v = v
  nonempty : v ≠ []
  balanced : Balanced '<' '>' v
  comma : ∀ a b, v = a ++ ',' :: b → a.count '>' < a.count '<'

/-- Read with `d` brackets open, a text closes them all, and no comma stands in it when none is open. -/
def enclosed : Nat → Text → Bool
  | d, [] => d == 0
  | d, c :: t =>
    if c = '<' then enclosed (d + 1) t
    else if c = '>' then (match d with | 0 => false | d + 1 => enclosed d t)
    else !(d == 0 && c == ',') && enclosed d t

lemma forall_split_cons {x c : Char} {t : Text} {P : Text → Prop} :
    (∀ a b, c :: t = a ++ x :: b → P a) ↔ (c = x → P []) ∧ ∀ a b, t = a ++ x :: b → P (c :: a) := by
  constructor
  · intro h
    refine ⟨fun hc => h [] t (by rw [hc]; rfl), fun a b ht => h (c :: a) b (by rw [ht]; rfl)⟩
  · rintro ⟨hfirst, hrest⟩ a b ht
    cases a with
    | nil =>
      obtain ⟨hc, -⟩ := List.cons.inj ht
      exact hfirst hc
    | cons d a =>
      obtain ⟨rfl, htail⟩ := List.cons.inj ht
      exact hrest a b htail

theorem enclosed_iff {d : Nat} {t : Text} :
    enclosed d t = true ↔ Closes '<' '>' d t ∧ ∀ a b, t = a ++ ',' :: b → a.count '>' < d + a.count '<' := by
  have hne : '<' ≠ '>' := by decide
  induction t generalizing d with
  | nil => simp [enclosed, closes_nil]
  | cons c t ih =>
    rw [forall_split_cons]
    unfold enclosed
    split
    · next hopen =>
      subst hopen
      refine ih.trans ?_
      rw [closes_open hne]
      simp [Nat.add_assoc, Nat.add_comm 1]
    · next hopen =>
      split
      · next hclose =>
        subst hclose
        cases d with
        | zero => simp [not_closes_close hne]
        | succ d =>
          rw [closes_close hne]
          simp [ih, Nat.add_right_comm d 1]
      · next hclose =>
        have hfree : (!(d == 0 && c == ',')) = true ↔ (c = ',' → 0 < d) := by
          by_cases hcomma : c = ',' <;> simp [hcomma, Nat.pos_iff_ne_zero]
        rw [closes_other hopen hclose, Bool.and_eq_true, hfree]
        simp only [ih, List.count_cons_of_ne hopen, List.count_cons_of_ne hclose, List.count_nil, Nat.add_zero]
        exact and_left_comm

theorem argument_iff {v : Text} : Argument v ↔ trim v = v ∧ v ≠ [] ∧ enclosed 0 v = true := by
  rw [enclosed_iff]
  simp only [Nat.zero_add]
  exact ⟨fun h => ⟨h.1, h.2, h.3, h.4⟩, fun h => ⟨h.1, h.2.1, h.2.2.1, h.2.2.2⟩⟩

instance (v : Text) : Decidable (Argument v) := decidable_of_iff _ argument_iff.symm

/-- A word is an argument. -/
lemma argument_of_isWord {w : Text} (hw : w.isWord = true) : Argument w := by
  refine argument_iff.2 ⟨(trimmed_of_isWord hw).1, (isWord_iff.1 hw).1, ?_⟩
  have hne : ∀ c ∈ w, ∀ x, isWordChar x = false → c ≠ x := fun c hc x hx => ne_of_mem_isWord hw hc hx
  clear hw
  induction w with
  | nil => rfl
  | cons c w ih =>
    have hc := hne c List.mem_cons_self
    have hrest := ih fun x hx => hne x (List.mem_cons_of_mem _ hx)
    simp [enclosed, hc '<' (by decide), hc '>' (by decide), hc ',' (by decide), hrest]

/-! ## brackets in an argument -/

lemma enclosed_other {d : Nat} {c : Char} {t : Text} (hopen : c ≠ '<') (hclose : c ≠ '>') :
    enclosed d (c :: t) = (!(d == 0 && c == ',') && enclosed d t) := by
  simp [enclosed, hopen, hclose]

section Enclosed

variable {e : Nat} {v : Text} (h : enclosed e v = true) (d : Nat) (r : Text)

include h

/-- What is enclosed is not cut, whatever brackets are open around it. -/
lemma splitOutsideFrom_append_of_enclosed :
    splitOutsideFrom ',' (d + e) (v ++ r) = v.foldr consFirst (splitOutsideFrom ',' d r) := by
  fun_induction enclosed e v with
  | case1 e =>
    rw [eq_of_beq h]
    rfl
  | case2 e v ih =>
    rw [List.cons_append, splitOutsideFrom_cons (Or.inr (by decide))]
    exact congrArg (consFirst '<') (ih h)
  | case3 => cases h
  | case4 v e _ ih =>
    rw [List.cons_append, splitOutsideFrom_cons (Or.inl (by omega))]
    exact congrArg (consFirst '>') (ih h)
  | case5 e c v hopen hclose ih =>
    obtain ⟨hfree, hrest⟩ := Bool.and_eq_true_iff.1 h
    have hdepth : depthAfter (d + e) c = d + e := by rw [depthAfter, if_neg hopen, if_neg hclose]
    have hkept : d + e ≠ 0 ∨ ',' ≠ c := by
      by_cases hcomma : c = ','
      · have he : e ≠ 0 := by simpa [hcomma] using hfree
        exact Or.inl (by omega)
      · exact Or.inr (Ne.symm hcomma)
    rw [List.cons_append, splitOutsideFrom_cons hkept, hdepth, ih hrest, List.foldr_cons]

lemma enclosed_append : enclosed (d + e) (v ++ r) = enclosed d r := by
  fun_induction enclosed e v with
  | case1 e =>
    rw [eq_of_beq h]
    rfl
  | case2 e v ih => exact ih h
  | case3 => cases h
  | case4 v e _ ih => exact ih h
  | case5 e c v hopen hclose ih =>
    obtain ⟨hfree, hrest⟩ := Bool.and_eq_true_iff.1 h
    have hkept : (!(d + e == 0 && c == ',')) = true := by
      by_cases hcomma : c = ','
      · have he : e ≠ 0 := by simpa [hcomma] using hfree
        simp [he]
      · simp [hcomma]
    rw [List.cons_append, enclosed_other hopen hclose, hkept, Bool.true_and, ih hrest]

end Enclosed

/-! ## blanks at the ends of an argument -/

lemma allBlank_append (a b : Text) : allBlank (a ++ b) = (allBlank a && allBlank b) := List.all_append

lemma trimEnd_append_blank {a b : Text} (hb : allBlank b = true) : trimEnd (a ++ b) = trimEnd a := by
  have hall : ∀ c ∈ b.reverse, isBlank c = true := fun c hc => List.all_eq_true.1 hb c (List.mem_reverse.1 hc)
  rw [trimEnd, List.reverse_append, List.dropWhile_append_of_pos hall]
  rfl

lemma trimEnd_append_of_not_blank {a b : Text} (hb : allBlank b = false) : trimEnd (a ++ b) = a ++ trimEnd b := by
  have hrest : b.reverse.dropWhile isBlank ≠ [] := by
    intro hnil
    rw [List.dropWhile_eq_nil_iff] at hnil
    have hall : allBlank b = true := List.all_eq_true.2 fun c hc => hnil c (List.mem_reverse.2 hc)
    rw [hb] at hall
    cases hall
  rw [trimEnd, List.reverse_append, List.dropWhile_append, if_neg (by simpa using hrest), List.reverse_append,
    List.reverse_reverse]
  rfl

/-- A trimmed text has no blank in front and none at its end. -/
lemma ends_of_trim_eq {v : Text} (h : trim v = v) : v.dropWhile isBlank = v ∧ trimEnd v = v := by
  have hfront : v.dropWhile isBlank = v := by
    refine (List.dropWhile_sublist _).eq_of_length_le ?_
    have hend : trim v <+: v.dropWhile isBlank := List.rdropWhile_prefix ..
    rw [h] at hend
    exact hend.length_le
  refine ⟨hfront, ?_⟩
  rw [trim, hfront] at h
  exact h

namespace Argument

variable {v : Text} (h : Argument v)

include h

lemma not_allBlank : allBlank v = false := (trimmed_iff.2 ⟨h.trimmed, h.nonempty⟩).2

lemma dropWhile_append (r : Text) : (v ++ r).dropWhile isBlank = v ++ r := by
  have hfront := (ends_of_trim_eq h.trimmed).1
  rw [List.dropWhile_append, hfront, if_neg (by simpa using h.nonempty)]

lemma trimEnd_append {r : Text} :
    trimEnd (v ++ r) = if allBlank r then v else v ++ trimEnd r := by
  cases hr : allBlank r with
  | true => rw [trimEnd_append_blank hr, (ends_of_trim_eq h.trimmed).2, if_pos rfl]
  | false => rw [trimEnd_append_of_not_blank hr, if_neg Bool.false_ne_true]

end Argument

/-! ## cutting with values put in -/

/-- The first piece of a text that goes on with no word goes on with none. -/
lemma exists_breaks_splitOutsideFrom (x : Char) (d : Nat) {r : Text} (hr : r.breaks = true) :
    ∃ p ps, splitOutsideFrom x d r = p :: ps ∧ p.breaks = true := by
  cases r with
  | nil => exact ⟨[], [], rfl, rfl⟩
  | cons c r =>
    rw [splitOutsideFrom]
    split
    · exact ⟨[], _, rfl, rfl⟩
    · obtain ⟨p, ps, hsplit⟩ := List.exists_cons_of_ne_nil (splitOutsideFrom_ne_nil x (depthAfter d c) r)
      rw [hsplit]
      exact ⟨c :: p, ps, rfl, hr⟩

lemma breaks_trimEnd {r : Text} (hr : r.breaks = true) : (trimEnd r).breaks = true := by
  have hleft : trimEnd r <+: r := List.rdropWhile_prefix ..
  cases h : trimEnd r with
  | nil => rfl
  | cons c u =>
    obtain ⟨u', hu⟩ := hleft
    rw [h] at hu
    rw [← hu] at hr
    exact hr

lemma foldr_consFirst (w p : Text) (ps : List Text) : w.foldr consFirst (p :: ps) = (w ++ p) :: ps := by
  induction w with
  | nil => rfl
  | cons c w ih => rw [List.foldr_cons, ih, consFirst, List.cons_append]

section Values

variable {f : Text → Option Text} (hf : ∀ w v, f w = some v → Argument v)

include hf

/-- What a word is replaced by is an argument, be it the word itself. -/
lemma argument_getD {w : Text} (hw : w.isWord = true) : Argument ((f w).getD w) := by
  cases hv : f w with
  | none => exact argument_of_isWord hw
  | some v => exact hf w v hv

lemma allBlank_replaceWords (t : Text) : allBlank (replaceWords f t) = allBlank t := by
  induction t using word_induction with
  | nil => rfl
  | other c t hc ih =>
    rw [replaceWords_cons hc]
    exact congrArg (isBlank c && ·) ih
  | word w r hw hr ih =>
    rw [replaceWords_append hw hr, allBlank_append, allBlank_append, (argument_getD hf hw).not_allBlank,
      (argument_of_isWord hw).not_allBlank, Bool.false_and, Bool.false_and]

lemma dropWhile_replaceWords (t : Text) :
    (replaceWords f t).dropWhile isBlank = replaceWords f (t.dropWhile isBlank) := by
  induction t using word_induction with
  | nil => rfl
  | other c t hc ih =>
    rw [replaceWords_cons hc, List.dropWhile_cons, List.dropWhile_cons]
    split
    · exact ih
    · rw [replaceWords_cons hc]
  | word w r hw hr _ =>
    rw [(argument_of_isWord hw).dropWhile_append, replaceWords_append hw hr, (argument_getD hf hw).dropWhile_append]

lemma trimEnd_replaceWords (t : Text) : trimEnd (replaceWords f t) = replaceWords f (trimEnd t) := by
  have hblank := allBlank_replaceWords hf
  induction t using word_induction with
  | nil => rfl
  | other c t hc ih =>
    rw [replaceWords_cons hc, ← List.singleton_append, ← List.singleton_append (l := t)]
    -- values are not blank, so the same blanks stand at both ends
    cases ht : allBlank t with
    | true =>
      rw [trimEnd_append_blank ht, trimEnd_append_blank ((hblank t).trans ht)]
      cases hb : isBlank c <;> simp [trimEnd, hb, replaceWords_nil, replaceWords_cons hc]
    | false =>
      rw [trimEnd_append_of_not_blank ht, trimEnd_append_of_not_blank ((hblank t).trans ht), ih,
        List.singleton_append, List.singleton_append, replaceWords_cons hc]
  | word w r hw hr ih =>
    rw [replaceWords_append hw hr, (argument_getD hf hw).trimEnd_append, (argument_of_isWord hw).trimEnd_append,
      hblank, apply_ite (replaceWords f), ih, replaceWords_append hw (breaks_trimEnd hr), replaceWords_of_isWord hw]

lemma trim_replaceWords (t : Text) : trim (replaceWords f t) = replaceWords f (trim t) := by
  rw [trim, trim, dropWhile_replaceWords hf, trimEnd_replaceWords hf]

/-- **A text is cut with the values put in as it is cut before.** -/
theorem splitOutsideFrom_replaceWords (d : Nat) (t : Text) :
    splitOutsideFrom ',' d (replaceWords f t) = (splitOutsideFrom ',' d t).map (replaceWords f) := by
  induction t using word_induction generalizing d with
  | nil => rfl
  | other c t hc ih =>
    rw [replaceWords_cons hc, splitOutsideFrom, splitOutsideFrom]
    split
    · rw [ih, List.map_cons, replaceWords_nil]
    · obtain ⟨p, ps, hsplit⟩ := List.exists_cons_of_ne_nil (splitOutsideFrom_ne_nil ',' (depthAfter d c) t)
      rw [ih, hsplit, List.map_cons, consFirst, consFirst, List.map_cons, replaceWords_cons hc]
  | word w r hw hr ih =>
    obtain ⟨p, ps, hsplit, hp⟩ := exists_breaks_splitOutsideFrom ',' d hr
    have hvalue := (argument_iff.1 (argument_getD hf hw)).2.2
    have hword := (argument_iff.1 (argument_of_isWord hw)).2.2
    rw [replaceWords_append hw hr]
    -- neither the word nor its value is cut; both stand in front of the first piece of the rest
    calc splitOutsideFrom ',' d ((f w).getD w ++ replaceWords f r)
        = ((f w).getD w).foldr consFirst (splitOutsideFrom ',' d (replaceWords f r)) :=
          splitOutsideFrom_append_of_enclosed hvalue d _
      _ = ((f w).getD w ++ replaceWords f p) :: ps.map (replaceWords f) := by
          rw [ih, hsplit, List.map_cons, foldr_consFirst]
      _ = ((w ++ p) :: ps).map (replaceWords f) := by rw [List.map_cons, replaceWords_append hw hp]
      _ = (splitOutsideFrom ',' d (w ++ r)).map (replaceWords f) := by
          rw [← foldr_consFirst, ← hsplit, ← splitOutsideFrom_append_of_enclosed hword d r, Nat.add_zero]

lemma enclosed_replaceWords (d : Nat) (t : Text) : enclosed d (replaceWords f t) = enclosed d t := by
  induction t using word_induction generalizing d with
  | nil => rfl
  | other c t hc ih =>
    rw [replaceWords_cons hc]
    by_cases hopen : c = '<'
    · subst hopen
      exact ih (d + 1)
    · by_cases hclose : c = '>'
      · subst hclose
        cases d with
        | zero => rfl
        | succ d => exact ih d
      · rw [enclosed_other hopen hclose, enclosed_other hopen hclose, ih]
  | word w r hw hr ih =>
    have hvalue := (argument_iff.1 (argument_getD hf hw)).2.2
    have hword := (argument_iff.1 (argument_of_isWord hw)).2.2
    rw [replaceWords_append hw hr, ← Nat.add_zero d, enclosed_append hvalue, enclosed_append hword, ih]

/-- Values put into an argument leave it an argument. -/
theorem Argument.replaceWords {v : Text} (h : Argument v) : Argument (replaceWords f v) := by
  refine argument_iff.2 ⟨?_, ?_, ?_⟩
  · rw [trim_replaceWords hf, h.trimmed]
  · intro hnil
    have hblank := allBlank_replaceWords hf v
    rw [hnil, h.not_allBlank] at hblank
    cases hblank
  · rw [enclosed_replaceWords hf]
    exact (argument_iff.1 h).2.2

/-- Arguments are cut with the values put in as they are cut before. -/
theorem splitArguments_replaceWords (t : Text) :
    splitArguments (replaceWords f t) = (splitArguments t).map (replaceWords f) := by
  unfold splitArguments splitOutside
  rw [allBlank_replaceWords hf, apply_ite (List.map (replaceWords f)), splitOutsideFrom_replaceWords hf, List.map_map,
    List.map_map]
  have htrim : trim ∘ replaceWords f = replaceWords f ∘ trim := funext (trim_replaceWords hf)
  rw [htrim]
  rfl

end Values
end Text

/-! ## calls inside calls -/

namespace Bindings

/-- Every value is an argument. -/
def Proper (b : Bindings) : Prop := ∀ v ∈ b.args, v.Argument

/-- From a frame with the bindings `b` a macro is entered with the bindings `b'`, by a call that has the values of `b`
put into its arguments, which are arguments as they are written. -/
def Calls (b b' : Bindings) : Prop :=
  ∃ (limits : Limits) (store : Store) (active : List Frame) (q : Request) (m : Macro) (groups : List Text),
    q.args = groups.map b.substitute ∧ permit limits store active q = .ok (m, b'.args) ∧ b'.params = m.params ∧
      ∀ a ∈ groups.flatMap Text.splitArguments, Text.Argument a

variable {b b' : Bindings}

lemma Proper.lookup (hb : b.Proper) (w v : Text) (h : b.lookup w = some v) : v.Argument := by
  obtain ⟨⟨param, arg⟩, hfound, rfl⟩ := Option.map_eq_some_iff.1 h
  exact hb arg (List.of_mem_zip (List.mem_of_find?_eq_some hfound)).2

lemma Proper.flatMap_splitArguments (hb : b.Proper) (groups : List Text) :
    (groups.map b.substitute).flatMap Text.splitArguments = (groups.flatMap Text.splitArguments).map b.substitute := by
  rw [List.flatMap_map, List.map_flatMap]
  exact List.flatMap_congr fun t _ => Text.splitArguments_replaceWords hb.lookup t

/-- The arguments with which a macro is entered. -/
lemma Proper.permit_args (hb : b.Proper) {limits : Limits} {store : Store} {active : List Frame} {q : Request}
    {groups : List Text} (hq : q.args = groups.map b.substitute) {m : Macro} {args : List Text}
    (h : permit limits store active q = .ok (m, args)) :
    args = (groups.flatMap Text.splitArguments).map b.substitute := by
  obtain ⟨-, rfl, -⟩ := permit_eq_ok_iff.1 h
  rw [hq, hb.flatMap_splitArguments]

/-- A call hands on arguments. -/
lemma Proper.calls (hb : b.Proper) (h : Calls b b') : b'.Proper := by
  obtain ⟨limits, store, active, q, m, groups, hq, hpermit, -, hwritten⟩ := h
  intro v hv
  rw [hb.permit_args hq hpermit] at hv
  obtain ⟨a, ha, rfl⟩ := List.mem_map.1 hv
  exact (hwritten a ha).replaceWords hb.lookup

lemma Proper.reaches (hb : b.Proper) (h : Relation.ReflTransGen Calls b b') : b'.Proper := by
  induction h with
  | refl => exact hb
  | tail _ hcall ih => exact ih.calls hcall

end Bindings

/-- **Substitution commutes with the cutting of arguments.** If every value is an argument, a text with the values put
in is cut into the arguments of the text, each with the values put in. So through any number of calls inside calls, a
macro is entered with the arguments that are written in its call, each with the values put in. -/
theorem splitArguments_forwarded {f : Text → Option Text} (hf : ∀ w v, f w = some v → v.Argument) (t : Text) :
    Text.splitArguments (Text.replaceWords f t) = (Text.splitArguments t).map (Text.replaceWords f) ∧
    ∀ b b' : Bindings, b.Proper → Relation.ReflTransGen Bindings.Calls b b' →
      ∀ (limits : Limits) (store : Store) (active : List Frame) (q : Request) (m : Macro) (groups args : List Text),
        q.args = groups.map b'.substitute → permit limits store active q = .ok (m, args) →
        args = (groups.flatMap Text.splitArguments).map b'.substitute := by
  refine ⟨Text.splitArguments_replaceWords hf t, ?_⟩
  intro b b' hb hreach limits store active q m groups args hq hpermit
  exact (hb.reaches hreach).permit_args hq hpermit

namespace Sample

/-- `x` stands for a macro with two arguments, `y` for a group. -/
def pair : Bindings := ⟨["x".toList, "y".toList], ["D<a,b>".toList, "<1,x>".toList]⟩

/-- A text with a bracket that closes none. -/
def forwarded : Text := " x,E< y , x >> ,y x ".toList

lemma pair_proper : pair.Proper :=
  List.forall_mem_cons.2 ⟨by decide, List.forall_mem_singleton.2 (by decide)⟩

/-- Macros that take two arguments and three. -/
def takers : Store where
  macros := ⟨[defn "E" ["p", "q"] [], defn "F" ["p", "q", "r"] []]⟩

/-- Both values handed on to `E`. -/
def handedOn : Bindings := ⟨["p".toList, "q".toList], pair.args⟩

lemma pair_calls : Bindings.Calls pair handedOn := by
  refine ⟨{}, takers, [], ⟨"E".toList, 0, ["D<a,b> , <1,x>".toList], none⟩, defn "E" ["p", "q"] [], ["x , y".toList],
    by decide, by decide, by decide, ?_⟩
  have hwritten : ["x , y".toList].flatMap Text.splitArguments = ["x".toList, "y".toList] := by decide
  rw [hwritten]
  exact List.forall_mem_cons.2 ⟨by decide, List.forall_mem_singleton.2 (by decide)⟩

/-- `F` is called inside `E`, with the parameters of `E` in another order. -/
def entered : Request := ⟨"F".toList, 0, ["q,D<q,p>,p".toList].map handedOn.substitute, none⟩

end Sample

/-- The text is cut as it is written; and `F`, called inside `E`, gets three arguments. -/
theorem splitArguments_forwarded_pair :
    Sample.pair.Proper ∧
      Text.splitArguments (Sample.pair.substitute Sample.forwarded) =
        ["D<a,b>".toList, "E< <1,x> , D<a,b> >>".toList, "<1,x> D<a,b>".toList] ∧
      Relation.ReflTransGen Bindings.Calls Sample.pair Sample.handedOn ∧
      permit {} Sample.takers [] Sample.entered =
        .ok (Sample.defn "F" ["p", "q", "r"] [], Sample.entered.args.flatMap Text.splitArguments) ∧
      Sample.entered.args.flatMap Text.splitArguments =
        ["q".toList, "D<q,p>".toList, "p".toList].map Sample.handedOn.substitute := by
  have hreach : Relation.ReflTransGen Bindings.Calls Sample.pair Sample.handedOn := .single Sample.pair_calls
  obtain ⟨hcut, hcalls⟩ := splitArguments_forwarded Sample.pair_proper.lookup Sample.forwarded
  have hpermit : permit {} Sample.takers [] Sample.entered =
      .ok (Sample.defn "F" ["p", "q", "r"] [], Sample.entered.args.flatMap Text.splitArguments) := by decide
  exact ⟨Sample.pair_proper, hcut.trans (by decide), hreach, hpermit,
    (hcalls _ _ Sample.pair_proper hreach {} Sample.takers [] Sample.entered _ _ _ rfl hpermit).trans (by decide)⟩

end MacroAsm
