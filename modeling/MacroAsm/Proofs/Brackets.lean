import Mathlib.Data.List.DropRight
import Mathlib.Tactic.Common
import MacroAsm.Target

/-!
# Matching brackets

The reader of a bracketed text stops at the character that closes the first bracket. What it has read then is balanced,
and anything balanced is read so.

* `Text.Closes o x d t`: read with `d` brackets open, `t` closes them all and no more than are open at any time;
* `Text.closing_eq_some_iff`: what the reader finds, and that it finds it;
* `Text.Grounded`: the same for a counter of 32 bits with a sign; `Text.balancedFrom_iff`,
  `Text.unbracket?_eq_some_iff`: the test for angle brackets goes by it;
* `Text.Shallow t`: no more brackets are open at a time than the counter can count; `Text.grounded_iff`,
  `Text.grounded_iff_shallow`: then, and only then, the two agree on a balanced text;
* `Text.trim_trim`, `Text.Closes.trim`: blanks at the ends do not matter to brackets.
-/

namespace MacroAsm

namespace Text

/-- Read with `d` brackets open, a text never closes more than are open, and in the end has closed all. -/
structure Closes (o x : Char) (d : Nat) (t : Text) : Prop where
  never : ∀ p, p <+: t → p.count x ≤ d + p.count o
  total : t.count x = d + t.count o

/-- Every bracket that is opened is closed, and no other. -/
abbrev Balanced (o x : Char) (t : Text) : Prop := Closes o x 0 t

section Brackets

variable {o x : Char} {d : Nat} {t : Text}

lemma closes_nil : Closes o x d [] ↔ d = 0 := by
  constructor
  · intro h
    have := h.total
    simp at this
    omega
  · rintro rfl
    exact ⟨fun p hp => by simp [List.prefix_nil.1 hp], by simp⟩

/-- A character in front shifts the count of every prefix but the empty one. -/
lemma closes_cons {c : Char} {e : Nat}
    (h : ∀ p : Text, (c :: p).count x ≤ d + (c :: p).count o ↔ p.count x ≤ e + p.count o)
    (h' : ∀ p : Text, (c :: p).count x = d + (c :: p).count o ↔ p.count x = e + p.count o) :
    Closes o x d (c :: t) ↔ Closes o x e t := by
  constructor
  · rintro ⟨hnever, htotal⟩
    exact ⟨fun p hp => (h p).1 (hnever _ (List.cons_prefix_cons.2 ⟨rfl, hp⟩)), (h' t).1 htotal⟩
  · rintro ⟨hnever, htotal⟩
    refine ⟨fun p hp => ?_, (h' t).2 htotal⟩
    rcases List.prefix_cons_iff.1 hp with rfl | ⟨q, rfl, hq⟩
    · simp
    · exact (h q).2 (hnever q hq)

lemma closes_open (ho : o ≠ x) : Closes o x d (o :: t) ↔ Closes o x (d + 1) t := by
  have hx : ∀ p : Text, (o :: p).count x = p.count x := fun p => by simp [ho]
  refine closes_cons (fun p => ?_) fun p => ?_ <;> rw [hx, List.count_cons_self] <;> omega

lemma closes_close (ho : o ≠ x) : Closes o x (d + 1) (x :: t) ↔ Closes o x d t := by
  have hx : ∀ p : Text, (x :: p).count o = p.count o := fun p => by simp [ho.symm]
  refine closes_cons (fun p => ?_) fun p => ?_ <;> rw [hx, List.count_cons_self] <;> omega

lemma not_closes_close (ho : o ≠ x) : ¬ Closes o x 0 (x :: t) := by
  intro h
  have := h.never [x] (by simp)
  simp [ho.symm] at this

lemma closes_other {c : Char} (hco : c ≠ o) (hcx : c ≠ x) : Closes o x d (c :: t) ↔ Closes o x d t := by
  have hx : ∀ p : Text, (c :: p).count x = p.count x ∧ (c :: p).count o = p.count o := fun p => by simp [hco, hcx]
  exact closes_cons (fun p => by rw [(hx p).1, (hx p).2]) fun p => by rw [(hx p).1, (hx p).2]

/-! ## the reader -/

lemma closes_of_closing (ho : o ≠ x) {inner r : Text} (h : closing o x d t = some (inner, r)) : Closes o x d inner := by
  induction t generalizing d inner with
  | nil => simp [closing] at h
  | cons c t ih =>
    have step : ∀ {e}, (closing o x e t).map (fun p => (c :: p.1, p.2)) = some (inner, r) →
        ∃ i, inner = c :: i ∧ Closes o x e i := by
      intro e he
      obtain ⟨⟨i, r'⟩, hi, heq⟩ := Option.map_eq_some_iff.1 he
      obtain ⟨rfl, rfl⟩ := Prod.mk.inj heq
      exact ⟨i, rfl, ih hi⟩
    simp only [closing] at h
    split at h
    · next hc =>
      obtain ⟨i, rfl, hi⟩ := step h
      rw [hc]
      exact (closes_open ho).2 hi
    · next hc =>
      split at h
      · next hcx =>
        cases d with
        | zero =>
          obtain ⟨rfl, -⟩ := Prod.mk.inj (Option.some.inj h)
          exact closes_nil.2 rfl
        | succ d =>
          obtain ⟨i, rfl, hi⟩ := step h
          rw [hcx]
          exact (closes_close ho).2 hi
      · next hcx =>
        obtain ⟨i, rfl, hi⟩ := step h
        exact (closes_other hc hcx).2 hi

lemma closing_of_closes (ho : o ≠ x) {inner : Text} (h : Closes o x d inner) (r : Text) :
    closing o x d (inner ++ x :: r) = some (inner, r) := by
  induction inner generalizing d with
  | nil =>
    rw [closes_nil.1 h]
    simp [closing, ho.symm]
  | cons c inner ih =>
    rw [List.cons_append]
    by_cases hco : c = o
    · subst hco
      simp [closing, ih ((closes_open ho).1 h)]
    · by_cases hcx : c = x
      · subst hcx
        cases d with
        | zero => exact absurd h (not_closes_close ho)
        | succ d => simp [closing, hco, ih ((closes_close ho).1 h)]
      · simp [closing, hco, hcx, ih ((closes_other hco hcx).1 h)]

/-- **What the reader of brackets finds** is what stands before the character that closes them. -/
theorem closing_eq_some_iff (ho : o ≠ x) {inner r : Text} :
    closing o x d t = some (inner, r) ↔ t = inner ++ x :: r ∧ Closes o x d inner := by
  constructor
  · intro h
    exact ⟨eq_of_closing h, closes_of_closing ho h⟩
  · rintro ⟨rfl, h⟩
    exact closing_of_closes ho h r

/-! ## characters that are no brackets -/

lemma closes_append_left {a : Text} (ha : ∀ c ∈ a, c ≠ o ∧ c ≠ x) : Closes o x d (a ++ t) ↔ Closes o x d t := by
  induction a with
  | nil => rfl
  | cons c a ih =>
    have hc := ha c List.mem_cons_self
    rw [List.cons_append, closes_other hc.1 hc.2, ih fun c hc => ha c (List.mem_cons_of_mem _ hc)]

lemma closes_append_right (ho : o ≠ x) {b : Text} (hb : ∀ c ∈ b, c ≠ o ∧ c ≠ x) :
    Closes o x d (t ++ b) ↔ Closes o x d t := by
  induction t generalizing d with
  | nil =>
    rw [List.nil_append, ← List.append_nil b]
    exact closes_append_left hb
  | cons c t ih =>
    rw [List.cons_append]
    by_cases hco : c = o
    · rw [hco, closes_open ho, closes_open ho]
      exact ih
    · by_cases hcx : c = x
      · rw [hcx]
        cases d with
        | zero => simp [not_closes_close ho]
        | succ d =>
          rw [closes_close ho, closes_close ho]
          exact ih
      · rw [closes_other hco hcx, closes_other hco hcx]
        exact ih

end Brackets

/-! ## a counter with a sign -/

/-- What a signed counter of 32 bits shows behind a text, one more for each opening angle bracket and one less for each
closing one. -/
def height (d : Int32) (t : Text) : Int32 := d + Int32.ofInt (t.count '<' - t.count '>')

/-- The counter is not below zero behind any closing bracket, and is at zero in the end. -/
structure Grounded (d : Int32) (t : Text) : Prop where
  never : ∀ p, p ++ ['>'] <+: t → ¬ height d (p ++ ['>']) < 0
  total : height d t = 0

lemma height_nil (d : Int32) : height d [] = d := by simp [height]

lemma height_open (d : Int32) (t : Text) : height d ('<' :: t) = height (d + 1) t := by
  have hcount : ((('<' :: t).count '<' : Nat) - ('<' :: t).count '>' : Int) = 1 + (t.count '<' - t.count '>') := by
    rw [List.count_cons_self, List.count_cons_of_ne (by decide)]
    omega
  rw [height, height, hcount, Int32.ofInt_add, Int32.add_assoc]
  rfl

lemma height_close (d : Int32) (t : Text) : height d ('>' :: t) = height (d - 1) t := by
  have hcount : ((('>' :: t).count '<' : Nat) - ('>' :: t).count '>' : Int) = -1 + (t.count '<' - t.count '>') := by
    rw [List.count_cons_self, List.count_cons_of_ne (by decide)]
    omega
  rw [height, height, hcount, Int32.ofInt_add, Int32.sub_eq_add_neg, Int32.add_assoc]
  rfl

lemma height_other {c : Char} (hopen : c ≠ '<') (hclose : c ≠ '>') (d : Int32) (t : Text) :
    height d (c :: t) = height d t := by
  rw [height, height, List.count_cons_of_ne hopen, List.count_cons_of_ne hclose]

lemma grounded_nil {d : Int32} : Grounded d [] ↔ d = 0 := by
  constructor
  · intro h
    rw [← height_nil d]
    exact h.total
  · rintro rfl
    exact ⟨fun p hp => by simp at hp, rfl⟩

/-- A character in front moves the counter; a closing bracket must not move it below zero. -/
lemma grounded_cons {c : Char} {d e : Int32} {t : Text} (h : ∀ p, height d (c :: p) = height e p) :
    Grounded d (c :: t) ↔ (c = '>' → ¬ e < 0) ∧ Grounded e t := by
  constructor
  · rintro ⟨hnever, htotal⟩
    refine ⟨?_, fun p hp => ?_, (h t).symm.trans htotal⟩
    · rintro rfl
      have hfirst := hnever [] (by simp)
      rwa [List.nil_append, h, height_nil] at hfirst
    · rw [← h]
      exact hnever (c :: p) (List.cons_prefix_cons.2 ⟨rfl, hp⟩)
  · rintro ⟨hfirst, hnever, htotal⟩
    refine ⟨fun p hp => ?_, (h t).trans htotal⟩
    cases p with
    | nil =>
      obtain ⟨rfl, -⟩ := List.cons_prefix_cons.1 hp
      rw [List.nil_append, h, height_nil]
      exact hfirst rfl
    | cons c' p =>
      obtain ⟨rfl, htail⟩ := List.cons_prefix_cons.1 hp
      rw [List.cons_append, h]
      exact hnever p htail

/-- **The test for balance** by the counter. -/
theorem balancedFrom_iff {d : Int32} {t : Text} : balancedFrom d t = true ↔ Grounded d t := by
  induction t generalizing d with
  | nil => simp [balancedFrom, grounded_nil]
  | cons c t ih =>
    unfold balancedFrom
    split
    · next hopen =>
      rw [hopen, grounded_cons (height_open d), ih]
      exact (and_iff_right fun h => absurd h (by decide)).symm
    · next hopen =>
      split
      · next hclose =>
        rw [hclose, grounded_cons (height_close d), ← ih]
        by_cases hlow : d - 1 < 0 <;> simp [hlow]
      · next hclose =>
        rw [grounded_cons (height_other hopen hclose d), ih]
        exact (and_iff_right fun h => absurd h hclose).symm

/-- No more than `2147483648` brackets are open at a time. -/
def Shallow (t : Text) : Prop := ∀ p, p <+: t → p.count '<' ≤ p.count '>' + 2147483648

lemma shallow_of_count {t : Text} (h : t.count '<' ≤ 2147483648) : Shallow t := fun p hp => by
  have := (hp.sublist.count_le '<').trans h
  omega

/-- In a text that is not shallow, the step down to `2147483648` open brackets is taken, if all of them are closed. -/
lemma exists_step_down {p r : Text} (hdeep : p.count '>' + 2147483648 < p.count '<')
    (htotal : (p ++ r).count '>' = (p ++ r).count '<') :
    ∃ q, q ++ ['>'] <+: p ++ r ∧ (q ++ ['>']).count '<' = (q ++ ['>']).count '>' + 2147483648 := by
  induction r generalizing p with
  | nil =>
    rw [List.append_nil] at htotal
    omega
  | cons c r ih =>
    have hcut : p ++ c :: r = p ++ [c] ++ r := by simp
    by_cases hstill : (p ++ [c]).count '>' + 2147483648 < (p ++ [c]).count '<'
    · rw [hcut] at htotal ⊢
      exact ih hstill htotal
    · -- only a closing bracket leads down, and by one step
      rw [List.count_append, List.count_append, List.count_singleton, List.count_singleton] at hstill
      by_cases hc : c = '>'
      · subst hc
        refine ⟨p, hcut ▸ List.prefix_append .., ?_⟩
        simp only [List.count_append, List.count_singleton] at hstill ⊢
        simp at hstill ⊢
        omega
      · simp [hc] at hstill
        omega

/-- As long as it counts no more than `2147483648` open brackets, the counter shows how many are open. -/
lemma height_lt_zero_iff {t : Text} (hlow : t.count '>' ≤ t.count '<' + 1)
    (hhigh : t.count '<' ≤ t.count '>' + 2147483647) :
    height 0 t < 0 ↔ t.count '<' < t.count '>' := by
  have hshown : (height 0 t).toInt = t.count '<' - t.count '>' := by
    rw [height, Int32.zero_add, Int32.toInt_ofInt_of_le (by omega) (by omega)]
  rw [Int32.lt_iff_toInt_lt, hshown, Int32.toInt_zero]
  omega

/-- **A shallow text** is balanced by the counter exactly if it is balanced. -/
theorem grounded_iff {t : Text} (hshallow : Shallow t) : Grounded 0 t ↔ Balanced '<' '>' t := by
  have hclosed : ∀ p : Text, (p ++ ['>']).count '<' = p.count '<' ∧ (p ++ ['>']).count '>' = p.count '>' + 1 := by
    intro p
    simp [List.count_append]
  constructor
  · rintro ⟨hnever, htotal⟩
    -- the first closing bracket too many would move the counter below zero
    have hall : ∀ p : Text, p <+: t → p.count '>' ≤ 0 + p.count '<' := by
      intro p
      induction p using List.reverseRecOn with
      | nil => simp
      | append_singleton p c ih =>
        intro hp
        have hshort : p <+: t := (List.prefix_append p [c]).trans hp
        have hle := ih hshort
        by_cases hc : c = '>'
        · subst hc
          have hcounts := hclosed p
          have hmost := hshallow p hshort
          have hstep := hnever p hp
          rw [height_lt_zero_iff (by omega) (by omega)] at hstep
          omega
        · rw [List.count_append, List.count_append, List.count_singleton, List.count_singleton]
          simp [hc]
          omega
    refine ⟨hall, ?_⟩
    have hle := hall t (List.prefix_refl t)
    have hmost := hshallow t (List.prefix_refl t)
    have hshown := congrArg Int32.toInt htotal
    rw [height, Int32.zero_add, Int32.toInt_ofInt, Int32.toInt_zero] at hshown
    have hsize : Int32.size = 4294967296 := rfl
    rw [hsize, Int.bmod_def] at hshown
    omega
  · rintro ⟨hnever, htotal⟩
    refine ⟨fun p hp => ?_, ?_⟩
    · have hle := hnever _ hp
      have hmost := hshallow p ((List.prefix_append p ['>']).trans hp)
      have hcounts := hclosed p
      rw [height_lt_zero_iff (by omega) (by omega)]
      omega
    · rw [height, htotal, Nat.zero_add, Int.sub_self]
      rfl

/-- **A balanced text** is balanced by the counter exactly if it is shallow. -/
theorem grounded_iff_shallow {t : Text} (h : Balanced '<' '>' t) : Grounded 0 t ↔ Shallow t := by
  refine ⟨fun hgrounded p hp => ?_, fun hshallow => (grounded_iff hshallow).2 h⟩
  by_contra hdeep
  obtain ⟨r, rfl⟩ := hp
  obtain ⟨q, hq, hopen⟩ := exists_step_down (p := p) (r := r) (by omega) (by rw [h.total, Nat.zero_add])
  have hshown : ((q ++ ['>']).count '<' - (q ++ ['>']).count '>' : Int) = 2147483648 := by omega
  refine hgrounded.never q hq ?_
  rw [height, hshown]
  decide

/-- A text between two angle brackets, one in front and one at the end. -/
lemma stripBrackets?_eq_some_iff {t inner : Text} : stripBrackets? t = some inner ↔ t = '<' :: inner ++ ['>'] := by
  constructor
  · exact eq_of_stripBrackets?
  · rintro rfl
    simp [stripBrackets?, dropStart?, dropEnd?]

/-- **A bracketed group** is a text between two brackets that the counter finds balanced. -/
theorem unbracket?_eq_some_iff {t inner : Text} :
    unbracket? t = some inner ↔ t = '<' :: inner ++ ['>'] ∧ Grounded 0 inner := by
  rw [unbracket?, Option.filter_eq_some_iff, stripBrackets?_eq_some_iff, balancedFrom_iff]

/-! ## blanks at the ends -/

/-- A text is its trimmed form between blanks. -/
lemma exists_eq_trim (t : Text) :
    ∃ a b, t = a ++ (trim t ++ b) ∧ (∀ c ∈ a, isBlank c = true) ∧ ∀ c ∈ b, isBlank c = true := by
  refine ⟨t.takeWhile isBlank, (t.dropWhile isBlank).rtakeWhile isBlank, ?_, ?_, ?_⟩
  · have hend : trim t ++ (t.dropWhile isBlank).rtakeWhile isBlank = t.dropWhile isBlank :=
      List.rdropWhile_append_rtakeWhile ..
    rw [hend, List.takeWhile_append_dropWhile]
  · intro c hc
    exact List.mem_takeWhile_imp hc
  · intro c hc
    exact List.mem_rtakeWhile_imp hc

lemma Closes.trim {o x : Char} {d : Nat} {t : Text} (hne : o ≠ x) (ho : isBlank o = false) (hx : isBlank x = false)
    (h : Closes o x d t) : Closes o x d (trim t) := by
  have free : ∀ a : Text, (∀ c ∈ a, isBlank c = true) → ∀ c ∈ a, c ≠ o ∧ c ≠ x := by
    intro a ha c hc
    constructor
    · rintro rfl
      simp [ha c hc] at ho
    · rintro rfl
      simp [ha c hc] at hx
  obtain ⟨a, b, ht, ha, hb⟩ := exists_eq_trim t
  rw [ht] at h
  exact (closes_append_right hne (free b hb)).1 ((closes_append_left (free a ha)).1 h)

lemma dropWhile_eq_self {p : Char → Bool} {t : Text} (h : ∀ c ∈ t.head?, p c = false) : t.dropWhile p = t := by
  cases t with
  | nil => rfl
  | cons c t => rw [List.dropWhile_cons_of_neg (by simp [h c (by simp)])]

/-- A text that neither begins nor ends with a blank is trimmed. -/
lemma trim_eq_self {t : Text} (hfirst : ∀ c ∈ t.head?, isBlank c = false)
    (hlast : ∀ c ∈ t.getLast?, isBlank c = false) : trim t = t := by
  unfold trim trimEnd
  rw [dropWhile_eq_self hfirst, dropWhile_eq_self (by simpa using hlast), List.reverse_reverse]

theorem trim_trim (t : Text) : trim (trim t) = trim t := by
  have hend : trim t = (t.dropWhile isBlank).rdropWhile isBlank := rfl
  have hstart : t.dropWhile isBlank = [] ∨ ∃ c r, t.dropWhile isBlank = c :: r ∧ isBlank c = false := by
    have := List.head?_dropWhile_not isBlank t
    cases h : t.dropWhile isBlank with
    | nil => exact Or.inl rfl
    | cons c r =>
      rw [h] at this
      exact Or.inr ⟨c, r, rfl, by simpa using this⟩
  refine trim_eq_self (fun c hc => ?_) fun c hc => ?_
  · -- what is left at the end is a beginning of what is left in front
    obtain ⟨b, hb⟩ : (t.dropWhile isBlank).rdropWhile isBlank <+: t.dropWhile isBlank := List.rdropWhile_prefix ..
    rw [hend] at hc
    rcases hstart with hnil | ⟨d, r, hcons, hd⟩
    · simp [hnil] at hc
    · rw [hcons] at hb hc
      cases hu : (d :: r).rdropWhile isBlank with
      | nil => simp [hu] at hc
      | cons e u =>
        rw [hu] at hb hc
        have : e = d := by simpa using congrArg List.head? hb
        simp only [List.head?_cons, Option.mem_def, Option.some.injEq] at hc
        rw [← hc, this, hd]
  · rw [hend] at hc
    have hne : (t.dropWhile isBlank).rdropWhile isBlank ≠ [] := by
      intro hnil
      simp [hnil] at hc
    have := List.rdropWhile_last_not isBlank (t.dropWhile isBlank) hne
    rw [List.getLast?_eq_some_getLast hne] at hc
    simp only [Option.mem_def, Option.some.injEq] at hc
    rw [← hc]
    simpa using this

lemma trim_eq_nil_iff {t : Text} : trim t = [] ↔ allBlank t = true := by
  have hall : allBlank t = true ↔ ∀ c ∈ t, isBlank c = true := List.all_eq_true
  rw [hall]
  constructor
  · intro h
    obtain ⟨a, b, ht, ha, hb⟩ := exists_eq_trim t
    rw [h, List.nil_append] at ht
    intro c hc
    rw [ht] at hc
    rcases List.mem_append.1 hc with hc | hc
    · exact ha c hc
    · exact hb c hc
  · intro h
    have hdrop : t.dropWhile isBlank = [] := List.dropWhile_eq_nil_iff.2 h
    simp [trim, trimEnd, hdrop]

/-- Not blank, and without blanks at the ends. -/
def Trimmed (t : Text) : Prop := trim t = t ∧ allBlank t = false

lemma trimmed_iff {t : Text} : Trimmed t ↔ trim t = t ∧ t ≠ [] := by
  refine and_congr_right fun h => ?_
  rw [← Bool.not_eq_true, ← trim_eq_nil_iff, h]

lemma trimmed_trim {t : Text} (h : allBlank t = false) : Trimmed (trim t) :=
  trimmed_iff.2 ⟨trim_trim t, fun hnil => by simp [trim_eq_nil_iff.1 hnil] at h⟩

end Text

namespace Target

/-- The arguments that are kept of a group: none, or one trimmed text. -/
def Group (P : Text → Prop) (args : List Text) : Prop := args = [] ∨ ∃ t, args = [t] ∧ Text.Trimmed t ∧ P t

lemma group_argumentGroup {P : Text → Prop} {raw : Text} (h : P (Text.trim raw)) : Group P (argumentGroup raw) := by
  unfold argumentGroup
  split
  · exact Or.inl rfl
  · next hblank => exact Or.inr ⟨_, rfl, Text.trimmed_trim (by simpa using hblank), h⟩

lemma argumentGroup_of_trimmed {t : Text} (h : t.Trimmed) : argumentGroup t = [t] := by
  rw [argumentGroup, h.1, h.2]
  rfl

end Target
end MacroAsm
