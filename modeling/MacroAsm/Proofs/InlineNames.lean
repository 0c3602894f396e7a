import Mathlib.Data.List.Basic
import Mathlib.Tactic.Common
import MacroAsm.Engine

/-!
# Names of macros made for template arguments

Such a name begins with `inline-` and ends in its number. Nothing that is looked up by what is written in a program
begins so: a hyphen outside brackets makes a template argument an expression, and splits an expression.

* `Text.isPlain t`: `t` does not begin with `inline-`;
* `Engine.inlineName_inj`: the number can be read off such a name;
* `Text.isPlain_of_not_isLiteral`: a template argument that may name a macro is plain;
* `Arith.all_isPlain_read`: so are the atoms of an expression.
-/

namespace MacroAsm

/-- Not the beginning of a name made for a template argument. -/
def Text.isPlain (t : Text) : Bool := !("inline-".toList).isPrefixOf t

namespace Text

lemma exists_of_not_isPlain {t : Text} (h : t.isPlain = false) : ∃ r, t = "inline-".toList ++ r := by
  have hp : ("inline-".toList).isPrefixOf t = true := by
    unfold isPlain at h
    simpa using h
  obtain ⟨r, hr⟩ := List.isPrefixOf_iff_prefix.1 hp
  exact ⟨r, hr.symm⟩

lemma not_isPlain_of_begins {t : Text} (h : "inline-".toList <+: t) : t.isPlain = false := by
  unfold isPlain
  rw [List.isPrefixOf_iff_prefix.2 h]
  rfl

lemma isPlain_of_no_hyphen {t : Text} (h : '-' ∉ t) : t.isPlain = true := by
  by_contra hn
  obtain ⟨r, rfl⟩ := exists_of_not_isPlain (Bool.not_eq_true _ ▸ hn)
  exact h (List.mem_append_left r (by decide))

end Text

namespace Engine

lemma begins_inlineName (arg : Text) (n : Nat) : "inline-".toList <+: inlineName arg n := by
  unfold inlineName
  rw [List.append_assoc]
  exact List.prefix_append _ _

lemma not_isPlain_inlineName (arg : Text) (n : Nat) : (inlineName arg n).isPlain = false :=
  Text.not_isPlain_of_begins (begins_inlineName arg n)

lemma decimal_inj {n k : Nat} (h : Text.decimal n = Text.decimal k) : n = k := by
  have hn : Nat.ofDigitChars 10 (Text.decimal n) 0 = n := Nat.ofDigitChars_ten_toDigits
  have hk : Nat.ofDigitChars 10 (Text.decimal k) 0 = k := Nat.ofDigitChars_ten_toDigits
  rw [← hn, h, hk]

lemma hyphen_not_mem_decimal (n : Nat) : '-' ∉ Text.decimal n := by
  intro hm
  have hd := Nat.isDigit_of_mem_toDigits (by decide) (by decide) hm
  exact absurd hd (by decide)

/-- Two texts that are equal have the same part behind their last `x`. -/
lemma eq_of_append_cons {x : Char} {a b c d : Text} (hc : x ∉ c) (hd : x ∉ d) (h : a ++ x :: c = b ++ x :: d) :
    c = d := by
  rcases List.append_eq_append_iff.1 h with ⟨as, -, has⟩ | ⟨as, -, has⟩
  · cases as with
    | nil => exact (List.cons.inj has).2
    | cons y as =>
      obtain ⟨-, rfl⟩ := List.cons.inj has
      exact absurd (List.mem_append_right as List.mem_cons_self) hc
  · cases as with
    | nil => exact (List.cons.inj has).2.symm
    | cons y as =>
      obtain ⟨-, rfl⟩ := List.cons.inj has
      exact absurd (List.mem_append_right as List.mem_cons_self) hd

/-- **The number of a macro made for a template argument can be read off its name.** -/
theorem inlineName_inj {a b : Text} {n k : Nat} (h : inlineName a n = inlineName b k) : n = k :=
  decimal_inj (eq_of_append_cons (hyphen_not_mem_decimal n) (hyphen_not_mem_decimal k) h)

end Engine

namespace Text

/-! ## template arguments -/

lemma trimEnd_append {p r : Text} {c : Char} (hc : isBlank c = false) : ∃ u, trimEnd (p ++ c :: r) = p ++ c :: u := by
  unfold trimEnd
  rw [List.reverse_append, List.reverse_cons, List.append_assoc, List.dropWhile_append]
  split
  · refine ⟨[], ?_⟩
    have hkeep : List.dropWhile isBlank ([c] ++ p.reverse) = [c] ++ p.reverse := by
      rw [List.singleton_append, List.dropWhile_cons_of_neg (by simp [hc])]
    rw [hkeep]
    simp
  · exact ⟨(r.reverse.dropWhile isBlank).reverse, by simp⟩

lemma trim_of_not_isPlain {t : Text} (h : t.isPlain = false) : ∃ u, trim t = "inline-".toList ++ u := by
  obtain ⟨r, rfl⟩ := exists_of_not_isPlain h
  have hfront : ("inline-".toList ++ r).dropWhile isBlank = "inline".toList ++ '-' :: r := rfl
  obtain ⟨u, hu⟩ := trimEnd_append (p := "inline".toList) (r := r) (c := '-') (by decide)
  refine ⟨u, ?_⟩
  unfold trim
  rw [hfront, hu]
  rfl

lemma splitOutsideFrom_ne_nil (sep : Char) (d : Nat) (t : Text) : splitOutsideFrom sep d t ≠ [] := by
  cases t with
  | nil => simp [splitOutsideFrom]
  | cons c t =>
    unfold splitOutsideFrom
    split
    · simp
    · cases splitOutsideFrom sep (depthAfter d c) t <;> simp [consFirst]

lemma hasOperator_inline (r : Text) : hasOperator ("inline-".toList ++ r) = true := by
  have hsplit : splitOutside '-' ("inline-".toList ++ r) = "inline".toList :: splitOutsideFrom '-' 0 r := rfl
  have hlen : 1 < (splitOutside Sign.minus.char ("inline-".toList ++ r)).length := by
    have hpos := List.length_pos_iff.2 (splitOutsideFrom_ne_nil '-' 0 r)
    show 1 < (splitOutside '-' ("inline-".toList ++ r)).length
    rw [hsplit, List.length_cons]
    omega
  unfold hasOperator
  exact List.any_eq_true.2 ⟨.minus, by decide, decide_eq_true hlen⟩

lemma stackOffset_inline {t : Text} (h : t.isPlain = false) : StackOffset.read? t = none := by
  obtain ⟨u, hu⟩ := trim_of_not_isPlain h
  have hfamily : StackOffset.family? ("inline-".toList ++ u) = none := rfl
  unfold StackOffset.read?
  rw [hu, hfamily]

/-- A text that begins as the name of a macro made for an argument reads as an expression. -/
theorem isPlain_of_not_isLiteral {t : Text} (h : isLiteral t = false) : t.isPlain = true := by
  by_contra hn
  obtain ⟨u, hu⟩ := trim_of_not_isPlain (Bool.not_eq_true _ ▸ hn)
  have hlit : isLiteral t = true := by
    unfold isLiteral
    rw [hu, hasOperator_inline, stackOffset_inline (not_isPlain_of_begins (List.prefix_append _ u))]
    simp
  rw [hlit] at h
  cases h

/-! ## atoms of expressions -/

/-- No `x` stands outside brackets, in a text that starts at depth `d`. -/
def noneOutside (x : Char) : Nat → Text → Bool
  | _, [] => true
  | d, c :: t => !(d == 0 && c == x) && noneOutside x (depthAfter d c) t

lemma isPlain_of_noneOutside {t : Text} (h : noneOutside '-' 0 t = true) : t.isPlain = true := by
  by_contra hn
  obtain ⟨r, rfl⟩ := exists_of_not_isPlain (Bool.not_eq_true _ ▸ hn)
  have hyphen : noneOutside '-' 0 ("inline-".toList ++ r) = false := rfl
  rw [hyphen] at h
  cases h

/-- Splitting at one character leaves none of it outside brackets, and brings none of another there. -/
lemma splitOutsideFrom_noneOutside {x sep : Char} (hsep : depthAfter 0 sep = 0) (d : Nat) (t : Text)
    (h : x = sep ∨ noneOutside x d t = true) :
    ∃ q qs, splitOutsideFrom sep d t = q :: qs ∧ noneOutside x d q = true ∧ ∀ q' ∈ qs, noneOutside x 0 q' = true := by
  induction t generalizing d with
  | nil => exact ⟨[], [], rfl, rfl, by simp⟩
  | cons c t ih =>
    have hrest : x = sep ∨ noneOutside x (depthAfter d c) t = true :=
      h.imp_right fun hx => (Bool.and_eq_true_iff.1 hx).2
    unfold splitOutsideFrom
    by_cases hc : d = 0 ∧ c = sep
    · obtain ⟨rfl, rfl⟩ := hc
      rw [hsep] at hrest
      obtain ⟨q, qs, hq, hhead, htail⟩ := ih 0 hrest
      rw [if_pos ⟨rfl, rfl⟩, hq]
      refine ⟨[], q :: qs, rfl, rfl, ?_⟩
      intro q' hq'
      rcases List.mem_cons.1 hq' with rfl | hq'
      · exact hhead
      · exact htail q' hq'
    · obtain ⟨q, qs, hq, hhead, htail⟩ := ih (depthAfter d c) hrest
      rw [if_neg hc, hq]
      refine ⟨c :: q, qs, rfl, ?_, htail⟩
      have hfirst : (!(d == 0 && c == x)) = true := by
        rcases h with rfl | hx
        · simpa [Decidable.imp_iff_not_or] using hc
        · exact (Bool.and_eq_true_iff.1 hx).1
      unfold noneOutside
      rw [hfirst, hhead]
      rfl

lemma noneOutside_of_mem {x sep : Char} (hsep : depthAfter 0 sep = 0) {t q : Text}
    (h : x = sep ∨ noneOutside x 0 t = true) (hq : q ∈ splitOutside sep t) : noneOutside x 0 q = true := by
  obtain ⟨p, ps, hsplit, hhead, htail⟩ := splitOutsideFrom_noneOutside hsep 0 t h
  unfold splitOutside at hq
  rw [hsplit] at hq
  rcases List.mem_cons.1 hq with rfl | hq
  · exact hhead
  · exact htail q hq

end Text

namespace Arith

/-- Every atom satisfies `P`. -/
def All (P : Text → Prop) : Arith → Prop
  | atom t => P t
  | op _ l r => l.All P ∧ r.All P

lemma all_chain {P : Text → Prop} (hnil : P []) (s : Sign) {as : List Arith} (h : ∀ a ∈ as, a.All P) :
    (chain s as).All P := by
  have hfold : ∀ (as : List Arith) (a : Arith), a.All P → (∀ b ∈ as, b.All P) → (as.foldl (.op s) a).All P := by
    intro as
    induction as with
    | nil => exact fun a ha _ => ha
    | cons b bs ih =>
      intro a ha hbs
      exact ih _ ⟨ha, hbs b List.mem_cons_self⟩ fun c hc => hbs c (List.mem_cons_of_mem _ hc)
  cases as with
  | nil => exact hnil
  | cons a as => exact hfold as a (h a List.mem_cons_self) fun b hb => h b (List.mem_cons_of_mem _ hb)

/-- **No atom of an expression begins as the name of a macro made for a template argument.** -/
theorem all_isPlain_read (t : Text) : (read t).All fun u => u.isPlain = true := by
  induction hn : t.length using Nat.strongRecOn generalizing t with
  | _ n ih =>
    have hnil : Text.isPlain [] = true := by decide
    rw [read_eq]
    refine all_chain hnil _ fun a ha => ?_
    obtain ⟨sum, hsum, rfl⟩ := List.mem_map.1 ha
    refine all_chain hnil _ fun a ha => ?_
    obtain ⟨product, hproduct, rfl⟩ := List.mem_map.1 ha
    refine all_chain hnil _ fun a ha => ?_
    obtain ⟨operand, hoperand, rfl⟩ := List.mem_map.1 ha
    cases hu : Text.unbracket? operand with
    | some inner =>
      have h₁ := Text.length_le_of_mem_splitOutside hsum
      have h₂ := Text.length_le_of_mem_splitOutside hproduct
      have h₃ := Text.length_le_of_mem_splitOutside hoperand
      have h₄ := Text.length_of_unbracket? hu
      exact ih inner.length (by omega) inner rfl
    | none =>
      -- split first at hyphens; the pieces of the pieces hold no hyphen outside brackets either
      have hs := Text.noneOutside_of_mem (x := '-') (by decide) (Or.inl rfl) hsum
      have hp := Text.noneOutside_of_mem (by decide) (Or.inr hs) hproduct
      have ho := Text.noneOutside_of_mem (by decide) (Or.inr hp) hoperand
      exact Text.isPlain_of_noneOutside ho

end Arith
end MacroAsm
