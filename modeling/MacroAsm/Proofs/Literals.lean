import MacroAsm.Proofs.Bytes
import MacroAsm.Proofs.InlineNames
import MacroAsm.Proofs.Readings

/-!
# Values of template arguments

A template argument that is evaluated is a numeral or has an operator outside brackets. Either way its value is a
machine word. One that reaches into the stack gives an operation, unless the place is out of reach.

* `Arith.Bounded a`: the value of `a` is a machine word, whatever its names stand for;
* `Arith.bounded_of_isLiteral`: what is evaluated is bounded;
* `StackFamily.ofMnemonic?_stem`: the operation of a place in the stack;
* `StackOffset.opcode_eq_error`: the only way in which a place in the stack is refused.
-/

namespace MacroAsm

/-- The value is brought into the range of a word at the root: an operation, or a numeral. -/
def Arith.Bounded : Arith → Prop
  | atom t => (Numeral.value? t).isSome = true
  | op .. => True

lemma Word.wrap_lt (n : Nat) : Word.wrap n < Word.modulus := Nat.mod_lt n (by decide)

lemma Sign.apply_lt (s : Sign) (a b : Nat) : s.apply a b < Word.modulus := by
  cases s <;> exact Word.wrap_lt _

/-! ## pieces -/

namespace Text

variable {sep : Char} {d : Nat} {t : Text}

lemma length_consFirst (c : Char) {ps : List Text} (h : ps ≠ []) : (consFirst c ps).length = ps.length := by
  cases ps with
  | nil => exact absurd rfl h
  | cons p ps => rfl

lemma splitOutsideFrom_eq_singleton (h : (splitOutsideFrom sep d t).length ≤ 1) : splitOutsideFrom sep d t = [t] := by
  induction t generalizing d with
  | nil => rfl
  | cons c t ih =>
    unfold splitOutsideFrom at h ⊢
    split at h
    · have hpos := List.length_pos_iff.2 (splitOutsideFrom_ne_nil sep 0 t)
      rw [List.length_cons] at h
      omega
    · next hc =>
      rw [length_consFirst c (splitOutsideFrom_ne_nil _ _ _)] at h
      rw [if_neg hc, ih h]
      rfl

lemma splitOutsideFrom_of_not_mem (h : sep ∉ t) : splitOutsideFrom sep d t = [t] := by
  induction t generalizing d with
  | nil => rfl
  | cons c t ih =>
    have hc : ¬ (d = 0 ∧ c = sep) := by
      rintro ⟨-, rfl⟩
      exact h List.mem_cons_self
    rw [splitOutsideFrom, if_neg hc, ih fun hmem => h (List.mem_cons_of_mem _ hmem)]
    rfl

/-- Characters that neither separate nor bracket can be left out without a change in the number of pieces. -/
lemma length_splitOutsideFrom_filter {p : Char → Bool} (hsep : p sep = true) (hopen : p '<' = true)
    (hclose : p '>' = true) :
    (splitOutsideFrom sep d (t.filter p)).length = (splitOutsideFrom sep d t).length := by
  induction t generalizing d with
  | nil => rfl
  | cons c t ih =>
    by_cases hc : p c = true
    · rw [List.filter_cons_of_pos hc]
      unfold splitOutsideFrom
      split
      · rw [List.length_cons, List.length_cons, ih]
      · rw [length_consFirst c (splitOutsideFrom_ne_nil _ _ _), length_consFirst c (splitOutsideFrom_ne_nil _ _ _), ih]
    · have hne : ∀ {x : Char}, p x = true → c ≠ x := by
        rintro x hx rfl
        exact hc hx
      have hdepth : depthAfter d c = d := by rw [depthAfter, if_neg (hne hopen), if_neg (hne hclose)]
      rw [List.filter_cons_of_neg hc, splitOutsideFrom, if_neg fun h => hne hsep h.2, hdepth,
        length_consFirst c (splitOutsideFrom_ne_nil _ _ _), ih]

lemma hasOperator_compact (t : Text) : hasOperator (compact t) = hasOperator t := by
  have hlen : ∀ s : Sign, (splitOutside s.char (compact t)).length = (splitOutside s.char t).length := by
    intro s
    cases s <;> exact length_splitOutsideFrom_filter (by decide) (by decide) (by decide)
  unfold hasOperator
  simp only [hlen]

lemma compact_trim (t : Text) : compact (trim t) = compact t := by
  have hnil : ∀ a : Text, (∀ c ∈ a, isBlank c = true) → compact a = [] := by
    intro a ha
    refine List.filter_eq_nil_iff.2 fun c hc => ?_
    simp [ha c hc]
  obtain ⟨a, b, ht, ha, hb⟩ := exists_eq_trim t
  have happend : compact t = compact a ++ (compact (trim t) ++ compact b) := by
    conv_lhs => rw [ht]
    simp [compact, List.filter_append]
  rw [happend, hnil a ha, hnil b hb, List.nil_append, List.append_nil]

/-- A word is no bracketed group. -/
lemma unbracket?_of_isWord (h : t.isWord = true) : unbracket? t = none := by
  rw [Option.eq_none_iff_forall_ne_some]
  intro inner hinner
  have ht := eq_of_stripBrackets? (Option.filter_eq_some_iff.1 hinner).1
  have hmem : '<' ∈ t := by rw [ht]; simp
  exact ne_of_mem_isWord h hmem (by decide) rfl

lemma compact_of_isWord (h : t.isWord = true) : compact t = t := by
  refine List.filter_eq_self.2 fun c hc => ?_
  simp [isBlank_of_isWordChar (isWordChar_of_mem h hc)]

end Text

/-! ## numerals -/

namespace Numeral

lemma isSome_of_mapM {f : Char → Option Nat} {t : Text} {ds : List Nat} (h : t.mapM f = some ds) :
    ∀ c ∈ t, (f c).isSome = true := by
  induction t generalizing ds with
  | nil =>
    intro c hc
    cases hc
  | cons c t ih =>
    rw [List.mapM_cons] at h
    obtain ⟨d, hd, h⟩ := Option.bind_eq_some_iff.1 h
    obtain ⟨ds', hds, -⟩ := Option.bind_eq_some_iff.1 h
    intro x hx
    rcases List.mem_cons.1 hx with rfl | hx
    · rw [hd]
      rfl
    · exact ih hds x hx

lemma isWord_of_digits? {base : Nat} {digit? : Char → Option Nat} {t : Text} (h : (digits? base digit? t).isSome = true)
    (hdigit : ∀ c, (digit? c).isSome = true → isWordChar c = true) : t.isWord = true := by
  unfold digits? at h
  split at h
  · cases h
  · next hne =>
    rw [Option.isSome_map] at h
    obtain ⟨ds, hds⟩ := Option.isSome_iff_exists.1 h
    exact Text.isWord_iff.2 ⟨by simpa using hne, fun c hc => hdigit c (isSome_of_mapM hds c hc)⟩

/-- A numeral is a word. -/
lemma isWord_of_value? {t : Text} (h : (value? t).isSome = true) : t.isWord = true := by
  unfold value? at h
  split at h
  · next hex hhex =>
    have hword := isWord_of_digits? h fun c hc => isWordChar_of_isHexDigit hc
    rw [Text.eq_append_of_dropStart? hhex]
    refine Text.isWord_iff.2 ⟨by simp, fun c hc => ?_⟩
    rcases List.mem_append.1 hc with hc | hc
    · exact Text.isWordChar_of_mem (rfl : Text.isWord "0x".toList = true) hc
    · exact Text.isWordChar_of_mem hword hc
  · refine isWord_of_digits? h fun c hc => ?_
    unfold digitValue? at hc
    split at hc
    · next hdigit => exact isWordChar_iff.2 (Or.inr (Or.inl hdigit))
    · cases hc

end Numeral

/-! ## expressions -/

namespace Arith

lemma chain_singleton (s : Sign) (a : Arith) : chain s [a] = a := rfl

/-- Two operands or more make an operation. -/
lemma bounded_chain {s : Sign} {as : List Arith} (h : 1 < as.length) : (chain s as).Bounded := by
  cases as with
  | nil => simp at h
  | cons a as =>
    rcases List.eq_nil_or_concat as with rfl | ⟨init, last, rfl⟩
    · simp at h
    · rw [chain, List.concat_eq_append, List.foldl_append]
      trivial

/-- A word is an atom. -/
lemma read_of_isWord {t : Text} (h : t.isWord = true) : read t = .atom t := by
  have hsplit : ∀ {sep : Char}, isWordChar sep = false → Text.splitOutside sep t = [t] := by
    intro sep hsep
    exact Text.splitOutsideFrom_of_not_mem fun hmem => Text.ne_of_mem_isWord h hmem hsep rfl
  rw [read_eq, hsplit (by decide)]
  simp only [List.map_cons, List.map_nil, chain_singleton]
  rw [hsplit (by decide)]
  simp only [List.map_cons, List.map_nil, chain_singleton]
  rw [hsplit (by decide)]
  simp only [List.map_cons, List.map_nil, chain_singleton, Text.unbracket?_of_isWord h]

/-- An operator outside brackets stands at the root of some chain, the loosest that there is. -/
lemma bounded_of_hasOperator {t : Text} (h : t.hasOperator = true) : (read t).Bounded := by
  rw [read_eq]
  by_cases hminus : 1 < (Text.splitOutside '-' t).length
  · exact bounded_chain (by simpa using hminus)
  rw [show Text.splitOutside '-' t = [t] from Text.splitOutsideFrom_eq_singleton (Nat.le_of_not_lt hminus)]
  simp only [List.map_cons, List.map_nil, chain_singleton]
  by_cases hplus : 1 < (Text.splitOutside '+' t).length
  · exact bounded_chain (by simpa using hplus)
  rw [show Text.splitOutside '+' t = [t] from Text.splitOutsideFrom_eq_singleton (Nat.le_of_not_lt hplus)]
  simp only [List.map_cons, List.map_nil, chain_singleton]
  obtain ⟨s, -, hs⟩ := List.any_eq_true.1 h
  cases s with
  | minus => exact absurd (of_decide_eq_true hs) hminus
  | plus => exact absurd (of_decide_eq_true hs) hplus
  | times =>
    have htimes : 1 < (Text.splitOutside '*' t).length := of_decide_eq_true hs
    exact bounded_chain (by simpa using htimes)

/-- **What is evaluated is bounded**, with blanks left out. -/
theorem bounded_of_isLiteral {t : Text} (h : t.isLiteral = true) : (read t.compact).Bounded := by
  rw [← Text.compact_trim]
  unfold Text.isLiteral at h
  rcases Bool.or_eq_true_iff.1 h with hvalue | hop
  · have hword := Numeral.isWord_of_value? hvalue
    rw [Text.compact_of_isWord hword, read_of_isWord hword]
    exact hvalue
  · refine bounded_of_hasOperator ?_
    rw [Text.hasOperator_compact]
    exact (Bool.and_eq_true_iff.1 hop).1

end Arith

/-! ## places in the stack -/

namespace StackFamily

/-- The byte before the first operation of a family. -/
def before : StackFamily → Nat
  | dup => 0x7f
  | swap => 0x8f

/-- The operations of a family have the bytes behind one another. -/
lemma ofMnemonic?_stem (family : StackFamily) {p : Nat} (hlow : 1 ≤ p) (hhigh : p ≤ 16) :
    Opcode.ofMnemonic? (family.stem ++ Text.decimal p) = some (UInt8.ofNat (family.before + p)) := by
  have hall : ∀ p < 17, 1 ≤ p → ∀ family ∈ [dup, swap],
      Opcode.ofMnemonic? (family.stem ++ Text.decimal p) = some (UInt8.ofNat (family.before + p)) := by
    decide +kernel
  exact hall p (by omega) hlow family (by cases family <;> simp)

end StackFamily

/-- A place in the stack is refused only for being out of reach. -/
lemma StackOffset.opcode_eq_error {s : StackOffset} {cause : Cause} (h : s.opcode = .error cause) :
    cause = .stackPosition s.base s.sign s.offset s.position? := by
  unfold opcode at h
  split at h
  · cases h
    rfl
  · next p hp =>
    simp only at h
    split at h
    · cases h
    · next hnone =>
      have hrange := (Option.filter_eq_some_iff.1 hp).2
      simp only [Bool.and_eq_true, decide_eq_true_eq] at hrange
      rw [s.family.ofMnemonic?_stem hrange.1 hrange.2] at hnone
      cases hnone

end MacroAsm
