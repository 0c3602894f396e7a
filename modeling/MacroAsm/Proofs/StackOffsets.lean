import MacroAsm.Proofs.Substitution

/-!
# Places in the stack

A stack operation with an offset is `dup` or `swap`, a numeral, a plus or a minus, and a numeral, with blanks around
each of them. Its place is a number of any size, and only the sixteen places that have an operation of their own are in
reach.

* `StackOffset.Spells s n m t`: `t` has the parts `s`, whose numerals have the values `n` and `m`;
* `StackOffset.read?_eq_some_iff`: the texts that are read are these, each with its own parts;
* `StackOffset.Spells.opcode_cases`: the operation of a place, and which places have none;
* `opcodeOf_classifies`: what becomes of every text.
-/

namespace MacroAsm

namespace Text

/-- Blanks around a trimmed text are cut off. -/
lemma trim_padded {a v e : Text} (ha : allBlank a = true) (hv : Trimmed v) (he : allBlank e = true) :
    trim (a ++ (v ++ e)) = v := by
  obtain ⟨htrim, hne⟩ := trimmed_iff.1 hv
  obtain ⟨hfront, hend⟩ := ends_of_trim_eq htrim
  have hdrop : (a ++ (v ++ e)).dropWhile isBlank = v ++ e := by
    rw [List.dropWhile_append_of_pos (List.all_eq_true.1 ha), List.dropWhile_append, hfront,
      if_neg (by simpa using hne)]
  rw [trim, hdrop, trimEnd_append_blank he, hend]

/-- What begins and ends with a word is trimmed. -/
lemma trimmed_of_ends {w v : Text} (hw : w.isWord = true) (u : Text) (hv : v.isWord = true) :
    Trimmed (w ++ (u ++ v)) := by
  obtain ⟨x, w, rfl, hx⟩ := exists_cons_of_isWord hw
  have hne := (isWord_iff.1 hv).1
  refine trimmed_iff.2 ⟨trim_eq_self (fun c hc => ?_) fun c hc => ?_, by simp⟩
  · have hc : x = c := by simpa using hc
    rw [← hc]
    exact isBlank_of_isWordChar hx
  · rw [← List.append_assoc, List.getLast?_append_of_ne_nil _ hne] at hc
    exact isBlank_of_isWordChar (isWordChar_of_mem hv (List.mem_of_getLast? hc))

end Text

lemma StackFamily.isWord_stem (family : StackFamily) : family.stem.isWord = true := by
  cases family <;> rfl

namespace StackOffset

/-- The text `t` is a stem, a numeral of value `n`, a sign and a numeral of value `m`, with blanks around each. -/
structure Spells (s : StackOffset) (n m : Nat) (t : Text) : Prop where
  base : Numeral.Spells s.base n
  sign : s.sign = '+' ∨ s.sign = '-'
  offset : Numeral.Spells s.offset m
  text : ∃ a b c d e : Text, (∀ blanks ∈ [a, b, c, d, e], blanks.allBlank = true) ∧
    t = a ++ s.family.stem ++ b ++ s.base ++ c ++ [s.sign] ++ d ++ s.offset ++ e

/-- The place that the sum or the difference of two numbers gives. It may lie below zero. -/
def place (s : StackOffset) (n m : Nat) : Int := if s.sign = '+' then n + m else n - m

/-! ## reading -/

lemma isSign_iff {c : Char} : isSign c = true ↔ c = '+' ∨ c = '-' := by
  simp [isSign]

lemma family?_eq_some_iff {t r : Text} {family : StackFamily} :
    family? t = some (family, r) ↔ t = family.stem ++ r := by
  constructor
  · intro h
    unfold family? at h
    split at h
    · next rest hrest =>
      obtain ⟨rfl, rfl⟩ := Prod.mk.inj (Option.some.inj h)
      exact Text.eq_append_of_dropStart? hrest
    · obtain ⟨rest, hrest, heq⟩ := Option.map_eq_some_iff.1 h
      obtain ⟨rfl, rfl⟩ := Prod.mk.inj heq
      exact Text.eq_append_of_dropStart? hrest
  · rintro rfl
    cases family with
    | dup => rw [family?, Text.dropStart?_append]
    | swap =>
      -- no text starts with both stems
      have hdup : Text.dropStart? StackFamily.dup.stem (StackFamily.swap.stem ++ r) = none := rfl
      rw [family?, hdup, Text.dropStart?_append]
      rfl

/-- The parts of a text, found at the first sign behind the stem. -/
lemma read?_eq_some_iff_trim {t : Text} {s : StackOffset} :
    read? t = some s ↔ ∃ u v, Text.trim t = s.family.stem ++ (u ++ s.sign :: v) ∧ (∀ c ∈ u, isSign c = false) ∧
      isSign s.sign = true ∧ s.base = Text.trim u ∧ s.offset = Text.trim v ∧
      (Numeral.value? s.base).isSome = true ∧ (Numeral.value? s.offset).isSome = true := by
  constructor
  · intro h
    unfold read? at h
    split at h
    · cases h
    · next family rest hfamily =>
      split at h
      · cases h
      · next sign after hdrop =>
        simp only at h
        split at h
        · next hvalues =>
          cases h
          have hsign := List.head?_dropWhile_not (fun c => !isSign c) rest
          rw [hdrop] at hsign
          have hrest : rest = rest.takeWhile (fun c => !isSign c) ++ sign :: after := by
            rw [← hdrop, List.takeWhile_append_dropWhile]
          refine ⟨_, after, ?_, fun c hc => ?_, by simpa using hsign, rfl, rfl, Bool.and_eq_true_iff.1 hvalues⟩
          · rw [← hrest]
            exact family?_eq_some_iff.1 hfamily
          · simpa using List.mem_takeWhile_imp hc
        · cases h
  · rintro ⟨u, v, htrim, hu, hsign, hbase, hoffset, hvalues⟩
    have hcut := Text.takeWhile_append_of_head (p := fun c => !isSign c) (w := u) (r := s.sign :: v)
      (fun c hc => by simp [hu c hc]) (by simpa using hsign)
    rw [read?, family?_eq_some_iff.2 htrim]
    simp only [hcut.1, hcut.2, ← hbase, ← hoffset, hvalues.1, hvalues.2, Bool.and_self, if_true]

/-- Neither blanks nor words hold a sign. -/
lemma isSign_eq_false {c : Char} (h : isBlank c = true ∨ isWordChar c = true) : isSign c = false := by
  by_contra hsign
  rcases isSign_iff.1 (by simpa using hsign) with rfl | rfl <;> exact absurd h (by decide)

/-- **The texts that are read** are a stem, a numeral, a sign and a numeral, with blanks around each. -/
theorem read?_eq_some_iff {t : Text} {s : StackOffset} : read? t = some s ↔ ∃ n m, s.Spells n m t := by
  rw [read?_eq_some_iff_trim]
  constructor
  · rintro ⟨u, v, htrim, -, hsign, hbase, hoffset, hn, hm⟩
    obtain ⟨n, hn⟩ := Option.isSome_iff_exists.1 hn
    obtain ⟨m, hm⟩ := Option.isSome_iff_exists.1 hm
    obtain ⟨a, e, ht, ha, he⟩ := Text.exists_eq_trim t
    obtain ⟨b, c, hu, hb, hc⟩ := Text.exists_eq_trim u
    obtain ⟨d, e', hv, hd, he'⟩ := Text.exists_eq_trim v
    have hend : ∀ x ∈ e' ++ e, isBlank x = true := List.forall_mem_append.2 ⟨he', he⟩
    refine ⟨n, m, Numeral.value?_eq_some_iff.1 hn, isSign_iff.1 hsign, Numeral.value?_eq_some_iff.1 hm,
      a, b, c, d, e' ++ e, ?_, ?_⟩
    · simp only [List.forall_mem_cons, Text.allBlank, List.all_eq_true]
      exact ⟨ha, hb, hc, hd, hend, by simp⟩
    · rw [← hbase] at hu
      rw [← hoffset] at hv
      rw [ht, htrim, hu, hv]
      simp only [List.append_assoc, List.cons_append, List.nil_append]
  · rintro ⟨n, m, hbase, hsign, hoffset, a, b, c, d, e, hblanks, ht⟩
    simp only [List.forall_mem_cons] at hblanks
    obtain ⟨ha, hb, hc, hd, he, -⟩ := hblanks
    have hmiddle := Text.trimmed_of_ends s.family.isWord_stem (b ++ (s.base ++ c) ++ s.sign :: d) hoffset.isWord
    refine ⟨b ++ (s.base ++ c), d ++ s.offset, ?_, ?_, isSign_iff.2 hsign, ?_, ?_, ?_, ?_⟩
    · have htrim := Text.trim_padded ha hmiddle he
      simp only [List.append_assoc, List.cons_append, List.nil_append] at ht htrim ⊢
      rw [ht, htrim]
    · have hblank : ∀ {x : Text}, x.allBlank = true → ∀ y ∈ x, isSign y = false := fun hx y hy =>
        isSign_eq_false (Or.inl (List.all_eq_true.1 hx y hy))
      have hword : ∀ y ∈ s.base, isSign y = false := fun y hy =>
        isSign_eq_false (Or.inr (Text.isWordChar_of_mem hbase.isWord hy))
      exact List.forall_mem_append.2 ⟨hblank hb, List.forall_mem_append.2 ⟨hword, hblank hc⟩⟩
    · exact (Text.trim_padded hb (Text.trimmed_of_isWord hbase.isWord) hc).symm
    · have htrim := Text.trim_padded (e := []) hd (Text.trimmed_of_isWord hoffset.isWord) rfl
      rw [List.append_nil] at htrim
      exact htrim.symm
    · rw [Numeral.value?_eq_some_iff.2 hbase]
      rfl
    · rw [Numeral.value?_eq_some_iff.2 hoffset]
      rfl

lemma read?_eq_none_iff {t : Text} : read? t = none ↔ ∀ s n m, ¬ Spells s n m t := by
  rw [Option.eq_none_iff_forall_ne_some]
  refine forall_congr' fun s => ?_
  rw [ne_eq, read?_eq_some_iff]
  simp only [not_exists]

/-- A stack operation with an offset is no literal: its sign makes it no numeral, and it is read as what it is. -/
lemma isLiteral_of_read? {t : Text} {s : StackOffset} (h : read? t = some s) : t.isLiteral = false := by
  have hnumeral : (Numeral.value? (Text.trim t)).isSome = false := by
    obtain ⟨u, v, htrim, -, hsign, -⟩ := read?_eq_some_iff_trim.1 h
    by_contra hvalue
    have hword := Numeral.isWord_of_value? (Bool.eq_true_of_not_eq_false hvalue)
    have hmem : s.sign ∈ Text.trim t := by simp [htrim]
    rw [isSign_eq_false (Or.inr (Text.isWordChar_of_mem hword hmem))] at hsign
    cases hsign
  have hread : read? (Text.trim t) = some s := by
    rw [read?_eq_some_iff_trim, Text.trim_trim]
    exact read?_eq_some_iff_trim.1 h
  rw [Text.isLiteral, hnumeral, hread]
  simp

/-! ## the operation -/

/-- The place in the stack is the one that the numbers give, if it is not below zero. -/
lemma Spells.position?_eq_some_iff {s : StackOffset} {n m : Nat} {t : Text} (h : s.Spells n m t) {k : Nat} :
    s.position? = some k ↔ s.place n m = k := by
  rw [position?, Numeral.value?_eq_some_iff.2 h.base, Numeral.value?_eq_some_iff.2 h.offset, place]
  simp only [Option.getD_some]
  split
  · rw [Option.some.injEq]
    omega
  · split
    · rw [Option.some.injEq]
      omega
    · simp only [reduceCtorEq, false_iff]
      omega

/-- **The operation of a place.** The places from 1 to 16 have one each, and no other place has any. -/
lemma Spells.opcode_cases {s : StackOffset} {n m : Nat} {t : Text} (h : s.Spells n m t) :
    (1 ≤ s.place n m ∧ s.place n m ≤ 16 ∧
      ∃ b, s.opcode = .ok b ∧ (b.toNat : Int) = s.family.before + s.place n m) ∨
    (¬ (1 ≤ s.place n m ∧ s.place n m ≤ 16) ∧
      s.opcode = .error (.stackPosition s.base s.sign s.offset s.position?)) := by
  by_cases hrange : 1 ≤ s.place n m ∧ s.place n m ≤ 16
  · left
    obtain ⟨k, hk⟩ := Int.eq_ofNat_of_zero_le (show 0 ≤ s.place n m by omega)
    have hlow : 1 ≤ k := by omega
    have hhigh : k ≤ 16 := by omega
    have hfilter : s.position?.filter (fun p => 1 ≤ p && p ≤ 16) = some k := by
      rw [h.position?_eq_some_iff.2 hk]
      exact Option.filter_some_pos (by simp [hlow, hhigh])
    have hopcode : s.opcode = .ok (UInt8.ofNat (s.family.before + k)) := by
      simp only [opcode, hfilter, s.family.ofMnemonic?_stem hlow hhigh]
    refine ⟨hrange.1, hrange.2, _, hopcode, ?_⟩
    have hbyte : s.family.before + k < 256 := by
      cases s.family <;> simp only [StackFamily.before] <;> omega
    rw [hk, UInt8.toNat_ofNat', Nat.mod_eq_of_lt hbyte]
    rfl
  · right
    have hfilter : s.position?.filter (fun p => 1 ≤ p && p ≤ 16) = none := by
      rw [Option.filter_eq_none_iff]
      intro k hk
      have hplace := h.position?_eq_some_iff.1 hk
      simp only [Bool.and_eq_true, decide_eq_true_eq]
      omega
    exact ⟨hrange, by simp only [opcode, hfilter]⟩

end StackOffset

/-- **Stack operations with an offset.** A text that spells one is taken for one and not for a literal; it gives the
operation of its place if that is a place from 1 to 16, and is out of range otherwise. Any other text is refused. -/
theorem opcodeOf_classifies (t : Text) :
    (∀ (s : StackOffset) (n m : Nat), s.Spells n m t →
      (StackOffset.read? t).isSome = true ∧ t.isLiteral = false ∧
      (1 ≤ s.place n m ∧ s.place n m ≤ 16 →
        ∃ b, StackOffset.opcodeOf t = .ok b ∧ (b.toNat : Int) = s.family.before + s.place n m) ∧
      (¬ (1 ≤ s.place n m ∧ s.place n m ≤ 16) →
        ∃ cause, StackOffset.opcodeOf t = .error cause ∧ cause.kind = .range)) ∧
    ((∀ (s : StackOffset) (n m : Nat), ¬ s.Spells n m t) →
      (StackOffset.read? t).isSome = false ∧
      ∃ cause, StackOffset.opcodeOf t = .error cause ∧ cause.kind = .parse) := by
  constructor
  · intro s n m h
    have hread := StackOffset.read?_eq_some_iff.2 ⟨n, m, h⟩
    have hopcode : StackOffset.opcodeOf t = s.opcode := by rw [StackOffset.opcodeOf, hread]
    rw [hopcode]
    refine ⟨by rw [hread]; rfl, StackOffset.isLiteral_of_read? hread, ?_, ?_⟩
    · rintro ⟨hlow, hhigh⟩
      rcases h.opcode_cases with ⟨-, -, hok⟩ | ⟨hout, -⟩
      · exact hok
      · exact absurd ⟨hlow, hhigh⟩ hout
    · intro hout
      rcases h.opcode_cases with ⟨hlow, hhigh, -⟩ | ⟨-, herr⟩
      · exact absurd ⟨hlow, hhigh⟩ hout
      · exact ⟨_, herr, rfl⟩
  · intro h
    have hread := StackOffset.read?_eq_none_iff.2 h
    refine ⟨by rw [hread]; rfl, .notStackOffset t, ?_, rfl⟩
    rw [StackOffset.opcodeOf, hread]

/-- Sixteen less five between blanks and with zeros in front, a sum that is one but for 64 bits, and a text without a
sign. -/
theorem opcodeOf_classifies_parts :
    (∃ b, StackOffset.opcodeOf " swap 0x0010 -\t005 ".toList = .ok b ∧ (b.toNat : Int) = 0x9a) ∧
    (∃ cause, StackOffset.opcodeOf "dup18446744073709551616+1".toList = .error cause ∧ cause.kind = .range) ∧
    ∃ cause, StackOffset.opcodeOf "dup1".toList = .error cause ∧ cause.kind = .parse := by
  have hswap : StackOffset.Spells ⟨.swap, "0x0010".toList, '-', "005".toList⟩ 16 5 " swap 0x0010 -\t005 ".toList :=
    ⟨Numeral.value?_eq_some_iff.1 (by decide), Or.inr rfl, Numeral.value?_eq_some_iff.1 (by decide),
      [' '], [' '], [' '], ['\t'], [' '], by decide, rfl⟩
  have hdup : StackOffset.Spells ⟨.dup, "18446744073709551616".toList, '+', "1".toList⟩ 18446744073709551616 1
      "dup18446744073709551616+1".toList :=
    ⟨Numeral.value?_eq_some_iff.1 (by decide), Or.inl rfl, Numeral.value?_eq_some_iff.1 (by decide),
      [], [], [], [], [], by decide, rfl⟩
  have hnone : ∀ (s : StackOffset) (n m : Nat), ¬ s.Spells n m "dup1".toList :=
    StackOffset.read?_eq_none_iff.1 (by decide)
  exact ⟨((opcodeOf_classifies _).1 _ _ _ hswap).2.2.1 (by decide),
    ((opcodeOf_classifies _).1 _ _ _ hdup).2.2.2 (by decide), ((opcodeOf_classifies _).2 hnone).2⟩

end MacroAsm
