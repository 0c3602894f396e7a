import Mathlib.Tactic.Common
import MacroAsm.Op

/-!
# Values, bytes and digits

* `Bytes.toNat_ofNat`, `Bytes.length_ofNat_le_iff`: the bytes of a value have that value, and are as few as can be;
* `Bytes.ofHex?_toHex`: bytes written in digits are read back;
* `Numeral.exists_digits`: a number is the value of its digits in a base; `Numeral.value?_hexadecimal`;
* `Opcode.pushOf?_eq_some_iff`: the push that carries a number of bytes;
* `OpKind.pushValue?_eq_none_iff`: a value has a push unless it is no machine word.
-/

namespace MacroAsm

namespace Bytes

/-! ## values -/

lemma toNat_append_singleton (bs : Bytes) (b : UInt8) : toNat (bs ++ [b]) = 256 * toNat bs + b.toNat := by
  unfold toNat
  rw [List.foldl_append]
  rfl

lemma toNat_significant (n : Nat) : toNat (significant n) = n := by
  induction n using Nat.strongRecOn with
  | _ n ih =>
    rw [significant]
    split
    · next hzero =>
      rw [hzero]
      rfl
    · next hpos =>
      have hdiv := ih (n / 256) (Nat.div_lt_self (by omega) (by omega))
      have hbyte : (UInt8.ofNat (n % 256)).toNat = n % 256 := by
        rw [UInt8.toNat_ofNat']
        omega
      rw [toNat_append_singleton, hdiv, hbyte]
      omega

/-- The bytes of a value have that value. -/
theorem toNat_ofNat (n : Nat) : toNat (ofNat n) = n := by
  unfold ofNat
  split
  · next hzero =>
    rw [hzero]
    rfl
  · exact toNat_significant n

lemma length_significant_le_iff {n w : Nat} : (significant n).length ≤ w ↔ n < Nat.pow 256 w := by
  induction w generalizing n with
  | zero =>
    rw [significant]
    split
    · next hzero => simp [hzero]
    · next hpos => simp [hpos]
  | succ w ih =>
    have hpow : Nat.pow 256 (w + 1) = Nat.pow 256 w * 256 := rfl
    rw [significant, hpow]
    split
    · next hzero =>
      have : 0 < Nat.pow 256 w := Nat.pow_pos (by decide)
      simp only [hzero, List.length_nil, Nat.zero_le, true_iff]
      omega
    · rw [List.length_append, List.length_singleton, Nat.add_le_add_iff_right, ih, Nat.div_lt_iff_lt_mul (by decide)]

/-- A value takes no more bytes than it needs; zero takes one. -/
theorem length_ofNat_le_iff {n w : Nat} (hw : 0 < w) : (ofNat n).length ≤ w ↔ n < Nat.pow 256 w := by
  unfold ofNat
  split
  · next hzero =>
    have : 0 < Nat.pow 256 w := Nat.pow_pos (by decide)
    simp only [hzero, List.length_singleton]
    omega
  · exact length_significant_le_iff

lemma length_ofNat_pos (n : Nat) : 0 < (ofNat n).length := by
  unfold ofNat
  split
  · decide
  · next hpos =>
    rw [significant, if_neg hpos]
    simp

/-! ## digits -/

lemma hexValue?_digitChar {d : Nat} (h : d < 16) : hexValue? (Nat.digitChar d) = some d := by
  revert d
  decide

lemma byte_digits_lt (b : UInt8) : b.toNat / 16 < 16 ∧ b.toNat % 16 < 16 := by
  have := b.toNat_lt
  omega

lemma mapM_hexValue?_toHex (bs : Bytes) :
    (toHex bs).mapM hexValue? = some (bs.flatMap fun b => [b.toNat / 16, b.toNat % 16]) := by
  induction bs with
  | nil => rfl
  | cons b bs ih =>
    have hb := byte_digits_lt b
    have hcons : toHex (b :: bs) = Nat.digitChar (b.toNat / 16) :: Nat.digitChar (b.toNat % 16) :: toHex bs := rfl
    rw [hcons, List.mapM_cons, List.mapM_cons, hexValue?_digitChar hb.1, hexValue?_digitChar hb.2, ih]
    rfl

lemma ofDigitPairs_flatMap (bs : Bytes) : ofDigitPairs (bs.flatMap fun b => [b.toNat / 16, b.toNat % 16]) = bs := by
  induction bs with
  | nil => rfl
  | cons b bs ih =>
    have hb : 16 * (b.toNat / 16) + b.toNat % 16 = b.toNat := by omega
    rw [List.flatMap_cons, List.cons_append, List.cons_append, List.nil_append, ofDigitPairs, ih, hb, UInt8.ofNat_toNat]

lemma length_toHex (bs : Bytes) : (toHex bs).length = 2 * bs.length := by
  induction bs with
  | nil => rfl
  | cons b bs ih =>
    have hcons : toHex (b :: bs) = hexDigits b ++ toHex bs := rfl
    rw [hcons, List.length_append, ih]
    simp [hexDigits]
    omega

/-- **Bytes written in digits are read back.** -/
theorem ofHex?_toHex {bs : Bytes} (h : bs ≠ []) : ofHex? (toHex bs) = some bs := by
  have hlen := length_toHex bs
  have hpos : 0 < bs.length := List.length_pos_iff.2 h
  have hne : (toHex bs).isEmpty = false := by
    rw [← Bool.not_eq_true, List.isEmpty_iff]
    intro hnil
    rw [hnil, List.length_nil] at hlen
    omega
  have heven : (toHex bs).length % 2 ≠ 1 := by omega
  simp [ofHex?, hne, mapM_hexValue?_toHex, heven, ofDigitPairs_flatMap]

lemma isHexDigit_of_mem_toHex {bs : Bytes} {c : Char} (h : c ∈ toHex bs) : isHexDigit c = true := by
  obtain ⟨b, -, hc⟩ := List.mem_flatMap.1 h
  have hb := byte_digits_lt b
  unfold hexDigits at hc
  unfold isHexDigit
  rcases List.mem_cons.1 hc with rfl | hc
  · rw [hexValue?_digitChar hb.1]
    rfl
  · rw [List.mem_singleton.1 hc, hexValue?_digitChar hb.2]
    rfl

end Bytes

namespace Numeral

/-- A number is the value of its digits. -/
lemma exists_digits {base : Nat} {digit? : Char → Option Nat} (hbase : 1 < base)
    (hdigit : ∀ d, d < base → digit? (Nat.digitChar d) = some d) (n : Nat) :
    ∃ ds, (Nat.toDigits base n).mapM digit? = some ds ∧ ofDigits base ds = n := by
  induction n using Nat.strongRecOn with
  | ind n ih =>
    by_cases hlt : n < base
    · rw [Nat.toDigits_of_lt_base hlt]
      exact ⟨[n], by simp [hdigit n hlt], by simp [ofDigits]⟩
    · have hle := Nat.not_lt.1 hlt
      obtain ⟨ds, hds, hval⟩ := ih (n / base) (Nat.div_lt_self (by omega) hbase)
      have hlast := hdigit (n % base) (Nat.mod_lt n (by omega))
      rw [Nat.toDigits_of_base_le hbase hle]
      refine ⟨ds ++ [n % base], by simp [List.mapM_append, hds, hlast], ?_⟩
      unfold ofDigits at hval ⊢
      rw [List.foldl_append, hval]
      exact Nat.div_add_mod n base

/-- A number written in hexadecimal reads back. -/
theorem value?_hexadecimal (n : Nat) : value? ("0x".toList ++ Text.hexadecimal n) = some n := by
  obtain ⟨ds, hds, hval⟩ := exists_digits (by decide) (fun _ => Bytes.hexValue?_digitChar) n
  have hne : (Text.hexadecimal n).isEmpty = false := List.isEmpty_eq_false_iff.2 Nat.toDigits_ne_nil
  show digits? 16 hexValue? (Text.hexadecimal n) = some n
  rw [digits?, hne, Text.hexadecimal, hds]
  exact congrArg some hval

end Numeral

/-! ## pushes -/

namespace Opcode

/-- The push of `width` bytes is the `width`th behind `0x5f`, and there are 32. -/
theorem pushOf?_eq_some_iff {width : Nat} {b : Opcode} :
    pushOf? width = some b ↔ 1 ≤ width ∧ width ≤ 32 ∧ b.toNat = 0x5f + width := by
  unfold pushOf? maxPushWidth
  split
  · next hwidth =>
    have hnat : (UInt8.ofNat (0x5f + width)).toNat = 0x5f + width := by
      rw [UInt8.toNat_ofNat']
      omega
    rw [Option.some.injEq]
    constructor
    · rintro rfl
      exact ⟨hwidth.1, hwidth.2, hnat⟩
    · rintro ⟨-, -, hb⟩
      rw [← UInt8.toNat_inj, hnat, hb]
  · next hwidth =>
    simp only [reduceCtorEq, false_iff]
    omega

lemma pushWidth?_of_pushOf? {width : Nat} {b : Opcode} (h : pushOf? width = some b) : pushWidth? b = some width := by
  obtain ⟨hlow, hhigh, hb⟩ := pushOf?_eq_some_iff.1 h
  have hrange : 0x60 ≤ b ∧ b ≤ 0x7f := by
    rw [UInt8.le_iff_toNat_le, UInt8.le_iff_toNat_le, hb]
    show 0x60 ≤ 0x5f + width ∧ 0x5f + width ≤ 0x7f
    omega
  unfold pushWidth?
  rw [if_pos hrange, hb]
  exact congrArg some (by omega)

end Opcode

lemma Numeral.wrapCount_lt_modulus (n : Nat) : wrapCount n < Word.modulus :=
  Nat.lt_of_lt_of_le (Nat.mod_lt n (by decide)) (by decide)

namespace OpKind

/-- A value has a push unless it is no machine word. -/
theorem pushValue?_eq_none_iff {n : Nat} : pushValue? n = none ↔ Word.modulus ≤ n := by
  have hmodulus : Word.modulus = Nat.pow 256 32 := by decide
  have hlen := Bytes.length_ofNat_le_iff (n := n) (w := 32) (by decide)
  have hpos := Bytes.length_ofNat_pos n
  rw [pushValue?, push?, Option.map_eq_none_iff, hmodulus]
  unfold Opcode.pushOf? Opcode.maxPushWidth
  split
  · simp only [reduceCtorEq, false_iff]
    omega
  · simp only [true_iff]
    omega

/-- A count is a machine word. -/
lemma pushValue?_wrapCount_ne_none (n : Nat) : pushValue? (Numeral.wrapCount n) ≠ none := by
  intro h
  have hwide := pushValue?_eq_none_iff.1 h
  have hword := Numeral.wrapCount_lt_modulus n
  omega

end OpKind
end MacroAsm
