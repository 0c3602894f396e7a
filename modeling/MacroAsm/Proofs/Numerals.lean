import MacroAsm.Proofs.Declarations
import MacroAsm.Proofs.Evaluation
import MacroAsm.Proofs.Tokens

/-!
# Literals

A literal is read as bytes where it is pushed and as a number where it is counted with. The bytes of a decimal literal
are made of its number; those of a hexadecimal literal are made of its digits two by two, and its number is not asked
for. Both are the same number in the end.

* `Bytes.ofNat_toNat`, `Bytes.eq_of_toNat`: bytes are known by their value, if no zero is in front or their number is
  known; `Bytes.toNat_ofDigitPairs`: digits two by two have the value of the digits;
* `Numeral.Literal t`, `Numeral.Encodes t data`: literals, and the bytes that stand for one; `Encodes.unique`;
* `OpReader.next_of_encodes`: the operation of a literal;
* `Numeral.PushedAs`, `Numeral.CountedAs`: a literal alone in a body and in that of a macro;
* `literal_agrees`: literals mean the same everywhere.
-/

namespace MacroAsm

/-! ## bytes and their values -/

namespace Bytes

lemma significant_zero : significant 0 = [] := by rw [significant, if_pos rfl]

/-- Bytes without a zero in front are known by their value. -/
lemma significant_toNat {data : Bytes} (h : data.head? ≠ some 0) : significant (toNat data) = data := by
  induction data using List.reverseRecOn with
  | nil => exact significant_zero
  | append_singleton bs b ih =>
    have hbs : bs.head? ≠ some 0 := fun hzero => h (by rw [List.head?_append, hzero, Option.some_or])
    have hbyte := b.toNat_lt
    -- were it zero, no byte would stand before the last one, and that would be a zero in front
    have hpos : 256 * toNat bs + b.toNat ≠ 0 := by
      intro hzero
      have hval : toNat bs = 0 := by omega
      have hb : b = 0 := UInt8.toNat_inj.1 (by rw [UInt8.toNat_zero]; omega)
      have hnil := ih hbs
      rw [hval, significant_zero] at hnil
      exact h (by rw [← hnil, hb]; rfl)
    have hdiv : (256 * toNat bs + b.toNat) / 256 = toNat bs := by omega
    have hmod : (256 * toNat bs + b.toNat) % 256 = b.toNat := by omega
    rw [toNat_append_singleton, significant, if_neg hpos, hdiv, hmod, ih hbs, UInt8.ofNat_toNat]

/-- The fewest bytes of a value are the only ones without a zero in front, but for the one of zero itself. -/
lemma ofNat_toNat {data : Bytes} (hne : data ≠ []) (hzero : data.head? = some 0 → data = [0]) :
    ofNat (toNat data) = data := by
  by_cases hhead : data.head? = some 0
  · rw [hzero hhead]
    rfl
  · have hsignificant := significant_toNat hhead
    have hpos : toNat data ≠ 0 := by
      intro hval
      rw [hval, significant_zero] at hsignificant
      exact hne hsignificant.symm
    rw [ofNat, if_neg hpos, hsignificant]

lemma head?_significant (n : Nat) : (significant n).head? ≠ some 0 := by
  induction n using Nat.strongRecOn with
  | _ n ih =>
    rw [significant]
    split
    · simp
    · next hpos =>
      by_cases hdiv : n / 256 = 0
      · have hbyte : UInt8.ofNat (n % 256) ≠ 0 := by
          rw [ne_eq, ← UInt8.toNat_inj, UInt8.toNat_ofNat', UInt8.toNat_zero]
          omega
        rw [hdiv, significant_zero]
        simpa using hbyte
      · have hne : significant (n / 256) ≠ [] := by
          rw [significant, if_neg hdiv]
          simp
        rw [List.head?_append_of_ne_nil _ hne]
        exact ih (n / 256) (by omega)

lemma head?_ofNat {n : Nat} (h : (ofNat n).head? = some 0) : ofNat n = [0] := by
  unfold ofNat at h ⊢
  split at h
  · next hzero => rw [if_pos hzero]
  · exact absurd h (head?_significant n)

/-- As many bytes of the same value are the same. -/
lemma eq_of_toNat {a b : Bytes} (hlen : a.length = b.length) (h : toNat a = toNat b) : a = b := by
  induction a using List.reverseRecOn generalizing b with
  | nil => exact (List.length_eq_zero_iff.1 hlen.symm).symm
  | append_singleton as x ih =>
    rcases List.eq_nil_or_concat b with rfl | ⟨bs, y, rfl⟩
    · simp at hlen
    · rw [List.concat_eq_append] at hlen h ⊢
      rw [toNat_append_singleton, toNat_append_singleton] at h
      have hx := x.toNat_lt
      have hy := y.toNat_lt
      rw [ih (by simpa using hlen) (by omega), UInt8.toNat_inj.1 (show x.toNat = y.toNat by omega)]

lemma length_ofDigitPairs (ds : List Nat) : (ofDigitPairs ds).length = ds.length / 2 := by
  fun_induction ofDigitPairs ds with
  | case1 hi lo ds ih =>
    rw [List.length_cons, ih, List.length_cons, List.length_cons]
    omega
  | case2 ds hpair =>
    rcases ds with _ | ⟨hi, _ | ⟨lo, ds⟩⟩
    · rfl
    · simp
    · exact absurd rfl (hpair hi lo ds)

/-- Digits two by two have the value of the digits. -/
lemma toNat_ofDigitPairs {ds : List Nat} (hds : ∀ d ∈ ds, d < 16) (heven : ds.length % 2 = 0) :
    toNat (ofDigitPairs ds) = Numeral.ofDigits 16 ds := by
  have hfold : ∀ n, (ofDigitPairs ds).foldl (fun n b => 256 * n + b.toNat) n = ds.foldl (fun n d => 16 * n + d) n := by
    fun_induction ofDigitPairs ds with
    | case1 hi lo ds ih =>
      intro n
      have hhi := hds hi (by simp)
      have hlo := hds lo (by simp)
      have hbyte : (UInt8.ofNat (16 * hi + lo)).toNat = 16 * hi + lo := by
        rw [UInt8.toNat_ofNat']
        omega
      have hstep : 256 * n + (16 * hi + lo) = 16 * (16 * n + hi) + lo := by omega
      have hshort : ds.length % 2 = 0 := by
        rw [List.length_cons, List.length_cons] at heven
        omega
      rw [List.foldl_cons, List.foldl_cons, List.foldl_cons, hbyte, hstep,
        ih (fun d hd => hds d (by simp [hd])) hshort]
    | case2 ds hpair =>
      intro n
      rcases ds with _ | ⟨hi, _ | ⟨lo, ds⟩⟩
      · rfl
      · cases heven
      · exact absurd rfl (hpair hi lo ds)
  exact hfold 0

/-- The bytes of hexadecimal digits have the value of the digits, and a zero in front makes their number even. -/
lemma exists_ofHex? {t : Text} {ds : List Nat} (hne : t ≠ []) (h : t.mapM hexValue? = some ds)
    (hlen : ds.length = t.length) (hds : ∀ d ∈ ds, d < 16) :
    ∃ data, ofHex? t = some data ∧ toNat data = Numeral.ofDigits 16 ds ∧ data.length = (t.length + 1) / 2 := by
  have hread : ofHex? t = some (ofDigitPairs (if t.length % 2 = 1 then 0 :: ds else ds)) := by
    rw [ofHex?, if_neg (by simpa using hne), h]
    rfl
  rw [hread]
  refine ⟨_, rfl, ?_⟩
  split
  · next hodd =>
    have heven : (0 :: ds).length % 2 = 0 := by
      rw [List.length_cons, hlen]
      omega
    exact ⟨toNat_ofDigitPairs (List.forall_mem_cons.2 ⟨by decide, hds⟩) heven, by
      rw [length_ofDigitPairs, List.length_cons, hlen]⟩
  · next heven =>
    refine ⟨toNat_ofDigitPairs hds (by omega), ?_⟩
    rw [length_ofDigitPairs, hlen]
    omega

end Bytes

/-! ## literals -/

lemma hexValue?_lt {c : Char} {d : Nat} (h : hexValue? c = some d) : d < 16 := by
  unfold hexValue? at h
  split at h
  · next hdigit =>
    have hrange := isDigit_iff.1 hdigit
    have hzero : '0'.toNat = 48 := rfl
    cases h
    omega
  · split at h
    · next hlower =>
      have hhigh : c.toNat ≤ 102 := hlower.2
      have ha : 'a'.toNat = 97 := rfl
      cases h
      omega
    · split at h
      · next hupper =>
        have hhigh : c.toNat ≤ 70 := hupper.2
        have hA : 'A'.toNat = 65 := rfl
        cases h
        omega
      · cases h

namespace Numeral

/-- Where every character is a digit, all digits are found. -/
lemma exists_mapM {digit? : Char → Option Nat} {t : Text} (h : ∀ c ∈ t, (digit? c).isSome = true) :
    ∃ ds, t.mapM digit? = some ds ∧ ds.length = t.length ∧ ∀ d ∈ ds, ∃ c, digit? c = some d := by
  induction t with
  | nil => exact ⟨[], rfl, rfl, fun d hd => absurd hd List.not_mem_nil⟩
  | cons c t ih =>
    obtain ⟨d, hd⟩ := Option.isSome_iff_exists.1 (h c List.mem_cons_self)
    obtain ⟨ds, hds, hlen, hmem⟩ := ih fun x hx => h x (List.mem_cons_of_mem c hx)
    refine ⟨d :: ds, ?_, by rw [List.length_cons, hlen, List.length_cons], List.forall_mem_cons.2 ⟨⟨c, hd⟩, hmem⟩⟩
    rw [List.mapM_cons, hd, hds]
    rfl

/-- Decimal digits, or `0x` and hexadecimal digits of either case. -/
inductive Literal : Text → Prop
  | decimal {t : Text} (hne : t ≠ []) (h : ∀ c ∈ t, c.isDigit = true) : Literal t
  | hexadecimal {t : Text} (hne : t ≠ []) (h : ∀ c ∈ t, isHexDigit c = true) : Literal ("0x".toList ++ t)

/-- The bytes that stand for a literal. They have its value. Those of a decimal literal have no zero in front, unless
they are a single zero; those of a hexadecimal one are as wide as it is written, a lone digit making a byte. -/
structure Encodes (t : Text) (data : Bytes) : Prop where
  value : Spells t (Bytes.toNat data)
  fewest : (∀ c ∈ t, c.isDigit = true) → data ≠ [] ∧ (data.head? = some 0 → data = [0])
  width : ∀ d, t = "0x".toList ++ d → data.length = (d.length + 1) / 2

lemma not_digits_of_hexadecimal {d : Text} : ¬ ∀ c ∈ "0x".toList ++ d, c.isDigit = true := by
  intro h
  exact absurd (h 'x' (by simp)) (by decide)

lemma Literal.of_spells {t : Text} {n : Nat} (h : Spells t n) : Literal t := by
  cases h with
  | decimal hne hds =>
    refine .decimal hne fun c hc => ?_
    have hdigit := isSome_of_mapM hds c hc
    unfold digitValue? at hdigit
    split at hdigit
    · assumption
    · cases hdigit
  | hexadecimal hne hds => exact .hexadecimal hne (isSome_of_mapM hds)

/-- The fewest bytes stand for a decimal literal. -/
lemma encodes_decimal {t : Text} (hne : t ≠ []) (h : ∀ c ∈ t, c.isDigit = true) :
    Encodes t (Bytes.ofNat ((value? t).getD 0)) := by
  have hsome : ∀ c ∈ t, (digitValue? c).isSome = true := fun c hc => by
    rw [digitValue?, if_pos (h c hc)]
    rfl
  obtain ⟨ds, hds, -, -⟩ := exists_mapM hsome
  have hspells := Spells.decimal hne hds
  rw [value?_eq_some_iff.2 hspells, Option.getD_some]
  refine ⟨by rwa [Bytes.toNat_ofNat], fun _ => ⟨?_, Bytes.head?_ofNat⟩, ?_⟩
  · exact List.length_pos_iff.1 (Bytes.length_ofNat_pos _)
  · rintro d rfl
    exact absurd h not_digits_of_hexadecimal

/-- The digits two by two stand for a hexadecimal literal. -/
lemma encodes_hexadecimal {t : Text} (hne : t ≠ []) (h : ∀ c ∈ t, isHexDigit c = true) :
    Encodes ("0x".toList ++ t) ((Bytes.ofHex? t).getD []) := by
  obtain ⟨ds, hds, hlen, hmem⟩ := exists_mapM h
  have hdigit : ∀ d ∈ ds, d < 16 := fun d hd => by
    obtain ⟨c, hc⟩ := hmem d hd
    exact hexValue?_lt hc
  obtain ⟨data, hdata, hvalue, hwidth⟩ := Bytes.exists_ofHex? hne hds hlen hdigit
  rw [hdata, Option.getD_some]
  refine ⟨?_, fun hdecimal => absurd hdecimal not_digits_of_hexadecimal, fun d hd => ?_⟩
  · rw [hvalue, ofDigits_eq]
    exact .hexadecimal hne hds
  · rw [← List.append_cancel_left hd]
    exact hwidth

/-- **One row of bytes stands for a literal.** -/
lemma Encodes.unique {t : Text} {data data' : Bytes} (h : Encodes t data) (h' : Encodes t data') : data = data' := by
  have hvalue : Bytes.toNat data = Bytes.toNat data' := h.value.unique h'.value
  cases Literal.of_spells h.value with
  | decimal hne hdigits =>
    obtain ⟨hne, hzero⟩ := h.fewest hdigits
    obtain ⟨hne', hzero'⟩ := h'.fewest hdigits
    rw [← Bytes.ofNat_toNat hne hzero, hvalue, Bytes.ofNat_toNat hne' hzero']
  | hexadecimal hne hdigits => exact Bytes.eq_of_toNat ((h.width _ rfl).trans (h'.width _ rfl).symm) hvalue

/-- A decimal literal fits a push if its value is a word. -/
lemma Encodes.length_le_iff_of_digits {t : Text} {data : Bytes} (h : Encodes t data) (ht : ∀ c ∈ t, c.isDigit = true) :
    data.length ≤ 32 ↔ Bytes.toNat data < Word.modulus := by
  have hmodulus : Word.modulus = Nat.pow 256 32 := by decide
  obtain ⟨hne, hzero⟩ := h.fewest ht
  rw [hmodulus, ← Bytes.length_ofNat_le_iff (by decide), Bytes.ofNat_toNat hne hzero]

lemma Encodes.ne_nil {t : Text} {data : Bytes} (h : Encodes t data) : data ≠ [] := by
  cases Literal.of_spells h.value with
  | decimal hne hdigits => exact (h.fewest hdigits).1
  | hexadecimal hne hdigits =>
    have hwidth := h.width _ rfl
    have hpos := List.length_pos_iff.2 hne
    rintro rfl
    rw [List.length_nil] at hwidth
    omega

end Numeral

/-! ## literals as operations -/

namespace OpReader

variable {tables : TableSet} {labels : List Text} {c c' : Cursor} {t r : Text}

/-- Bytes that fit are pushed. -/
lemma pushLiteral_cases {data : Bytes} (hne : data ≠ []) (digits : Text) :
    (data.length ≤ 32 ∧ ∃ byte : Opcode, byte.toNat = 0x5f + data.length ∧
      pushLiteral data digits = .ok (.push byte data)) ∨
    (32 < data.length ∧ pushLiteral data digits = .error (.literalTooWide digits)) := by
  by_cases hwidth : data.length ≤ 32
  · left
    have hpos : 1 ≤ data.length := List.length_pos_iff.2 hne
    have hbyte : (UInt8.ofNat (0x5f + data.length)).toNat = 0x5f + data.length := by
      rw [UInt8.toNat_ofNat']
      omega
    exact ⟨hwidth, _, hbyte, pushLiteral_of_pushOf? (Opcode.pushOf?_eq_some_iff.2 ⟨hpos, hwidth, hbyte⟩) digits⟩
  · have hlt := Nat.lt_of_not_le hwidth
    exact Or.inr ⟨hlt, if_pos hlt⟩

/-- A form that makes an operation or fails is the last that is tried. -/
lemma firstFit_cons_of_map {form : Cursor → Attempt} {forms : List (Cursor → Attempt)} {x : Except Cause OpKind}
    (h : form c = x.map fun kind => some (kind, c')) :
    firstFit (form :: forms) c = x.map fun kind => some (kind, c') := by
  rw [firstFit, h]
  cases x <;> rfl

lemma next_of_firstFit {x : Except Cause OpKind}
    (h : firstFit (forms tables labels) c = x.map fun kind => some (kind, c')) :
    next tables labels c = x.map fun kind => (kind, c') := by
  rw [next, h]
  cases x <;> rfl

lemma decimalLiteral_of_digits (hne : t ≠ []) (h : ∀ x ∈ t, x.isDigit = true) (hr : r.breaks = true)
    (hc : c.rest = t ++ r) :
    decimalLiteral c = (pushLiteral (Bytes.ofNat ((Numeral.value? t).getD 0)) t).map fun kind =>
      some (kind, c.behind t r) := by
  have hread : c.takeWhile Char.isDigit = (t, c.behind t r) := by
    refine Cursor.takeWhile_append h (fun x hx => ?_) hc
    have hword := Text.breaks_iff.1 hr x hx
    by_contra hdigit
    rw [isWordChar_iff.2 (Or.inr (Or.inl (by simpa using hdigit)))] at hword
    cases hword
  have hempty : t.isEmpty = false := List.isEmpty_eq_false_iff.2 hne
  have hbreak : (c.behind t r).peek?.any isWordChar = false := by
    simpa [Text.breaks, Cursor.peek?, Cursor.behind] using hr
  simp only [decimalLiteral, hread, hempty, hbreak, Bool.or_false, Bool.false_eq_true, if_false]
  cases pushLiteral (Bytes.ofNat ((Numeral.value? t).getD 0)) t <;> rfl

/-- Digits are no word that another form claims. -/
lemma free_of_digits (hne : t ≠ []) (h : ∀ x ∈ t, x.isDigit = true) : t.Free := by
  have hclaimed : ∀ {s : Text} {x : Char}, x ∈ s → x.isDigit = false → t ≠ s := by
    rintro s x hx hdigit rfl
    rw [h x hx] at hdigit
    cases hdigit
  refine ⟨?_, ?_, ?_, ?_, ?_⟩
  · exact Text.isWord_iff.2 ⟨hne, fun x hx => isWordChar_iff.2 (Or.inr (Or.inl (h x hx)))⟩
  · rintro ⟨d, rfl⟩
    exact Numeral.not_digits_of_hexadecimal h
  · exact hclaimed (x := '_') (by decide) (by decide)
  · exact hclaimed (x := '_') (by decide) (by decide)
  · exact hclaimed (x := '_') (by decide) (by decide)

/-- **A literal is the push of the bytes that stand for it**, if there are not too many. -/
theorem next_of_encodes {data : Bytes} (h : Numeral.Encodes t data) (hr : r.Gapped) (hc : c.rest = t ++ r) :
    ∃ digits, next tables labels c = (pushLiteral data digits).map fun kind => (kind, c.behind t r) := by
  cases Numeral.Literal.of_spells h.value with
  | decimal hne hdigits =>
    refine ⟨t, next_of_firstFit ?_⟩
    rw [firstFit_of_gapped (free_of_digits hne hdigits) hr hc, ← (Numeral.encodes_decimal hne hdigits).unique h]
    exact firstFit_cons_of_map (decimalLiteral_of_digits hne hdigits hr.breaks hc)
  | @hexadecimal d hne hdigits =>
    refine ⟨d, next_of_firstFit ?_⟩
    rw [List.append_assoc] at hc
    have hbehind : (c.behind "0x".toList (d ++ r)).behind d r = c.behind ("0x".toList ++ d) r := by
      simp only [Cursor.behind, Text.byteLength_append, Nat.add_assoc]
    rw [firstFit_of_hex hdigits hr.breaks hc, ← hbehind, ← (Numeral.encodes_hexadecimal hne hdigits).unique h]
    exact firstFit_cons_of_map (hexLiteral_of_digits hne hdigits hr.breaks hc)

end OpReader

/-! ## literals alone -/

namespace Numeral

/-- Alone in a body, with blanks around it, the literal `t` is the push of `data`, at the first byte of `t`. If these
are too many bytes for a push, the body cannot be read. -/
def PushedAs (t : Text) (data : Bytes) : Prop :=
  ∀ ⦃b : Body⦄ ⦃before behind : Text⦄, b.text = before ++ (t ++ behind) → before.allBlank = true →
    behind.allBlank = true →
    (data.length ≤ 32 → ∃ byte : Opcode, byte.toNat = 0x5f + data.length ∧
      b.ops = .ok [b.op (.push byte data) (Text.byteLength before)]) ∧
    (32 < data.length → ∃ f, b.ops = .error f ∧ f.kind = .parse)

/-- In every program, and whatever was evaluated before, the name of a macro stands for `n` if its body is the literal
`t` with blanks around it. -/
def CountedAs (t : Text) (n : Nat) : Prop :=
  ∀ ⦃sources : Sources⦄ ⦃p : Program⦄ ⦃name : Text⦄ ⦃m : Macro⦄ ⦃before behind : Text⦄ ⦃s : Store⦄,
    Program.read sources = .ok p → p.macros.find? name = some m → m.body = before ++ (t ++ behind) →
    before.allBlank = true → behind.allBlank = true → p.macros.fresh.Reaches s →
    ∀ limits budget active site,
      (Engine.evaluate (Engine.expand limits budget active) name site).runOn s = (.ok n, s)

variable {t : Text} {data : Bytes}

/-- **A literal alone in a body is the push of the bytes that stand for it.** -/
theorem Encodes.pushedAs (h : Encodes t data) : PushedAs t data := by
  intro b before behind htext hbefore hbehind
  have hword := h.value.isWord
  have hskip : (Cursor.start b.text).skipBlanks = (Cursor.start b.text).behind before (t ++ behind) := by
    rw [Cursor.skipBlanks, Cursor.takeWhile_append (List.all_eq_true.1 hbefore)
      (Text.isBlank_of_head?_isWord hword behind) htext]
  have hpos : (Cursor.start b.text).skipBlanks.pos = Text.byteLength before := by
    rw [hskip]
    exact Nat.zero_add _
  have hend : ¬ (Cursor.start b.text).skipBlanks.atEnd = true := by
    rw [hskip, Cursor.atEnd, List.isEmpty_iff]
    exact fun hnil => (Text.isWord_iff.1 hword).1 (List.append_eq_nil_iff.1 hnil).1
  have hgap : behind.Gapped := fun y hy => List.all_eq_true.1 hbehind y (List.mem_of_head? hy)
  have hlast : ((Cursor.start b.text).skipBlanks.behind t behind).skipBlanks.atEnd = true :=
    List.isEmpty_iff.2 (List.dropWhile_eq_nil_iff.2 (List.all_eq_true.1 hbehind))
  obtain ⟨digits, hnext⟩ : ∃ digits, OpReader.next b.tables [] (Cursor.start b.text).skipBlanks = _ :=
    OpReader.next_of_encodes h hgap (congrArg Cursor.rest hskip)
  rcases OpReader.pushLiteral_cases h.ne_nil digits with ⟨hwidth, byte, hbyte, hpush⟩ | ⟨hwidth, hpush⟩
  · rw [hpush] at hnext
    refine ⟨fun _ => ⟨byte, hbyte, ?_⟩, fun hwide => absurd hwidth (Nat.not_le.2 hwide)⟩
    rw [Body.ops, Body.opsFrom_of_next hend hnext, Body.opsFrom_of_atEnd hlast, hpos]
    rfl
  · rw [hpush] at hnext
    exact ⟨fun hfits => absurd hwidth (Nat.not_lt.2 hfits), fun _ => ⟨_, Body.opsFrom_of_error hend hnext, rfl⟩⟩

end Numeral

/-- The value of a name whose macro only pushes some bytes. -/
lemma Engine.evaluate_of_push {inner : Request → Engine Expansion} {name : Text} (hname : name.Declarable) {s : Store}
    {m : Macro} (hm : s.find? name = some m) {byte : Opcode} {data : Bytes} {i : Nat} {o : Origin}
    (hops : m.ops = [⟨.push byte data, i, o⟩]) (site : Origin) :
    (evaluate inner name site).runOn s = (.ok (Bytes.toNat data), s) := by
  have hne : name.isEmpty = false := List.isEmpty_eq_false_iff.2 (Text.isWord_iff.1 hname.word).1
  rw [evaluate, Text.compact_of_isWord hname.word, Arith.read_of_isWord hname.word, Arith.eval, atomValue, hne,
    if_neg Bool.false_ne_true, hname.value?_eq_none]
  simp only [runOn_get_bind, hm, constant, hops]
  rfl

/-- **A macro that is a literal has the value of its bytes**, since a program that has been read pushes them. -/
theorem Numeral.PushedAs.countedAs {t : Text} {data : Bytes} (h : PushedAs t data) :
    CountedAs t (Bytes.toNat data) := by
  intro sources p name m before behind s hp hm hbody hbefore hbehind hs limits budget active site
  obtain ⟨hmem, hname⟩ := MacroTable.mem_of_find? hm
  obtain ⟨b, htext, hops, -⟩ := ((Program.read_legible hp).macros m hmem).ops
  have hdecl : name.Declarable := hname ▸ ((Program.read_wellFormed hp).macros m hmem).name
  have hfind : s.find? name = some m := by
    rw [hs.find?_of_isPlain (Store.numbered_declared _) (Text.isPlain_of_isWord hdecl.word), MacroTable.find?_fresh, hm]
  obtain ⟨hfits, hwide⟩ := h (htext.trans hbody) hbefore hbehind
  by_cases hwidth : data.length ≤ 32
  · obtain ⟨byte, -, hpush⟩ := hfits hwidth
    exact Engine.evaluate_of_push hdecl hfind (Except.ok.inj (hops.symm.trans hpush)) site
  · obtain ⟨f, hf, -⟩ := hwide (Nat.lt_of_not_le hwidth)
    rw [hops] at hf
    cases hf

/-- **Literals mean the same everywhere.** One row of bytes stands for a literal; it has the value of the literal. Alone
in a body the literal is the push of these bytes, which has room for them if the value of a decimal literal is a word,
and if a hexadecimal one has no more than 64 digits, zeros in front included. A macro that is the literal and nothing
else has the same value, and so has every other text that spells it, be it decimal or hexadecimal. -/
theorem literal_agrees {t : Text} (ht : Numeral.Literal t) :
    ∃ data, (∀ data', Numeral.Encodes t data' ↔ data' = data) ∧ Numeral.value? t = some (Bytes.toNat data) ∧
      Numeral.PushedAs t data ∧ Numeral.CountedAs t (Bytes.toNat data) ∧
      ((∀ c ∈ t, c.isDigit = true) → (data.length ≤ 32 ↔ Bytes.toNat data < Word.modulus)) ∧
      (∀ d, t = "0x".toList ++ d → (data.length ≤ 32 ↔ d.length ≤ 64)) ∧
      (∀ t', Numeral.Spells t' (Bytes.toNat data) → Numeral.value? t' = Numeral.value? t) ∧
      Numeral.Spells (Text.decimal (Bytes.toNat data)) (Bytes.toNat data) ∧
      Numeral.Spells ("0x".toList ++ Text.hexadecimal (Bytes.toNat data)) (Bytes.toNat data) := by
  obtain ⟨data, h⟩ : ∃ data, Numeral.Encodes t data := by
    cases ht with
    | decimal hne hdigits => exact ⟨_, Numeral.encodes_decimal hne hdigits⟩
    | hexadecimal hne hdigits => exact ⟨_, Numeral.encodes_hexadecimal hne hdigits⟩
  have hvalue := Numeral.value?_eq_some_iff.2 h.value
  refine ⟨data, fun data' => ⟨fun h' => h'.unique h, fun heq => heq ▸ h⟩, hvalue, h.pushedAs, h.pushedAs.countedAs,
    h.length_le_iff_of_digits, fun d hd => ?_, fun t' ht' => ?_, ?_, ?_⟩
  · rw [h.width d hd]
    omega
  · rw [hvalue, Numeral.value?_eq_some_iff.2 ht']
  · exact Numeral.value?_eq_some_iff.1 (Numeral.value?_decimal _)
  · exact Numeral.value?_eq_some_iff.1 (Numeral.value?_hexadecimal _)

open Sample in
/-- A literal of three digits with blanks around it, and the literal that is the body of `C`. -/
theorem literal_agrees_digits :
    (∀ lines, ∃ byte : Opcode, byte.toNat = 0x61 ∧
      Body.ops ⟨" 0xa0b\n".toList, 7, lines, []⟩ = .ok [⟨.push byte [0x0a, 0x0b], 8, lines.originAt 8⟩]) ∧
    Program.read sums = .ok sumsProgram ∧ sumsProgram.macros.find? "C".toList = some pushMacro ∧
    pushMacro.body = "0x20".toList ∧
    (Engine.evaluate (Engine.expand {} 1 []) "C".toList pushLine).runOn sumsProgram.macros.fresh =
      (.ok 0x20, sumsProgram.macros.fresh) := by
  have hm : sumsProgram.macros.find? "C".toList = some pushMacro := by decide
  refine ⟨fun lines => ?_, read_sums, hm, rfl, ?_⟩
  · have hliteral : Numeral.Literal ("0x".toList ++ "a0b".toList) :=
      .hexadecimal (by decide) (List.all_eq_true.1 rfl)
    have hencodes : Numeral.Encodes ("0x".toList ++ "a0b".toList) [0x0a, 0x0b] := by
      refine ⟨Numeral.value?_eq_some_iff.1 (by decide), fun hdigits => ?_, fun d hd => ?_⟩
      · exact absurd hdigits Numeral.not_digits_of_hexadecimal
      · rw [← List.append_cancel_left hd]
        rfl
    obtain ⟨data, hdata, -, hpushed, -⟩ := literal_agrees hliteral
    obtain rfl := (hdata _).1 hencodes
    have htext : " 0xa0b\n".toList = " ".toList ++ (("0x".toList ++ "a0b".toList) ++ "\n".toList) := rfl
    exact (hpushed (b := ⟨_, 7, lines, []⟩) htext rfl rfl).1 (by decide)
  · have hliteral : Numeral.Literal ("0x".toList ++ "20".toList) :=
      .hexadecimal (by decide) (List.all_eq_true.1 rfl)
    obtain ⟨data, -, hvalue, -, hcounted, -⟩ := literal_agrees hliteral
    have hbody : pushMacro.body = [] ++ (("0x".toList ++ "20".toList) ++ []) := rfl
    have hread : Numeral.value? ("0x".toList ++ "20".toList) = some 0x20 := by decide
    rw [hread] at hvalue
    rw [hcounted read_sums hm hbody rfl rfl .refl {} 1 [] pushLine, ← Option.some.inj hvalue]

end MacroAsm
