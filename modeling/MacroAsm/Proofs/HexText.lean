import MacroAsm.Proofs.Numerals
import MacroAsm.Run

/-!
# Bytes as hexadecimal text

A program is reported as a text of digits and written to a file as bytes. Each of the two can be had from the other: the
digits of bytes are read back as these bytes, and the bytes of digits are written as the same digits, in lower case and
with a zero in front if their number is odd.

* `mem_hexAlphabet_iff`: the characters that are read; `digitChar_of_hexValue?`: each is written in lower case;
* `Bytes.isSome_ofHex?_iff`: the texts that are read; `Bytes.toHex_of_ofHex?`: how their bytes are written;
* `Bytes.value?_of_ofHex?`: the bytes have the value of the marked numeral;
* `Run.run_writeOutput`: what is written to a file;
* `hex_determines_bytes`: digits and bytes are inverse, so the reported text tells what is written to the file.
-/

namespace MacroAsm

/-! ## digits -/

/-- The digits of a hexadecimal numeral in either case. -/
def hexAlphabet : Text := "0123456789abcdefABCDEF".toList

lemma toNat_lt_of_hexValue? {c : Char} {d : Nat} (h : hexValue? c = some d) : c.toNat < 103 := by
  unfold hexValue? at h
  split at h
  · next hdigit =>
    have := isDigit_iff.1 hdigit
    omega
  · split at h
    · next hlower =>
      have hhigh : c.toNat ≤ 102 := hlower.2
      omega
    · split at h
      · next hupper =>
        have hhigh : c.toNat ≤ 70 := hupper.2
        omega
      · cases h

lemma toNat_lt_of_mem_hexAlphabet {c : Char} (h : c ∈ hexAlphabet) : c.toNat < 103 := by
  have hall : hexAlphabet.all (fun x => decide (x.toNat < 103)) = true := by decide
  exact of_decide_eq_true (List.all_eq_true.1 hall c h)

/-- The characters that have a value. -/
lemma mem_hexAlphabet_iff {c : Char} : c ∈ hexAlphabet ↔ isHexDigit c = true := by
  have hall : ∀ n, n < 103 → (hexAlphabet.contains (Char.ofNat n) = isHexDigit (Char.ofNat n)) := by decide
  have hsmall : c.toNat < 103 → (c ∈ hexAlphabet ↔ isHexDigit c = true) := by
    intro hc
    have := hall c.toNat hc
    rw [Char.ofNat_toNat] at this
    rw [← this, List.contains_iff_mem]
  constructor
  · intro h
    exact (hsmall (toNat_lt_of_mem_hexAlphabet h)).1 h
  · intro h
    obtain ⟨d, hd⟩ := Option.isSome_iff_exists.1 h
    exact (hsmall (toNat_lt_of_hexValue? hd)).2 h

/-- A digit is written again in lower case. -/
lemma digitChar_of_hexValue? {c : Char} {d : Nat} (h : hexValue? c = some d) : Nat.digitChar d = c.toLower := by
  have hall : ∀ n, n < 103 →
      (hexValue? (Char.ofNat n)).all (fun d => Nat.digitChar d == (Char.ofNat n).toLower) = true := by decide
  have hc := hall c.toNat (toNat_lt_of_hexValue? h)
  rw [Char.ofNat_toNat, h] at hc
  exact eq_of_beq hc

lemma map_digitChar_of_mapM {t : Text} {ds : List Nat} (h : t.mapM hexValue? = some ds) :
    ds.map Nat.digitChar = t.map Char.toLower := by
  induction t generalizing ds with
  | nil =>
    cases h
    rfl
  | cons c t ih =>
    rw [List.mapM_cons] at h
    obtain ⟨d, hd, h⟩ := Option.bind_eq_some_iff.1 h
    obtain ⟨ds', hds, h⟩ := Option.bind_eq_some_iff.1 h
    cases h
    rw [List.map_cons, List.map_cons, digitChar_of_hexValue? hd, ih hds]

namespace Bytes

/-! ## reading and writing -/

/-- The digits of bytes that were made of digits two by two. -/
lemma toHex_ofDigitPairs {ds : List Nat} (hds : ∀ d ∈ ds, d < 16) (heven : ds.length % 2 = 0) :
    toHex (ofDigitPairs ds) = ds.map Nat.digitChar := by
  fun_induction ofDigitPairs ds with
  | case1 hi lo ds ih =>
    have hhi := hds hi (by simp)
    have hlo := hds lo (by simp)
    have hbyte : (UInt8.ofNat (16 * hi + lo)).toNat = 16 * hi + lo := by
      rw [UInt8.toNat_ofNat']
      omega
    have hdiv : (16 * hi + lo) / 16 = hi := by omega
    have hmod : (16 * hi + lo) % 16 = lo := by omega
    have hshort : ds.length % 2 = 0 := by
      rw [List.length_cons, List.length_cons] at heven
      omega
    rw [toHex, List.flatMap_cons, hexDigits, hbyte, hdiv, hmod, ← toHex,
      ih (fun d hd => hds d (by simp [hd])) hshort]
    rfl
  | case2 ds hpair =>
    rcases ds with _ | ⟨hi, _ | ⟨lo, ds⟩⟩
    · rfl
    · cases heven
    · exact absurd rfl (hpair hi lo ds)

/-- What is read is a row of digits, one more in front of an odd number of them. -/
lemma exists_digits_of_ofHex? {t : Text} {bs : Bytes} (h : ofHex? t = some bs) :
    t ≠ [] ∧ ∃ ds, t.mapM hexValue? = some ds ∧ ds.length = t.length ∧ (∀ d ∈ ds, d < 16) ∧
      bs = ofDigitPairs (if t.length % 2 = 1 then 0 :: ds else ds) := by
  unfold ofHex? at h
  split at h
  · cases h
  · next hne =>
    obtain ⟨ds, hds, rfl⟩ := Option.map_eq_some_iff.1 h
    obtain ⟨ds', hds', hlen, hmem⟩ := Numeral.exists_mapM (Numeral.isSome_of_mapM hds)
    obtain rfl : ds = ds' := Option.some.inj (hds.symm.trans hds')
    refine ⟨by simpa using hne, ds, hds, hlen, fun d hd => ?_, rfl⟩
    obtain ⟨c, hc⟩ := hmem d hd
    exact hexValue?_lt hc

/-- **The texts that are read**: one or more digits and nothing else. -/
theorem isSome_ofHex?_iff {t : Text} : (ofHex? t).isSome = true ↔ t ≠ [] ∧ ∀ c ∈ t, c ∈ hexAlphabet := by
  simp only [mem_hexAlphabet_iff]
  constructor
  · intro h
    obtain ⟨bs, hbs⟩ := Option.isSome_iff_exists.1 h
    obtain ⟨hne, ds, hds, -⟩ := exists_digits_of_ofHex? hbs
    exact ⟨hne, Numeral.isSome_of_mapM hds⟩
  · rintro ⟨hne, hdigits⟩
    obtain ⟨ds, hds, -⟩ := Numeral.exists_mapM hdigits
    rw [ofHex?, if_neg (by simpa using hne), hds]
    rfl

/-- **What is read is written again** in lower case, with a zero in front of an odd number of digits. -/
theorem toHex_of_ofHex? {t : Text} {bs : Bytes} (h : ofHex? t = some bs) :
    toHex bs = (if t.length % 2 = 1 then ['0'] else []) ++ t.map Char.toLower := by
  obtain ⟨-, ds, hds, hlen, hlt, rfl⟩ := exists_digits_of_ofHex? h
  rw [← map_digitChar_of_mapM hds]
  split
  · next hodd =>
    have heven : (0 :: ds).length % 2 = 0 := by
      rw [List.length_cons, hlen]
      omega
    exact toHex_ofDigitPairs (List.forall_mem_cons.2 ⟨by decide, hlt⟩) heven
  · next heven => exact toHex_ofDigitPairs hlt (by omega)

/-- **The bytes of digits have the value of the numeral.** -/
theorem value?_of_ofHex? {t : Text} {bs : Bytes} (h : ofHex? t = some bs) :
    Numeral.value? ("0x".toList ++ t) = some (toNat bs) := by
  obtain ⟨hne, ds, hds, -⟩ := exists_digits_of_ofHex? h
  have hencodes := Numeral.encodes_hexadecimal hne (Numeral.isSome_of_mapM hds)
  rw [h, Option.getD_some] at hencodes
  exact Numeral.value?_eq_some_iff.2 hencodes.value

/-- Some bytes are read back from their digits; of no bytes there are no digits. -/
lemma getD_ofHex?_toHex (bs : Bytes) : (ofHex? (toHex bs)).getD [] = bs := by
  cases bs with
  | nil => rfl
  | cons b bs => rw [ofHex?_toHex (List.cons_ne_nil b bs), Option.getD_some]

end Bytes

namespace Run

/-- The failure to write a file. -/
def unwritten (kind : OutputKind) (path : Text) (e : FileError) : Failure := ⟨⟨.unwritableFile kind e path, none⟩, []⟩

/-- A file is written once, with what the report has for it. -/
lemma run_writeOutput {m : Type → Type} [Monad m] [LawfulMonad m] (ws : Workspace m) (r : Report) (kind : OutputKind)
    (path : Text) : (writeOutput ws r kind (some path)).run =
      Except.mapError (unwritten kind path) <$> ws.write path (r.contents kind) := by
  refine (ExceptT.run_bind_lift (ws.write path (r.contents kind)) _).trans ?_
  rw [map_eq_pure_bind]
  refine bind_congr fun result => ?_
  cases result with
  | ok => rfl
  | error e => rfl

end Run

/-- **Digits and bytes are inverse.** Bytes are read back from their digits. A text is read exactly if it is one or more
hexadecimal digits; its bytes are then written as the same digits in lower case, with one zero in front if their number
is odd, and have the value of the numeral that is the text with its mark. So the reported text of a program tells its
bytes: these are what is written to the file of bytes, and it is the same for all reports with that text. -/
theorem hex_determines_bytes :
    (∀ bs : Bytes, bs ≠ [] → Bytes.ofHex? (Bytes.toHex bs) = some bs) ∧
    (∀ t : Text, (Bytes.ofHex? t).isSome = true ↔ t ≠ [] ∧ ∀ c ∈ t, c ∈ hexAlphabet) ∧
    (∀ (t : Text) (bs : Bytes), Bytes.ofHex? t = some bs →
      Bytes.toHex bs = (if t.length % 2 = 1 then ['0'] else []) ++ t.map Char.toLower ∧
      Numeral.value? ("0x".toList ++ t) = some (Bytes.toNat bs)) ∧
    (∀ r : Report, r.contents .binary = (Bytes.ofHex? r.bytecode).getD []) ∧
    (∀ (m : Type → Type) [Monad m] [LawfulMonad m] (ws : Workspace m) (r : Report) (path : Text),
      (Run.writeOutput ws r .binary (some path)).run =
        Except.mapError (Run.unwritten .binary path) <$> ws.write path ((Bytes.ofHex? r.bytecode).getD [])) ∧
    ∀ (m : Type → Type) [Monad m] (ws : Workspace m) (r r' : Report) (path : Option Text),
      r.bytecode = r'.bytecode → Run.writeOutput ws r .binary path = Run.writeOutput ws r' .binary path := by
  have hbinary : ∀ r : Report, r.contents .binary = (Bytes.ofHex? r.bytecode).getD [] := fun r =>
    (Bytes.getD_ofHex?_toHex r.bytes).symm
  refine ⟨fun bs => Bytes.ofHex?_toHex, fun t => Bytes.isSome_ofHex?_iff,
    fun t bs h => ⟨Bytes.toHex_of_ofHex? h, Bytes.value?_of_ofHex? h⟩, hbinary, ?_, ?_⟩
  · intro m _ _ ws r path
    rw [Run.run_writeOutput, hbinary]
  · intro m _ ws r r' path htext
    have hsame : r.contents .binary = r'.contents .binary := by rw [hbinary, hbinary, htext]
    cases path with
    | none => rfl
    | some p =>
      unfold Run.writeOutput
      rw [hsame]

namespace Sample

/-- The report of three bytes. -/
def report : Report := ⟨"A".toList, 0, 1, 0, [0x60, 0x01, 0xff], [], [], [], []⟩

/-- The same bytes reported for another macro, which starts elsewhere. -/
def otherReport : Report := { report with root := "B".toList, start := 16 }

end Sample

/-- Three bytes and back, three digits of both cases and back, and a file written for either of two reports. -/
theorem hex_determines_bytes_report :
    Bytes.ofHex? (Bytes.toHex Sample.report.bytes) = some [0x60, 0x01, 0xff] ∧
      (∀ c ∈ "aBc".toList, c ∈ hexAlphabet) ∧
      Bytes.toHex [0x0a, 0xbc] = "0abc".toList ∧
      Numeral.value? "0xaBc".toList = some 0xabc ∧
      Sample.report.contents .binary = [0x60, 0x01, 0xff] ∧
      ((Run.writeOutput FileTree.workspace Sample.report .binary (some "out".toList)).run {}).2.files =
        [(⟨0, ["out".toList]⟩, [0x60, 0x01, 0xff])] ∧
      Run.writeOutput FileTree.workspace Sample.report .binary (some "out".toList) =
        Run.writeOutput FileTree.workspace Sample.otherReport .binary (some "out".toList) := by
  obtain ⟨hback, hread, hwritten, hcontents, hwrites, hfile⟩ := hex_determines_bytes
  have hodd : Bytes.ofHex? "aBc".toList = some [0x0a, 0xbc] := by decide
  obtain ⟨hdigits, hvalue⟩ := hwritten _ _ hodd
  have htree := congrFun (hwrites _ FileTree.workspace Sample.report "out".toList) {}
  exact ⟨hback _ (by decide), ((hread "aBc".toList).1 (by rw [hodd]; rfl)).2, hdigits.trans (by decide), hvalue,
    (hcontents Sample.report).trans (by decide), by rw [htree]; decide, hfile _ _ _ _ _ (by decide)⟩

end MacroAsm
