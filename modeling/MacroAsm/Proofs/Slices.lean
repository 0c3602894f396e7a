import MacroAsm.Proofs.Blanking
import MacroAsm.Proofs.HexText
import MacroAsm.Proofs.Origins
import MacroAsm.Proofs.Scanning

/-!
# Slices of a text

Besides what a cursor reads, a line is cut out of its file to be shown, a directive is cut out to be blanked, and the
digits of a literal are cut two by two. Each of these cuts falls between characters. The directives of a file are noted
by their first and last bytes, and are blanked after the last of them has been read.

* `Origin.cut?`, `Origin.cut?_append`: the line of a byte of a file;
* `Sources.search?`, `Sources.search?_eq`: the file of a byte, looked for from the last one back, and its line;
* `Text.blankSpan?`, `Text.blankSpan?_append`: blanks for a slice;
* `Bytes.cutHex?`, `Bytes.cutHex?_eq`: digits two by two;
* `Prepared.round`, `Prepared.ends_round`: the directives of a file, one by one;
* `cursor_keeps_boundaries`: no cursor stands inside a character, and no reader cuts one.
-/

namespace MacroAsm

namespace Text

/-! ## lines and spans -/

/-- The byte at which the last character stands that satisfies `p`. -/
def findLastByte? (p : Char → Bool) : Text → Option Nat
  | [] => none
  | c :: t => ((findLastByte? p t).map (c.utf8Size + ·)).or (if p c then some 0 else none)

/-- The byte at which the last line of a text starts. -/
def lastLineByte (t : Text) : Nat := ((t.findLastByte? (· == '\n')).map (· + 1)).getD 0

lemma findLastByte?_of_not_mem {x : Char} {t : Text} (h : x ∉ t) : t.findLastByte? (· == x) = none := by
  induction t with
  | nil => rfl
  | cons c t ih =>
    rw [List.mem_cons, not_or] at h
    rw [findLastByte?, ih h.2, if_neg (by simpa using Ne.symm h.1)]
    rfl

lemma findLastByte?_append_cons {x : Char} {r : Text} (hr : x ∉ r) (w : Text) :
    findLastByte? (· == x) (w ++ x :: r) = some (byteLength w) := by
  induction w with
  | nil => rw [List.nil_append, findLastByte?, findLastByte?_of_not_mem hr, if_pos (beq_self_eq_true x)]; rfl
  | cons c w ih => rw [List.cons_append, findLastByte?, ih]; rfl

lemma newline_not_mem_lastLine (t : Text) : '\n' ∉ lastLine t := fun h =>
  ne_newline_of_mem_takeWhile (List.mem_reverse.1 h) rfl

/-- The last line starts at the byte at which it is looked for. -/
lemma exists_eq_append_of_lastLineByte (t : Text) :
    ∃ above, t = above ++ lastLine t ∧ lastLineByte t = byteLength above := by
  obtain ⟨above, ht, hlast⟩ := exists_eq_append_lastLine t
  refine ⟨above, ht, ?_⟩
  have hnot := newline_not_mem_lastLine t
  rcases List.eq_nil_or_concat above with rfl | ⟨u, x, rfl⟩
  · rw [List.nil_append] at ht
    rw [lastLineByte, findLastByte?_of_not_mem (by rwa [ht])]
    rfl
  · have hx : x = '\n' := hlast x (by simp)
    subst hx
    have hbyte : t.findLastByte? (· == '\n') = some (byteLength u) := by
      rw [ht]
      simpa using findLastByte?_append_cons hnot u
    have hsize : '\n'.utf8Size = 1 := rfl
    rw [lastLineByte, hbyte, List.concat_eq_append, byteLength_append, byteLength_cons, hsize]
    rfl

lemma firstLine_append {u : Text} (hu : '\n' ∉ u) (v : Text) : (u ++ v).firstLine = u ++ v.firstLine :=
  List.takeWhile_append_of_pos fun c hc => by
    rw [bne_iff_ne]
    rintro rfl
    exact hu hc

/-- Spaces for the slice between two bytes. -/
def blankSpan? (t : Text) (span : Nat × Nat) : Option Text := do
  let before ← t.slice? 0 span.1
  let _ ← t.slice? span.1 span.2
  let behind ← t.slice? span.2 t.byteLength
  return before ++ List.replicate (span.2 - span.1) ' ' ++ behind

lemma blankSpan?_append (u w v : Text) :
    (u ++ (w ++ v)).blankSpan? (byteLength u, byteLength u + byteLength w) =
      some (u ++ List.replicate (byteLength w) ' ' ++ v) := by
  have hbehind : (u ++ (w ++ v)).slice? (byteLength u + byteLength w) (byteLength (u ++ (w ++ v))) = some v := by
    rw [← List.append_assoc, ← byteLength_append]
    exact slice?_back (u ++ w) v
  unfold blankSpan?
  rw [slice?_front, slice?_append, hbehind, Nat.add_sub_cancel_left]
  rfl

/-- Byte `n` is the first of a character, or the end. -/
def isBoundary (t : Text) (n : Nat) : Bool := byteLength (takeBytes n t) == n

/-- The last boundary up to a byte, looked for one byte back at a time. -/
def floorBoundary (t : Text) : Nat → Nat
  | 0 => 0
  | n + 1 => if t.isBoundary (n + 1) then n + 1 else t.floorBoundary n

/-- The bytes of a character that is cut off do not count. -/
lemma takeBytes_of_le {t : Text} {m n : Nat} (hm : m ≤ n) (h : byteLength (takeBytes n t) ≤ m) :
    takeBytes m t = takeBytes n t := by
  induction t generalizing m n with
  | nil => rw [takeBytes, takeBytes]
  | cons c t ih =>
    rw [takeBytes, takeBytes]
    by_cases hc : c.utf8Size ≤ n
    · rw [takeBytes, if_pos hc, byteLength_cons] at h
      have hrest : takeBytes (m - c.utf8Size) t = takeBytes (n - c.utf8Size) t := ih (by omega) (by omega)
      rw [if_pos hc, if_pos (by omega), hrest]
    · rw [if_neg hc, if_neg (by omega)]

/-- In front of the last boundary stand the characters that lie wholly before the byte. -/
lemma floorBoundary_eq (t : Text) (n : Nat) : t.floorBoundary n = byteLength (takeBytes n t) := by
  induction n with
  | zero =>
    have := byteLength_takeBytes_le 0 t
    rw [floorBoundary]
    omega
  | succ n ih =>
    rw [floorBoundary]
    split
    · next hcut => exact (eq_of_beq hcut).symm
    · next hcut =>
      have hle := byteLength_takeBytes_le (n + 1) t
      have hne : byteLength (takeBytes (n + 1) t) ≠ n + 1 := fun heq => hcut (beq_iff_eq.2 heq)
      have hsame : takeBytes n t = takeBytes (n + 1) t := takeBytes_of_le (Nat.le_add_right n 1) (by omega)
      rw [ih, hsame]

lemma takeBytes_min (t : Text) (n : Nat) : takeBytes (min n t.byteLength) t = takeBytes n t := by
  refine takeBytes_of_le (Nat.min_le_left ..) ?_
  have hle := byteLength_takeBytes_le n t
  obtain ⟨r, hr, -⟩ := exists_takeBytes_append n t
  have hlength := congrArg byteLength hr
  rw [byteLength_append] at hlength
  omega

end Text

namespace Origin

/-- The origin of byte `n` of a file with the text `whole`, by cuts. -/
def cut? (file whole : Text) (n : Nat) : Option Origin := do
  let before ← whole.slice? 0 n
  let line ← whole.slice? before.lastLineByte whole.byteLength
  return ⟨String.ofList file, before.count '\n' + 1, String.ofList (trimReturns line.firstLine)⟩

/-- **The line of a place** is cut out of the text. -/
theorem cut?_append (file u v : Text) : cut? file (u ++ v) (Text.byteLength u) = some (between file u v) := by
  obtain ⟨above, hu, hbyte⟩ := Text.exists_eq_append_of_lastLineByte u
  have hline : (u ++ v).slice? u.lastLineByte (Text.byteLength (u ++ v)) = some (Text.lastLine u ++ v) := by
    have hcut : u ++ v = above ++ (Text.lastLine u ++ v) := by rw [← List.append_assoc, ← hu]
    rw [hbyte, hcut]
    exact Text.slice?_back above (Text.lastLine u ++ v)
  unfold cut?
  rw [Text.slice?_front]
  show ((u ++ v).slice? u.lastLineByte (Text.byteLength (u ++ v))).bind _ = _
  rw [hline, Option.bind_some, Text.firstLine_append (Text.newline_not_mem_lastLine u)]
  rfl

/-- **The line of a byte**, which may lie inside a character, is cut out of its file. -/
theorem cut?_takeBytes (f : SourceFile) (n : Nat) :
    cut? f.name f.text (Text.byteLength (Text.takeBytes n f.text)) = some ((Sources.lines [f]).originAt n) := by
  obtain ⟨r, htext, hhead⟩ := Text.exists_takeBytes_append n f.text
  rw [Sources.originAt_singleton f htext (Text.byteLength_takeBytes_le n f.text) hhead]
  generalize Text.takeBytes n f.text = u at htext
  rw [htext]
  exact cut?_append f.name u r

end Origin

namespace Sources

/-! ## the file of a byte -/

/-- Files with the bytes at which they start; the first of them starts at byte `start`. -/
def startsFrom : Nat → Sources → List (Nat × SourceFile)
  | _, [] => []
  | start, f :: fs => (start, f) :: startsFrom (start + Text.byteLength f.text) fs

/-- A byte may lie in a file that starts at or before it and is not empty. -/
def mayHold (n : Nat) (x : Nat × SourceFile) : Bool := decide (x.1 ≤ n) && !x.2.text.isEmpty

/-- The file of byte `n` and the byte at which it starts: the last one that may hold the byte, or else the first. -/
def fileAt? (files : Sources) (n : Nat) : Option (Nat × SourceFile) :=
  ((startsFrom 0 files).reverse.find? (mayHold n)).or (startsFrom 0 files).head?

/-- The origin of byte `n`: its file is looked for from the last one back, and the line is cut out of the file. -/
def search? (files : Sources) (n : Nat) : Option Origin :=
  match files.fileAt? n with
  | none => some Origin.unknown
  | some (start, f) => Origin.cut? f.name f.text (f.text.floorBoundary (min (n - start) f.text.byteLength))

lemma le_of_mem_startsFrom {files : Sources} {start : Nat} {x : Nat × SourceFile} (h : x ∈ startsFrom start files) :
    start ≤ x.1 := by
  induction files generalizing start with
  | nil => cases h
  | cons f fs ih =>
    rcases List.mem_cons.1 h with rfl | h
    · exact Nat.le_refl _
    · exact (Nat.le_add_right ..).trans (ih h)

/-- The lines of a file that is not empty are those that it has alone. -/
lemma lastUpTo_lines {f : SourceFile} (hf : f.text ≠ []) {start n : Nat} (hn : start ≤ n) (best : Origin) :
    Lines.lastUpTo n best (f.lines start) = (lines [f]).originAt (n - start) := by
  have halone : ∀ first, linesFrom first [f] = f.lines first := fun first => List.append_nil _
  have htext : text [f] ≠ [] := by simpa [text] using hf
  have hshift := SourceFile.lines_shift f 0 start
  rw [Nat.zero_add] at hshift
  obtain ⟨k, rfl⟩ := Nat.exists_eq_add_of_le' hn
  rw [hshift, Lines.lastUpTo_shift, Nat.add_sub_cancel, Lines.originAt, ← halone]
  exact lastUpTo_linesFrom htext (Nat.zero_le k) _ _

/-- The search among lines comes to the file that the search from the last file back comes to. -/
lemma lastUpTo_eq_find? (files : Sources) {start n : Nat} (hn : start ≤ n) (best : Origin) :
    Lines.lastUpTo n best (linesFrom start files) =
      ((startsFrom start files).reverse.find? (mayHold n)).elim best fun x => (lines [x.2]).originAt (n - x.1) := by
  induction files generalizing start best with
  | nil => rfl
  | cons f fs ih =>
    rw [linesFrom, startsFrom, List.reverse_cons, List.find?_append, List.find?_singleton]
    by_cases hend : n < start + Text.byteLength f.text
    · -- the byte lies in this file, and all others start later
      have hf : f.text ≠ [] := by
        intro hempty
        rw [hempty, Text.byteLength_nil] at hend
        omega
      have hlater : ∀ x ∈ linesFrom (start + Text.byteLength f.text) fs, n < x.1 := fun x hx => by
        have := bounds_of_mem_linesFrom hx
        omega
      have hnone : (startsFrom (start + Text.byteLength f.text) fs).reverse.find? (mayHold n) = none := by
        refine List.find?_eq_none.2 fun x hx => ?_
        have := le_of_mem_startsFrom (List.mem_reverse.1 hx)
        rw [mayHold, decide_eq_false (by omega), Bool.false_and]
        exact Bool.false_ne_true
      have hholds : mayHold n (start, f) = true := by simp [mayHold, hn, hf]
      rw [Lines.lastUpTo_append_left hlater, lastUpTo_lines hf hn, hnone, if_pos hholds]
      rfl
    · -- the other files go first, and this one is what they leave
      have hearlier : ∀ x ∈ f.lines start, x.1 ≤ n := fun x hx => by
        have := SourceFile.bounds_of_mem_lines hx
        omega
      rw [Lines.lastUpTo_append_right hearlier, ih (Nat.not_lt.1 hend)]
      cases (startsFrom (start + Text.byteLength f.text) fs).reverse.find? (mayHold n) with
      | some x => rfl
      | none =>
        by_cases hf : f.text = []
        · have hlines : f.lines start = [] := by simp [SourceFile.lines, hf]
          have hholds : ¬ mayHold n (start, f) = true := by simp [mayHold, hf]
          rw [hlines, if_neg hholds]
          rfl
        · have hholds : mayHold n (start, f) = true := by simp [mayHold, hn, hf]
          rw [if_pos hholds]
          exact lastUpTo_lines hf hn best

/-- **The search from the last file back** has a result for every byte, and it is the line that the search among the
lines comes to. -/
theorem search?_eq (files : Sources) (n : Nat) : files.search? n = some (files.lines.originAt n) := by
  have hcut : ∀ (f : SourceFile) (k : Nat), Origin.cut? f.name f.text (f.text.floorBoundary (min k f.text.byteLength)) =
      some ((lines [f]).originAt k) := by
    intro f k
    rw [Text.floorBoundary_eq, Text.takeBytes_min, Origin.cut?_takeBytes]
  have hlines := lastUpTo_eq_find? files (Nat.zero_le n) files.lines.fallback
  rw [search?, fileAt?, Lines.originAt]
  show _ = some (Lines.lastUpTo n files.lines.fallback (linesFrom 0 files))
  rw [hlines]
  cases hfind : (startsFrom 0 files).reverse.find? (mayHold n) with
  | some x => exact hcut x.2 (n - x.1)
  | none =>
    cases files with
    | nil => rfl
    | cons f fs =>
      -- the first file starts at byte 0, so it may not hold the byte only if it is empty
      have hempty : f.text = [] := by
        have hfirst := List.find?_eq_none.1 hfind (0, f) (List.mem_reverse.2 List.mem_cons_self)
        simpa [mayHold] using hfirst
      refine (hcut f n).trans ?_
      have hstarts : (lines [f]).starts = [] := by simp [lines, linesFrom, SourceFile.lines, hempty]
      rw [Lines.originAt, hstarts]
      rfl

end Sources

namespace Bytes

/-! ## digits two by two -/

/-- The byte of two digits. -/
def ofPair? : Text → Option UInt8
  | [hi, lo] => do return UInt8.ofNat (16 * (← hexValue? hi) + (← hexValue? lo))
  | _ => none

/-- The slices of two bytes each, `k` of them from byte `n` on. -/
def cutPairs? (t : Text) : Nat → Nat → Option (List Text)
  | _, 0 => some []
  | n, k + 1 => do
    let pair ← t.slice? n (n + 2)
    return pair :: (← cutPairs? t (n + 2) k)

/-- The bytes of hexadecimal digits, of which two at a time are cut out. -/
def cutHex? (digits : Text) : Option (Option Bytes) :=
  if digits.isEmpty || !digits.all isHexDigit then some none
  else
    let padded := if digits.byteLength % 2 = 1 then '0' :: digits else digits
    (cutPairs? padded 0 (Text.byteLength padded / 2)).map (·.mapM ofPair?)

lemma byteLength_of_isHexDigit {t : Text} (h : ∀ c ∈ t, isHexDigit c = true) : t.byteLength = t.length := by
  induction t with
  | nil => rfl
  | cons c t ih =>
    rw [List.forall_mem_cons] at h
    have hc : c.utf8Size = 1 := by
      obtain ⟨d, hd⟩ := Option.isSome_iff_exists.1 h.1
      have := toNat_lt_of_hexValue? hd
      exact Char.utf8Size_eq_one_iff.2 (UInt32.le_iff_toNat_le.2 (by show c.toNat ≤ 127; omega))
    rw [Text.byteLength_cons, hc, ih h.2, List.length_cons, Nat.add_comm]

/-- Digits fall apart into pairs, whatever stands before them. -/
lemma cutPairs?_append {v : Text} (hv : ∀ c ∈ v, isHexDigit c = true) (u : Text) {k : Nat} (hlen : v.length = 2 * k) :
    ∃ pairs, cutPairs? (u ++ v) u.byteLength k = some pairs ∧
      pairs.mapM ofPair? = (v.mapM hexValue?).map ofDigitPairs := by
  induction k generalizing u v with
  | zero =>
    obtain rfl : v = [] := List.eq_nil_of_length_eq_zero hlen
    exact ⟨[], rfl, rfl⟩
  | succ k ih =>
    obtain ⟨hi, lo, v, rfl⟩ : ∃ hi lo r, v = hi :: lo :: r := by
      match v, hlen with
      | hi :: lo :: r, _ => exact ⟨hi, lo, r, rfl⟩
    have hpair : Text.byteLength [hi, lo] = 2 :=
      byteLength_of_isHexDigit fun c hc => hv c (by simp only [List.mem_cons] at hc ⊢; tauto)
    have hrest : ∀ c ∈ v, isHexDigit c = true := fun c hc => hv c (by simp [hc])
    have hslice := Text.slice?_append u [hi, lo] v
    obtain ⟨pairs, hpairs, hbytes⟩ := ih hrest (u ++ [hi, lo]) (by simp only [List.length_cons] at hlen; omega)
    obtain ⟨x, hx⟩ := Option.isSome_iff_exists.1 (hv hi (by simp))
    obtain ⟨y, hy⟩ := Option.isSome_iff_exists.1 (hv lo (by simp))
    rw [hpair] at hslice
    rw [List.append_assoc, Text.byteLength_append, hpair] at hpairs
    refine ⟨[hi, lo] :: pairs, ?_, ?_⟩
    · show ((u ++ ([hi, lo] ++ v)).slice? _ _).bind _ = _
      rw [hslice]
      show (cutPairs? (u ++ ([hi, lo] ++ v)) _ _).bind _ = _
      rw [hpairs]
      rfl
    · have hfirst : ofPair? [hi, lo] = some (UInt8.ofNat (16 * x + y)) := by rw [ofPair?, hx, hy]; rfl
      rw [List.mapM_cons, List.mapM_cons, List.mapM_cons, hfirst, hbytes, hx, hy]
      cases v.mapM hexValue? <;> rfl

/-- An even number of digits. -/
lemma mapM_ofPair?_of_even {t : Text} (ht : ∀ c ∈ t, isHexDigit c = true) (heven : t.length % 2 = 0) :
    (cutPairs? t 0 (t.byteLength / 2)).map (·.mapM ofPair?) = some ((t.mapM hexValue?).map ofDigitPairs) := by
  obtain ⟨pairs, hpairs, hbytes⟩ := cutPairs?_append ht [] (k := t.length / 2) (by omega)
  rw [byteLength_of_isHexDigit ht, ← hbytes]
  exact congrArg _ hpairs

/-- **Digits are cut between characters**, and give the bytes that are read. -/
theorem cutHex?_eq (digits : Text) : cutHex? digits = some (ofHex? digits) := by
  unfold cutHex?
  split
  · next hbad =>
    have hnone : ¬ (ofHex? digits).isSome = true := fun h => by
      obtain ⟨hne, hdigits⟩ := isSome_ofHex?_iff.1 h
      simp only [mem_hexAlphabet_iff] at hdigits
      simp [hne, List.all_eq_true.2 hdigits] at hbad
    rw [Option.not_isSome_iff_eq_none.1 hnone]
  · next hgood =>
    rw [Bool.not_eq_true, Bool.or_eq_false_iff, Bool.not_eq_false', List.all_eq_true] at hgood
    obtain ⟨hne, hdigits⟩ := hgood
    obtain ⟨ds, hds, -⟩ := Numeral.exists_mapM hdigits
    rw [ofHex?, hne, if_neg Bool.false_ne_true, hds, Option.map_some, byteLength_of_isHexDigit hdigits]
    dsimp only
    by_cases hodd : digits.length % 2 = 1
    · have hmapM : ('0' :: digits).mapM hexValue? = some (0 :: ds) := by rw [List.mapM_cons, hds]; rfl
      have heven : ('0' :: digits).length % 2 = 0 := by rw [List.length_cons]; omega
      have hbytes := mapM_ofPair?_of_even (List.forall_mem_cons.2 ⟨rfl, hdigits⟩) heven
      rw [hmapM] at hbytes
      rw [if_pos hodd, if_pos hodd]
      exact hbytes
    · have hbytes := mapM_ofPair?_of_even hdigits (by omega)
      rw [hds] at hbytes
      rw [if_neg hodd, if_neg hodd]
      exact hbytes

end Bytes

/-! ## directives -/

namespace Scan

/-- The quoted path that comes next on the line. -/
def includePath (t : Text) : Scan (Option Text) := do
  let _ ← takeWhile t fun x => x == ' ' || x == '\t'
  if ← finds t (.eat '"') then
    match ← text? t (.untilChar '"') with
    | none => return none
    | some target => return if target.contains '\n' || Text.allBlank target then none else some (Text.trim target)
  else return none

/-- A quoted path is scanned as it is read. -/
lemma run_includePath {t : Text} {c : Cursor} (hc : (Cursor.start t).Before c) :
    ∃ n, (includePath t).run c.pos = some ((includeTarget? c).map Prod.fst, n) ∧
      ∀ target c', includeTarget? c = some (target, c') → n = c'.pos := by
  have hc₁ := hc.trans (Cursor.before_takeWhile (fun x => x == ' ' || x == '\t') c)
  unfold includePath includeTarget?
  rw [run_bind_of (run_takeWhile hc _)]
  cases hquote : (c.takeWhile fun x => x == ' ' || x == '\t').2.eat? '"' with
  | none =>
    rw [run_bind_of (run_finds hc₁ (by rw [Cursor.read, hquote]))]
    exact ⟨_, rfl, fun target c' h => by cases h⟩
  | some c₂ =>
    have hc₂ := hc₁.trans (Cursor.ahead_of_eat? hquote).before
    rw [run_bind_of (run_finds hc₁ (by rw [Cursor.read, hquote])), if_pos rfl]
    dsimp only
    cases huntil : c₂.until? '"' with
    | none =>
      rw [run_bind_of (run_text?_nothing hc₂ (by rw [Cursor.read, huntil]))]
      exact ⟨_, rfl, fun target c' h => by cases h⟩
    | some p =>
      rw [run_bind_of (run_text? hc₂ (by rw [Cursor.read, huntil]))]
      dsimp only
      split
      · exact ⟨_, rfl, fun target c' h => by cases h⟩
      · exact ⟨_, rfl, fun target c' h => by cases h; rfl⟩

end Scan

namespace Prepared

/-- The directives that have been read, and the bytes from which and to which each of them goes. -/
structure Noted where
  directives : List Directive := []
  spans : List (Nat × Nat) := []

/-- Scans one directive of a file with the text `whole`, or blanks those that have been noted. -/
def round (file whole : Text) (st : Noted) : Scan (Noted ⊕ Except Fault Prepared) := do
  Scan.skipBlanks whole
  let start ← get
  if ← Scan.finds whole (.keyword "#include".toList) then
    let here ← (StateT.lift (Origin.cut? file whole start) : Scan Origin)
    match ← Scan.includePath whole with
    | none => return .inr (.error (.located (.malformedInclude (Text.trim here.text.toList)) here))
    | some target => return .inl ⟨st.directives ++ [⟨target, here⟩], st.spans ++ [(start, ← get)]⟩
  else
    let cleaned ← (StateT.lift (st.spans.foldlM Text.blankSpan? whole) : Scan Text)
    return .inr (.ok ⟨cleaned, st.directives⟩)

/-- The cursor has come to `c`, and before it stands `done` as soon as the noted directives are blanked. -/
structure Noted.Reaches (whole : Text) (st : Noted) (c : Cursor) (done : Text) : Prop where
  place : (Cursor.start whole).Before c
  length : Text.byteLength done = c.pos
  blanked : st.spans.foldlM Text.blankSpan? whole = some (done ++ c.rest)

section Rounds

variable {file whole done target : Text} {c c₁ c₂ : Cursor} {st : Noted}

lemma cut?_of_before (hc : (Cursor.start whole).Before c) :
    Origin.cut? file whole c.pos = some (originOf file whole c) := by
  obtain ⟨u, hu, hpos⟩ := Spot.boundary_of_before hc
  have htake : whole.take (whole.length - c.rest.length) = u := by
    rw [hu, List.length_append, Nat.add_sub_cancel, List.take_left]
  rw [originOf, htake, hpos]
  nth_rewrite 1 [hu]
  exact Origin.cut?_append file u c.rest

lemma run_round_of_none (h : st.Reaches whole c done) (hkey : c.skipBlanks.keyword? "#include".toList = none) :
    (round file whole st).run c.pos = some (.inr (.ok ⟨done ++ c.rest, st.directives⟩), c.skipBlanks.pos) := by
  have hc₁ := h.place.trans (Cursor.before_skipBlanks c)
  rw [round, Scan.run_bind_of (Scan.run_skipBlanks h.place), Scan.run_bind_of rfl,
    Scan.run_bind_of (Scan.run_finds hc₁ (by rw [Cursor.read, hkey])), if_neg Bool.false_ne_true, h.blanked]
  rfl

lemma run_round_of_malformed (hc : (Cursor.start whole).Before c)
    (hkey : c.skipBlanks.keyword? "#include".toList = some c₁) (htarget : includeTarget? c₁ = none) :
    ∃ n, (round file whole st).run c.pos = some (.inr (.error (.located
      (.malformedInclude (Text.trim (originOf file whole c.skipBlanks).text.toList))
      (originOf file whole c.skipBlanks))), n) := by
  have hc₁ := hc.trans (Cursor.before_skipBlanks c)
  obtain ⟨n, hpath, -⟩ := Scan.run_includePath (hc₁.trans (Cursor.before_of_keyword? hkey))
  rw [htarget] at hpath
  refine ⟨n, ?_⟩
  rw [round, Scan.run_bind_of (Scan.run_skipBlanks hc), Scan.run_bind_of rfl,
    Scan.run_bind_of (Scan.run_finds hc₁ (by rw [Cursor.read, hkey])), if_pos rfl, cut?_of_before hc₁,
    Scan.run_bind_of rfl, Scan.run_bind_of hpath]
  rfl

lemma run_round_of_target (hc : (Cursor.start whole).Before c)
    (hkey : c.skipBlanks.keyword? "#include".toList = some c₁) (htarget : includeTarget? c₁ = some (target, c₂)) :
    (round file whole st).run c.pos = some (.inl ⟨st.directives ++ [⟨target, originOf file whole c.skipBlanks⟩],
      st.spans ++ [(c.skipBlanks.pos, c₂.pos)]⟩, c₂.pos) := by
  have hc₁ := hc.trans (Cursor.before_skipBlanks c)
  obtain ⟨n, hpath, hn⟩ := Scan.run_includePath (hc₁.trans (Cursor.before_of_keyword? hkey))
  rw [htarget] at hpath
  rw [← hn target c₂ htarget, round, Scan.run_bind_of (Scan.run_skipBlanks hc), Scan.run_bind_of rfl,
    Scan.run_bind_of (Scan.run_finds hc₁ (by rw [Cursor.read, hkey])), if_pos rfl, cut?_of_before hc₁,
    Scan.run_bind_of rfl, Scan.run_bind_of hpath]
  rfl

/-- One more directive is noted, and the cursor goes behind it. -/
lemma Noted.Reaches.note (h : st.Reaches whole c done) (hkey : c.skipBlanks.keyword? "#include".toList = some c₁)
    (htarget : includeTarget? c₁ = some (target, c₂)) (directives : List Directive) :
    Noted.Reaches whole ⟨directives, st.spans ++ [(c.skipBlanks.pos, c₂.pos)]⟩ c₂
      (done ++ ((c.takeWhile isBlank).1 ++ List.replicate (c₂.pos - c.skipBlanks.pos) ' ')) := by
  obtain ⟨w', -, hw', hpos'⟩ := sameLine_of_includeTarget? htarget
  obtain ⟨w, hw, hpos⟩ := (Cursor.before_of_keyword? hkey).trans ⟨w', hw', hpos'⟩
  have hlen : c₂.pos - c.skipBlanks.pos = Text.byteLength w := by omega
  have hrest : c.rest = (c.takeWhile isBlank).1 ++ (w ++ c₂.rest) := by
    rw [← hw]
    exact List.takeWhile_append_dropWhile.symm
  have hstart : c.skipBlanks.pos = Text.byteLength (done ++ (c.takeWhile isBlank).1) := by
    rw [Text.byteLength_append, h.length]
    rfl
  have hspan : (done ++ c.rest).blankSpan? (c.skipBlanks.pos, c₂.pos) =
      some (done ++ (c.takeWhile isBlank).1 ++ List.replicate (Text.byteLength w) ' ' ++ c₂.rest) := by
    rw [hpos, hstart, hrest, ← List.append_assoc]
    exact Text.blankSpan?_append _ w c₂.rest
  rw [hlen, ← List.append_assoc]
  refine ⟨(h.place.trans (Cursor.before_skipBlanks c)).trans ⟨w, hw, hpos⟩, ?_, ?_⟩
  · rw [Text.byteLength_append, Text.byteLength_spaces, ← hstart, hpos]
  · rw [List.foldlM_append, h.blanked, ← hspan]
    show (Text.blankSpan? (done ++ c.rest) _).bind _ = _
    rw [hspan]
    rfl

/-- **The directives of a file are scanned as they are read**: behind those that have been noted, the rounds note those
from `c` on, and at last blank all of them. -/
theorem ends_round (h : st.Reaches whole c done) :
    Scan.Ends (round file whole) st c.pos
      ((takeFrom file whole c).map fun p => ⟨done ++ p.text, st.directives ++ p.directives⟩) := by
  fun_induction takeFrom file whole c generalizing st done with
  | case1 c hkey =>
    rw [Except.map, List.append_nil]
    exact .stop (run_round_of_none h hkey)
  | case2 c c₁ hkey =>
    rename_i htarget
    obtain ⟨n, hround⟩ := run_round_of_malformed h.place hkey htarget
    exact .stop hround
  | case3 c c₁ hkey target c₂ htarget f hrest ih =>
    have hends := ih (h.note hkey htarget (st.directives ++ [⟨target, originOf file whole c.skipBlanks⟩]))
    rw [hrest] at hends
    exact .again (run_round_of_target h.place hkey htarget) hends
  | case4 c c₁ hkey here target c₂ htarget p hrest =>
    rename_i ih
    have hends := ih (h.note hkey htarget (st.directives ++ [⟨target, here⟩]))
    rw [hrest, Except.map, List.append_assoc done, List.append_assoc st.directives] at hends
    exact .again (run_round_of_target h.place hkey htarget) hends

end Rounds
end Prepared

/-- **The cursor never splits a character.** At every byte of every text, a reading that finds its bytes and cuts its
answer out of the text has the answer of the cursor, and none inside a character. A run that starts at the first byte,
and jumps only to where it has been, has an answer to each of its steps: after each it stands between two characters of
the text, no reading goes back, one that fails stays where it is, and from the old place to the new one stands what the
answer says. So the readers that do nothing but such steps, and cut besides only lines, directives and pairs of digits,
have a result for every input, and it is the one that is read: those of a body, of the sources, of a code table, and of
the directives of a file. The same holds of the search for the file and the line of a byte. -/
theorem cursor_keeps_boundaries :
    (∀ (t : Text) (n : Nat) (r : Cursor.Reading), n ≤ t.byteLength →
      Cursor.readAt? t n r = ((Spot.seek t n).step? t (.read r)).map fun p => (p.1, p.2.pos)) ∧
    (∀ (t : Text) (steps : List Spot.Step), Spot.recalls t [0] (.place (Cursor.start t)) steps = true →
      ∃ answers, Spot.run? t (.place (Cursor.start t)) steps = some answers ∧
        Spot.Run t (Cursor.start t) steps answers) ∧
    (∀ b : Body, Scan.Ends b.round ([], []) 0 b.ops) ∧
    (∀ s : Sources, Scan.Ends (Program.round s) {} 0 (Program.read s)) ∧
    (∀ body : Text, Scan.Ends (codeRound body) [] 0 (codeBytes body)) ∧
    (∀ file whole : Text, Scan.Ends (Prepared.round file whole) {} 0
      (Prepared.takeFrom file whole (Cursor.start whole))) ∧
    (∀ digits : Text, Bytes.cutHex? digits = some (Bytes.ofHex? digits)) ∧
    (∀ (f : SourceFile) (n : Nat), Origin.cut? f.name f.text (Text.byteLength (Text.takeBytes n f.text)) =
      some ((Sources.lines [f]).originAt n)) ∧
    ∀ (files : Sources) (n : Nat), files.search? n = some (files.lines.originAt n) := by
  refine ⟨fun t n r hn => Spot.readAt?_eq_step? hn r, fun t steps hsteps => ?_, fun b => ?_, fun s => ?_,
    fun body => ?_, fun file whole => ?_, Bytes.cutHex?_eq, Origin.cut?_takeBytes,
    Sources.search?_eq⟩
  · have hstart : ∀ n ∈ [0], ∃ d, (Cursor.start t).Before d ∧ d.pos = n := by
      intro n hn
      rw [List.mem_singleton] at hn
      exact ⟨Cursor.start t, .refl, hn.symm⟩
    exact Spot.run?_of_recalls .refl hstart hsteps
  · have hmap : (b.opsFrom [] (Cursor.start b.text)).map ([] ++ ·) = b.ops := congrFun Except.map_id _
    rw [← hmap]
    exact Body.ends_round [] [] .refl
  · exact Program.ends_round {} .refl
  · have hmap : (codeBytesFrom (Cursor.start body)).map ([] ++ ·) = codeBytes body := congrFun Except.map_id _
    rw [← hmap]
    exact ends_codeRound [] .refl
  · have hmap : (Prepared.takeFrom file whole (Cursor.start whole)).map
        (fun p => ⟨[] ++ p.text, [] ++ p.directives⟩) = Prepared.takeFrom file whole (Cursor.start whole) :=
      congrFun Except.map_id _
    have hreaches : Prepared.Noted.Reaches whole {} (Cursor.start whole) [] := ⟨.refl, rfl, rfl⟩
    rw [← hmap]
    exact Prepared.ends_round hreaches

namespace Sample

/-- Characters of one, two and four bytes. -/
def accented : Text := " é<ü😀>z\x7d".toList

/-- Steps over all of them, with jumps back to where the cursor has been. -/
def wander : List Spot.Step :=
  [.read .skipBlanks, .read (.balanced '<' '>'), .read .word, .read (.takeWhile fun x => x != '<'),
    .read (.balanced '<' '>'), .seek 3, .read (.untilChar '}'), .read (.eat '😀'), .seek 0, .read .peek]

end Sample

/-- The cursor goes from byte 3 behind the bracketed characters, to byte 11, and back. Byte 2 lies inside the character
at byte 1, and nothing can be read there. -/
theorem cursor_keeps_boundaries_accented :
    Spot.recalls Sample.accented [0] (.place (Cursor.start Sample.accented)) Sample.wander = true ∧
    (∃ answers, Spot.run? Sample.accented (.place (Cursor.start Sample.accented)) Sample.wander = some answers ∧
      Spot.Run Sample.accented (Cursor.start Sample.accented) Sample.wander answers ∧
      answers.map (fun p => p.2.pos) = [1, 1, 1, 3, 11, 3, 13, 13, 0, 0]) ∧
    Cursor.readAt? Sample.accented 2 .peek = none := by
  have hrecalls : Spot.recalls Sample.accented [0] (.place (Cursor.start Sample.accented)) Sample.wander = true := by
    decide
  obtain ⟨answers, hrun, hplaces⟩ := cursor_keeps_boundaries.2.1 Sample.accented Sample.wander hrecalls
  refine ⟨hrecalls, ⟨answers, hrun, hplaces, ?_⟩, ?_⟩
  · have hpos : (Spot.run? Sample.accented (.place (Cursor.start Sample.accented)) Sample.wander).map
        (·.map fun p => p.2.pos) = some [1, 1, 1, 3, 11, 3, 13, 13, 0, 0] := by decide
    rw [hrun] at hpos
    exact Option.some.inj hpos
  · exact (cursor_keeps_boundaries.1 Sample.accented 2 .peek (by decide)).trans (by decide)

end MacroAsm
