import MacroAsm.Proofs.Matching

/-!
# Cutting a text between its characters

A cursor is kept as a number of bytes, and whatever it reads is cut out of the text at such numbers. A cut inside a
character is impossible. No reading comes to such a place, and a jump back to where a cursor has been does not either.

* `Text.slice? t a b`: the text between two bytes, if they lie between characters;
* `Cursor.readAt? t n r`: a reading at byte `n`, by cuts; `Spot.readAt?_eq_step?`: it is that of the spot;
* `Cursor.Took r a w`: what a reading with the answer `a` has read; `Cursor.moves_read`: it goes behind that;
* `Spot.recalls`: runs that jump only to where they have been; `Spot.Keeps`: what a step keeps;
* `Spot.run?_of_recalls`: such a run never cuts a character.
-/

namespace MacroAsm

namespace Text

/-! ## slices -/

/-- The text from byte `a` to byte `b`; nothing unless both lie between characters and come in this order. -/
def slice? (t : Text) (a b : Nat) : Option Text :=
  if byteLength (takeBytes a t) = a ∧ byteLength (takeBytes b t) = b ∧ a ≤ b then
    some ((takeBytes b t).drop (takeBytes a t).length)
  else none

lemma takeBytes_append (u v : Text) : takeBytes (byteLength u) (u ++ v) = u := by
  induction u with
  | nil =>
    cases v with
    | nil => rfl
    | cons c v =>
      have hpos := c.utf8Size_pos
      exact if_neg (by rw [byteLength_nil]; omega)
  | cons c u ih =>
    rw [List.cons_append, takeBytes, byteLength_cons, if_pos (Nat.le_add_right ..), Nat.add_sub_cancel_left, ih]

/-- Behind the first `n` bytes, the text goes on with a character that has more than are left of them. -/
lemma exists_takeBytes_append (n : Nat) (t : Text) :
    ∃ r, t = takeBytes n t ++ r ∧ ∀ x ∈ r.head?, n < byteLength (takeBytes n t) + x.utf8Size := by
  induction t generalizing n with
  | nil => exact ⟨[], by rw [takeBytes]; rfl, fun x hx => by cases hx⟩
  | cons c t ih =>
    rw [takeBytes]
    split
    · obtain ⟨r, hr, hhead⟩ := ih (n - c.utf8Size)
      refine ⟨r, by rw [List.cons_append, ← hr], fun x hx => ?_⟩
      have := hhead x hx
      rw [byteLength_cons]
      omega
    · refine ⟨c :: t, rfl, fun x hx => ?_⟩
      cases hx
      rw [byteLength_nil]
      omega

lemma byteLength_takeBytes_le (n : Nat) (t : Text) : byteLength (takeBytes n t) ≤ n := by
  induction t generalizing n with
  | nil => rw [takeBytes, byteLength_nil]; omega
  | cons c t ih =>
    rw [takeBytes]
    split
    · have := ih (n - c.utf8Size)
      rw [byteLength_cons]
      omega
    · exact Nat.zero_le n

lemma eq_nil_of_byteLength {t : Text} (h : byteLength t = 0) : t = [] := by
  cases t with
  | nil => rfl
  | cons c t =>
    have := c.utf8Size_pos
    rw [byteLength_cons] at h
    omega

/-- **A slice lies between characters**, and every text that does is one. -/
theorem slice?_eq_some_iff {t m : Text} {a b : Nat} :
    t.slice? a b = some m ↔ ∃ u v, t = u ++ (m ++ v) ∧ a = byteLength u ∧ b = byteLength u + byteLength m := by
  unfold slice?
  constructor
  · intro h
    split at h
    · next hcut =>
      obtain ⟨ha, hb, hab⟩ := hcut
      cases h
      obtain ⟨r, hr, -⟩ := exists_takeBytes_append a t
      obtain ⟨v, hv, -⟩ := exists_takeBytes_append b t
      -- the shorter of two beginnings of one text is a beginning of the longer
      rcases List.append_eq_append_iff.1 (hr.symm.trans hv) with ⟨m, hm, -⟩ | ⟨m, hm, -⟩
      · rw [hm, List.drop_left]
        refine ⟨takeBytes a t, v, ?_, ha.symm, ?_⟩
        · rw [← List.append_assoc, ← hm]
          exact hv
        · rw [← byteLength_append, ← hm, hb]
      · have hlength := congrArg byteLength hm
        rw [byteLength_append] at hlength
        have hnil : m = [] := eq_nil_of_byteLength (by omega)
        rw [hnil, List.append_nil] at hm
        rw [hm, List.drop_length]
        exact ⟨takeBytes b t, v, hv, by rw [← hm, ha], by rw [byteLength_nil]; omega⟩
    · cases h
  · rintro ⟨u, v, rfl, rfl, rfl⟩
    have hfront := takeBytes_append u (m ++ v)
    have hwhole : takeBytes (byteLength u + byteLength m) (u ++ (m ++ v)) = u ++ m := by
      rw [← byteLength_append, ← List.append_assoc, takeBytes_append]
    rw [hfront, hwhole, byteLength_append, if_pos ⟨rfl, rfl, Nat.le_add_right ..⟩, List.drop_left]

lemma slice?_append (u m v : Text) :
    (u ++ (m ++ v)).slice? (byteLength u) (byteLength u + byteLength m) = some m :=
  slice?_eq_some_iff.2 ⟨u, v, rfl, rfl, rfl⟩

lemma slice?_front (m v : Text) : (m ++ v).slice? 0 (byteLength m) = some m :=
  slice?_eq_some_iff.2 ⟨[], v, rfl, rfl, (Nat.zero_add _).symm⟩

lemma slice?_back (u m : Text) : (u ++ m).slice? (byteLength u) (byteLength (u ++ m)) = some m :=
  slice?_eq_some_iff.2 ⟨u, [], by rw [List.append_nil], rfl, byteLength_append u m⟩

/-- Inside a character nothing can be cut. -/
lemma slice?_of_inside {t : Text} {n : Nat} (h : byteLength (takeBytes n t) ≠ n) (b : Nat) : t.slice? n b = none :=
  if_neg fun hcut => h hcut.1

/-! ## looking for a byte -/

/-- The byte at which the first character stands that satisfies `p`. -/
def findByte? (p : Char → Bool) : Text → Option Nat
  | [] => none
  | c :: t => if p c then some 0 else (findByte? p t).map (c.utf8Size + ·)

lemma findByte?_of_not_mem {x : Char} {t : Text} (h : x ∉ t) : t.findByte? (· == x) = none := by
  induction t with
  | nil => rfl
  | cons c t ih =>
    rw [List.mem_cons, not_or] at h
    rw [findByte?, if_neg (by simpa using Ne.symm h.1), ih h.2]
    rfl

lemma findByte?_append_cons {x : Char} {w : Text} (hw : x ∉ w) (r : Text) :
    findByte? (· == x) (w ++ x :: r) = some (byteLength w) := by
  induction w with
  | nil => exact if_pos (beq_self_eq_true x)
  | cons c w ih =>
    rw [List.mem_cons, not_or] at hw
    rw [List.cons_append, findByte?, if_neg (by simpa using Ne.symm hw.1), ih hw.2]
    rfl

/-- The slice up to the first character that does not satisfy `p`, and the byte at which it ends. -/
def span? (p : Char → Bool) (t : Text) : Option (Text × Nat) :=
  (t.slice? 0 ((t.findByte? fun c => !p c).getD t.byteLength)).map
    (·, (t.findByte? fun c => !p c).getD t.byteLength)

lemma getD_findByte? (p : Char → Bool) (t : Text) :
    (t.findByte? fun c => !p c).getD t.byteLength = byteLength (t.takeWhile p) := by
  induction t with
  | nil => rfl
  | cons c t ih =>
    cases hc : p c with
    | false => simp [findByte?, hc]
    | true =>
      have hskip : findByte? (fun c => !p c) (c :: t) = (findByte? (fun c => !p c) t).map (c.utf8Size + ·) :=
        if_neg (by simp [hc])
      rw [hskip, List.takeWhile_cons_of_pos hc, byteLength_cons, byteLength_cons, ← ih]
      cases findByte? (fun c => !p c) t <;> rfl

lemma span?_eq (p : Char → Bool) (t : Text) : t.span? p = some (t.takeWhile p, byteLength (t.takeWhile p)) := by
  have hslice := slice?_front (t.takeWhile p) (t.dropWhile p)
  rw [List.takeWhile_append_dropWhile] at hslice
  rw [span?, getD_findByte?, hslice]
  rfl

end Text

namespace Cursor

/-! ## readings by cuts -/

/-- A reading at byte `n` of a text of which `rest` is still to come. Each reading finds the number of bytes that it
takes in its own way, and cuts its answer out of `rest`. -/
def readFrom? (rest : Text) (n : Nat) : Reading → Option (Answer × Nat)
  | .peek => some ((rest.head?.map fun x => .text [x]).getD .nothing, n)
  | .rest => some (.text rest, n)
  | .skipBlanks => (rest.span? isBlank).map fun s => (.count (n + s.2 - n), n + s.2)
  | .eat x => some (if rest.head? = some x then (.flag true, n + x.utf8Size) else (.flag false, n))
  | .eatText s => some (if s.isPrefixOf rest then (.flag true, n + s.byteLength) else (.flag false, n))
  | .keyword s =>
    if s.isPrefixOf rest then
      (rest.slice? s.byteLength rest.byteLength).map fun tail =>
        if tail.head?.any isWordChar then (.flag false, n) else (.flag true, n + s.byteLength)
    else some (.flag false, n)
  | .word => (rest.span? isWordChar).map fun s => (if s.1.isEmpty then .nothing else .text s.1, n + s.2)
  | .takeWhile p => (rest.span? p).map fun s => (.text s.1, n + s.2)
  | .balanced o x =>
    if rest.head? = some o then
      match Text.tally o x 0 rest with
      | .underflow => none
      | .unclosed => some (.nothing, n)
      | .closed taken _ =>
        (rest.slice? o.utf8Size (taken.byteLength - x.utf8Size)).map fun inner =>
          (.text inner, n + (taken.byteLength - x.utf8Size + x.utf8Size))
    else some (.nothing, n)
  | .untilChar x => match rest.findByte? (· == x) with
    | none => some (.nothing, n)
    | some i => (rest.slice? 0 i).map fun before => (.text before, n + (i + x.utf8Size))
  | .line => some (.text (rest.takeWhile (· != '\n')), n)

/-- A reading at byte `n` of the text `t`, and the byte after it; nothing if a character would be cut. -/
def readAt? (t : Text) (n : Nat) (r : Reading) : Option (Answer × Nat) :=
  (t.slice? n t.byteLength).bind fun rest => readFrom? rest n r

variable {t : Text} {c c' : Cursor}

lemma isPrefixOf_of_rest {s r : Text} (h : c.rest = s ++ r) : s.isPrefixOf c.rest = true :=
  List.isPrefixOf_iff_prefix.2 ⟨r, h.symm⟩

lemma isPrefixOf_of_eatText? {s : Text} (h : c.eatText? s = none) : s.isPrefixOf c.rest = false := by
  rw [← Bool.not_eq_true, List.isPrefixOf_iff_prefix]
  rintro ⟨r, hr⟩
  rw [eatText?_eq_some_iff.2 ⟨r, hr.symm, rfl⟩] at h
  cases h

lemma readFrom?_eatText (c : Cursor) (s : Text) :
    readFrom? c.rest c.pos (.eatText s) = some ((c.read (.eatText s)).1, (c.read (.eatText s)).2.pos) := by
  rw [readFrom?, read]
  cases h : c.eatText? s with
  | none => rw [isPrefixOf_of_eatText? h]; rfl
  | some c₁ =>
    obtain ⟨r, hr, rfl⟩ := eatText?_eq_some_iff.1 h
    rw [isPrefixOf_of_rest hr]
    rfl

lemma readFrom?_keyword (c : Cursor) (s : Text) :
    readFrom? c.rest c.pos (.keyword s) = some ((c.read (.keyword s)).1, (c.read (.keyword s)).2.pos) := by
  rw [readFrom?, read, keyword?]
  cases h : c.eatText? s with
  | none => rw [isPrefixOf_of_eatText? h]; rfl
  | some c₁ =>
    obtain ⟨r, hr, rfl⟩ := eatText?_eq_some_iff.1 h
    have htail : c.rest.slice? s.byteLength c.rest.byteLength = some r := by
      rw [hr]
      exact Text.slice?_back s r
    rw [if_pos (isPrefixOf_of_rest hr), htail, Option.map_some, Option.filter_some]
    show some (if r.head?.any isWordChar then _ else _) = _
    have hpeek : (c.behind s r).peek? = r.head? := rfl
    rw [hpeek]
    cases r.head?.any isWordChar <;> rfl

/-- What stands between two brackets, which may be the same. -/
lemma exists_of_balanced? {o x : Char} {inner : Text} (h : c.balanced? o x = some (inner, c')) :
    ∃ r, c.rest = o :: inner ++ x :: r ∧ c' = c.behind (o :: inner ++ [x]) r := by
  unfold balanced? at h
  split at h
  · cases h
  · next y u hrest =>
    split at h
    · next hy =>
      obtain ⟨⟨i, r⟩, hclosing, hpair⟩ := Option.map_eq_some_iff.1 h
      cases hpair
      rw [hrest, hy, Text.eq_of_closing hclosing]
      exact ⟨r, rfl, rfl⟩
    · cases h

lemma readFrom?_balanced (c : Cursor) (o x : Char) :
    readFrom? c.rest c.pos (.balanced o x) = some ((c.read (.balanced o x)).1, (c.read (.balanced o x)).2.pos) := by
  rw [readFrom?, read]
  by_cases hopen : c.peek? = some o
  · have hhead : c.rest.head? = some o := hopen
    rw [if_pos hhead, tally_balanced? hopen]
    cases h : c.balanced? o x with
    | none => rfl
    | some p =>
      obtain ⟨inner, c₁⟩ := p
      obtain ⟨r, hrest, rfl⟩ := exists_of_balanced? h
      have hsize : Text.byteLength (o :: inner ++ [x]) = o.utf8Size + Text.byteLength inner + x.utf8Size := by
        simp [Nat.add_assoc]
      have hinner : c.rest.slice? o.utf8Size (o.utf8Size + Text.byteLength inner) = some inner := by
        rw [hrest]
        exact Text.slice?_append [o] inner (x :: r)
      show (c.rest.slice? o.utf8Size (Text.byteLength (o :: inner ++ [x]) - x.utf8Size)).map _ = _
      rw [hsize, Nat.add_sub_cancel, hinner, ← hsize]
      rfl
  · have hhead : ¬ c.rest.head? = some o := hopen
    rw [if_neg hhead, balanced?_of_peek? hopen]

lemma readFrom?_untilChar (c : Cursor) (x : Char) :
    readFrom? c.rest c.pos (.untilChar x) = some ((c.read (.untilChar x)).1, (c.read (.untilChar x)).2.pos) := by
  rw [readFrom?, read]
  cases h : c.until? x with
  | none =>
    have hnot : x ∉ c.rest := by
      intro hx
      obtain ⟨u, v, hrest, hu⟩ := List.eq_append_cons_of_mem hx
      rw [until?_eq_some_iff.2 ⟨v, hrest, hu, rfl⟩] at h
      cases h
    rw [Text.findByte?_of_not_mem hnot]
  | some p =>
    obtain ⟨before, c₁⟩ := p
    obtain ⟨r, hrest, hnot, rfl⟩ := until?_eq_some_iff.1 h
    have hsize : Text.byteLength (before ++ [x]) = before.byteLength + x.utf8Size := by simp
    rw [hrest, Text.findByte?_append_cons hnot]
    show ((before ++ x :: r).slice? 0 before.byteLength).map _ = _
    rw [Text.slice?_front, ← hsize]
    rfl

/-- **Every reading takes as many bytes as the characters have that it reads**, and cuts none of them. -/
theorem readFrom?_eq_read (c : Cursor) (r : Reading) :
    readFrom? c.rest c.pos r = some ((c.read r).1, (c.read r).2.pos) := by
  cases r with
  | peek => rfl
  | rest => rfl
  | line => rfl
  | skipBlanks =>
    rw [readFrom?, Text.span?_eq]
    rfl
  | takeWhile p =>
    rw [readFrom?, Text.span?_eq]
    rfl
  | word =>
    have hword : c.word? = if (c.takeWhile isWordChar).1.isEmpty then none else some (c.takeWhile isWordChar) := rfl
    have hspan : c.rest.span? isWordChar = some ((c.takeWhile isWordChar).1, (c.takeWhile isWordChar).1.byteLength) :=
      Text.span?_eq ..
    rw [readFrom?, hspan, read, hword]
    cases hw : (c.takeWhile isWordChar).1.isEmpty with
    | false =>
      simp only [Option.map_some, hw, Bool.false_eq_true, ↓reduceIte]
      rfl
    | true => simp [List.isEmpty_iff.1 hw]
  | eat x =>
    rw [readFrom?, read, eat?]
    cases c.rest with
    | nil => rfl
    | cons y u =>
      by_cases hxy : x = y
      · simp [hxy, behind]
      · simp [hxy, Ne.symm hxy]
  | eatText s => exact readFrom?_eatText c s
  | keyword s => exact readFrom?_keyword c s
  | balanced o x => exact readFrom?_balanced c o x
  | untilChar x => exact readFrom?_untilChar c x

lemma slice?_of_before (hc : (start t).Before c) : t.slice? c.pos t.byteLength = some c.rest := by
  obtain ⟨u, hu, hpos⟩ := hc
  have hu : t = u ++ c.rest := hu
  have hpos : c.pos = Text.byteLength u := hpos.trans (Nat.zero_add _)
  rw [hpos, hu]
  exact Text.slice?_back u c.rest

/-- At a place of a text, a reading by cuts is the reading of the cursor. -/
theorem readAt?_of_before (hc : (start t).Before c) (r : Reading) :
    readAt? t c.pos r = some ((c.read r).1, (c.read r).2.pos) := by
  rw [readAt?, slice?_of_before hc, Option.bind_some, readFrom?_eq_read]

/-! ## what a reading has read -/

/-- The reading found nothing, or not what it was to find. -/
def Answer.failed : Answer → Bool
  | .nothing => true
  | .flag b => !b
  | .count _ => false
  | .text _ => false

/-- What a reading with a given answer has read: the answer itself, together with the characters that enclose or end it,
and nothing if it only looked or failed. -/
inductive Took : Reading → Answer → Text → Prop
  | peek (a : Answer) : Took .peek a []
  | rest (a : Answer) : Took .rest a []
  | line (a : Answer) : Took .line a []
  | skipBlanks {w : Text} (hw : ∀ x ∈ w, isBlank x = true) : Took .skipBlanks (.count w.byteLength) w
  | eat (x : Char) : Took (.eat x) (.flag true) [x]
  | eatText (s : Text) : Took (.eatText s) (.flag true) s
  | keyword (s : Text) : Took (.keyword s) (.flag true) s
  | word {w : Text} (hw : w.isWord = true) : Took .word (.text w) w
  | takeWhile {p : Char → Bool} {w : Text} (hw : ∀ x ∈ w, p x = true) : Took (.takeWhile p) (.text w) w
  | balanced (o x : Char) (w : Text) : Took (.balanced o x) (.text w) (o :: w ++ [x])
  | untilChar {x : Char} {w : Text} (hw : x ∉ w) : Took (.untilChar x) (.text w) (w ++ [x])
  | failed (r : Reading) {a : Answer} (h : a.failed = true) : Took r a []

/-- The reading `r` has the answer `a` and goes from `c` to `c'`, behind what it has read. -/
def Moves (c : Cursor) (r : Reading) (a : Answer) (c' : Cursor) : Prop :=
  ∃ w, c.rest = w ++ c'.rest ∧ c'.pos = c.pos + Text.byteLength w ∧ Took r a w

lemma moves_behind {r : Reading} {a : Answer} {w u : Text} (h : c.rest = w ++ u) (htook : Took r a w) :
    c.Moves r a (c.behind w u) := ⟨w, h, rfl, htook⟩

lemma moves_failed (r : Reading) {a : Answer} (h : a.failed = true) : c.Moves r a c := ⟨[], rfl, rfl, .failed r h⟩

/-- **A reading goes behind what it has read.** -/
theorem moves_read (c : Cursor) (r : Reading) : c.Moves r (c.read r).1 (c.read r).2 := by
  cases r with
  | peek => exact ⟨[], rfl, rfl, .peek _⟩
  | rest => exact ⟨[], rfl, rfl, .rest _⟩
  | line => exact ⟨[], rfl, rfl, .line _⟩
  | skipBlanks =>
    have hcount : (c.read .skipBlanks).1 = .count (Text.byteLength (c.rest.takeWhile isBlank)) :=
      congrArg Answer.count (Nat.add_sub_cancel_left ..)
    rw [hcount]
    exact moves_behind List.takeWhile_append_dropWhile.symm (.skipBlanks fun x => List.mem_takeWhile_imp)
  | takeWhile p =>
    exact moves_behind List.takeWhile_append_dropWhile.symm (.takeWhile fun x => List.mem_takeWhile_imp)
  | word =>
    rw [read]
    cases h : c.word? with
    | none => exact moves_failed _ rfl
    | some p =>
      obtain ⟨hword, u, hrest, -, hc'⟩ := word?_eq_some_iff.1 (show c.word? = some (p.1, p.2) from h)
      rw [hc']
      exact moves_behind hrest (.word hword)
  | eat x =>
    rw [read]
    cases h : c.eat? x with
    | none => exact moves_failed _ rfl
    | some c₁ =>
      obtain ⟨u, hrest, rfl⟩ := eat?_eq_some_iff.1 h
      exact moves_behind hrest (.eat x)
  | eatText s =>
    rw [read]
    cases h : c.eatText? s with
    | none => exact moves_failed _ rfl
    | some c₁ =>
      obtain ⟨u, hrest, rfl⟩ := eatText?_eq_some_iff.1 h
      exact moves_behind hrest (.eatText s)
  | keyword s =>
    rw [read]
    cases h : c.keyword? s with
    | none => exact moves_failed _ rfl
    | some c₁ =>
      obtain ⟨u, hrest, -, rfl⟩ := keyword?_eq_some_iff.1 h
      exact moves_behind hrest (.keyword s)
  | balanced o x =>
    rw [read]
    cases h : c.balanced? o x with
    | none => exact moves_failed _ rfl
    | some p =>
      obtain ⟨u, hrest, hc'⟩ := exists_of_balanced? (show c.balanced? o x = some (p.1, p.2) from h)
      rw [hc']
      exact moves_behind (by simpa using hrest) (.balanced o x p.1)
  | untilChar x =>
    rw [read]
    cases h : c.until? x with
    | none => exact moves_failed _ rfl
    | some p =>
      obtain ⟨u, hrest, hnot, hc'⟩ := until?_eq_some_iff.1 (show c.until? x = some (p.1, p.2) from h)
      rw [hc']
      exact moves_behind (by simpa using hrest) (.untilChar hnot)

lemma before_read (c : Cursor) (r : Reading) : c.Before (c.read r).2 := by
  obtain ⟨w, hrest, hpos, -⟩ := moves_read c r
  exact ⟨w, hrest, hpos⟩

/-- A reading that fails stays where it is. -/
theorem read_of_failed {r : Reading} (h : (c.read r).1.failed = true) : (c.read r).2 = c := by
  cases r with
  | peek => rfl
  | rest => rfl
  | line => rfl
  | skipBlanks => cases h
  | takeWhile p => cases h
  | word | eat x | eatText s | keyword s | balanced o x | untilChar x =>
    rw [read] at h ⊢
    split
    · next hsome =>
      rw [hsome] at h
      cases h
    · rfl

/-- The text between two places. -/
lemma slice?_of_moves {r : Reading} {a : Answer} (hc : (start t).Before c) (h : c.Moves r a c') :
    ∃ w, t.slice? c.pos c'.pos = some w ∧ Took r a w := by
  obtain ⟨u, hu, hpos⟩ := hc
  obtain ⟨w, hrest, hpos', htook⟩ := h
  have hpos : c.pos = Text.byteLength u := hpos.trans (Nat.zero_add _)
  refine ⟨w, Text.slice?_eq_some_iff.2 ⟨u, c'.rest, ?_, hpos, by rw [hpos', hpos]⟩, htook⟩
  rw [← hrest]
  exact hu

lemma pos_le_of_before (hc : (start t).Before c) : c.pos ≤ t.byteLength := by
  have htotal : c.total = (start t).total := hc.total
  simp only [total, start, Nat.zero_add] at htotal
  omega

end Cursor

namespace Spot

/-! ## bytes and places -/

lemma before_after (t : Text) (n : Nat) : (Cursor.start t).Before (Cursor.after t n) := by
  obtain ⟨r, hr, -⟩ := Text.exists_takeBytes_append n t
  refine ⟨Text.takeBytes n t, ?_, rfl⟩
  show t = Text.takeBytes n t ++ t.drop (Text.takeBytes n t).length
  generalize Text.takeBytes n t = u at hr ⊢
  rw [hr, List.drop_left]

/-- A jump to the byte of a place leads to that place. -/
theorem seek_of_before {t : Text} {c : Cursor} (hc : (Cursor.start t).Before c) : seek t c.pos = .place c := by
  obtain ⟨u, hu, hpos⟩ := hc
  have hu : t = u ++ c.rest := hu
  have hpos : c.pos = Text.byteLength u := hpos.trans (Nat.zero_add _)
  have hafter : Cursor.after t c.pos = c := by
    have htake : Text.takeBytes c.pos t = u := by rw [hpos, hu, Text.takeBytes_append]
    unfold Cursor.after Cursor.behind
    rw [htake, hu, List.drop_left, ← hpos, Cursor.start, Nat.zero_add]
  unfold seek
  rw [hafter]
  simp

/-- **Readings by cuts are those of spots**: at every byte of a text the same answer and the same byte after it, and
nothing inside a character. -/
theorem readAt?_eq_step? {t : Text} {n : Nat} (hn : n ≤ t.byteLength) (r : Cursor.Reading) :
    Cursor.readAt? t n r = ((seek t n).step? t (.read r)).map fun p => (p.1, p.2.pos) := by
  have hbefore := before_after t n
  have hpos : (Cursor.after t n).pos = Text.byteLength (Text.takeBytes n t) := Nat.zero_add _
  by_cases hplace : (Cursor.after t n).pos = n
  · have hseek := seek_of_before hbefore
    have hread := Cursor.readAt?_of_before hbefore r
    rw [hplace] at hseek hread
    rw [hseek, hread]
    rfl
  · -- the end of the text is a place, so the byte lies inside a character
    have hinside : (Cursor.after t n).atEnd = false := by
      rw [← Bool.not_eq_true, Cursor.atEnd, List.isEmpty_iff]
      intro hend
      have htotal : (Cursor.after t n).total = (Cursor.start t).total := hbefore.total
      simp only [Cursor.total, hend, Cursor.start, Text.byteLength_nil, Nat.zero_add, Nat.add_zero] at htotal
      have hle := Text.byteLength_takeBytes_le n t
      omega
    have hseek : seek t n = .inside n := by
      unfold seek
      simp [hplace, hinside]
    rw [hseek, Cursor.readAt?, Text.slice?_of_inside (by rwa [← hpos])]
    rfl

/-! ## runs -/

/-- The byte to which a step jumps. -/
def Step.target? : Step → Option Nat
  | .read _ => none
  | .seek n => some n

/-- Each jump of a run goes to a byte at which the run has been; `seen` are those so far. -/
def recalls (t : Text) : List Nat → Spot → List Step → Bool
  | _, _, [] => true
  | seen, s, x :: xs =>
    x.target?.all seen.contains && (s.step? t x).all fun p => recalls t (p.2.pos :: seen) p.2 xs

/-- What a step keeps that is made at the place `c` of a text, has the answer `a` and leads to `c'`. -/
structure Keeps (t : Text) (c : Cursor) (x : Step) (a : Cursor.Answer) (c' : Cursor) : Prop where
  boundary : ∃ before, t = before ++ c'.rest ∧ c'.pos = Text.byteLength before
  bound : c'.pos ≤ t.byteLength
  forward : ∀ r, x = .read r → c.pos ≤ c'.pos
  failed : ∀ r, x = .read r → a.failed = true → c' = c
  taken : ∀ r, x = .read r → ∃ w, t.slice? c.pos c'.pos = some w ∧ Cursor.Took r a w
  recalled : ∀ n, x = .seek n → c'.pos = n

/-- Answers to all steps of a run from the place `c`, and after each step a place as it should be. -/
inductive Run (t : Text) : Cursor → List Step → List (Cursor.Answer × Spot) → Prop
  | nil (c : Cursor) : Run t c [] []
  | cons {c c' : Cursor} {x : Step} {a : Cursor.Answer} {xs : List Step} {answers : List (Cursor.Answer × Spot)}
    (h : Keeps t c x a c') (hrest : Run t c' xs answers) : Run t c (x :: xs) ((a, .place c') :: answers)

variable {t : Text} {c c' : Cursor}

lemma boundary_of_before (hc : (Cursor.start t).Before c) :
    ∃ before, t = before ++ c.rest ∧ c.pos = Text.byteLength before := by
  obtain ⟨u, hu, hpos⟩ := hc
  exact ⟨u, hu, hpos.trans (Nat.zero_add _)⟩

lemma keeps_read (hc : (Cursor.start t).Before c) (r : Cursor.Reading) :
    Keeps t c (.read r) (c.read r).1 (c.read r).2 := by
  have hnext := hc.trans (Cursor.before_read c r)
  have hmoves := Cursor.moves_read c r
  refine ⟨boundary_of_before hnext, Cursor.pos_le_of_before hnext, ?_, ?_, ?_, ?_⟩
  · rintro _ ⟨⟩
    obtain ⟨w, -, hpos, -⟩ := hmoves
    omega
  · rintro _ ⟨⟩ hfailed
    exact Cursor.read_of_failed hfailed
  · rintro _ ⟨⟩
    exact Cursor.slice?_of_moves hc hmoves
  · rintro _ ⟨⟩

lemma keeps_seek (hc' : (Cursor.start t).Before c') (a : Cursor.Answer) : Keeps t c (.seek c'.pos) a c' := by
  refine ⟨boundary_of_before hc', Cursor.pos_le_of_before hc', ?_, ?_, ?_, ?_⟩
  · rintro _ ⟨⟩
  · rintro _ ⟨⟩
  · rintro _ ⟨⟩
  · rintro _ ⟨⟩
    rfl

/-- **A run that jumps only to where it has been never cuts a character**: it has an answer to every step. -/
theorem run?_of_recalls {seen : List Nat} {xs : List Step} (hc : (Cursor.start t).Before c)
    (hseen : ∀ n ∈ seen, ∃ d, (Cursor.start t).Before d ∧ d.pos = n)
    (h : recalls t seen (.place c) xs = true) :
    ∃ answers, run? t (.place c) xs = some answers ∧ Run t c xs answers := by
  induction xs generalizing c seen with
  | nil => exact ⟨[], rfl, .nil c⟩
  | cons x xs ih =>
    rw [recalls, Bool.and_eq_true] at h
    obtain ⟨htarget, hrest⟩ := h
    -- a step from a place leads to a place, and its byte has been seen from then on
    have hstep : ∃ a c', step? t (.place c) x = some (a, .place c') ∧ (Cursor.start t).Before c' ∧
        Keeps t c x a c' := by
      cases x with
      | read r => exact ⟨_, _, rfl, hc.trans (Cursor.before_read c r), keeps_read hc r⟩
      | seek n =>
        have hn : n ∈ seen := List.contains_iff_mem.1 htarget
        obtain ⟨d, hd, rfl⟩ := hseen n hn
        refine ⟨.nothing, d, ?_, hd, keeps_seek hd _⟩
        rw [step?, seek_of_before hd]
    obtain ⟨a, c', hx, hc', hkeeps⟩ := hstep
    rw [hx] at hrest
    have hseen' : ∀ n ∈ c'.pos :: seen, ∃ d, (Cursor.start t).Before d ∧ d.pos = n :=
      List.forall_mem_cons.2 ⟨⟨c', hc', rfl⟩, hseen⟩
    obtain ⟨answers, hrun, hrun'⟩ := ih hc' hseen' hrest
    refine ⟨(a, .place c') :: answers, ?_, .cons hkeeps hrun'⟩
    rw [run?, hx]
    show (run? t (.place c') xs).bind _ = _
    rw [hrun]
    rfl

end Spot
end MacroAsm
