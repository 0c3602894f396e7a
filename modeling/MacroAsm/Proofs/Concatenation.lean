import MacroAsm.Program
import MacroAsm.Proofs.Embedding

/-!
# Joined sources

The texts of several files are joined without a gap and read by one cursor. Still each file is read as if it were alone:
a declaration ends with a brace of its own file, so nothing that is read in one file goes on into the next, and every
line is found in its own file.

* `Sources.originAt_append_left`, `Sources.originAt_append_right`: the lines of joined files;
* `Body.opsFrom_shift`: the operations of a body that stands later in the text;
* `Program.shift k p`: the program `p` with `k` more bytes before it; `Program.join p q`: `p` followed by `q`;
* `Draft.readFrom_under`: a text is read behind another program, and whatever follows it, as it is read alone;
* `read_append`: the program of joined sources is the join of their programs.
-/

namespace MacroAsm

/-! ## lines of joined files -/

lemma Text.splitWhere_ne_nil (p : Char → Bool) (t : Text) : splitWhere p t ≠ [] := by
  cases t with
  | nil => simp [splitWhere]
  | cons c t =>
    rw [splitWhere]
    split
    · simp
    · cases splitWhere p t <;> simp [consFirst]

/-- What stands before the first separator goes to the first piece. -/
lemma Text.splitWhere_append {p : Char → Bool} {w : Text} (hw : ∀ c ∈ w, p c = false) (t : Text) :
    ∃ piece pieces, splitWhere p t = piece :: pieces ∧ splitWhere p (w ++ t) = (w ++ piece) :: pieces := by
  obtain ⟨piece, pieces, ht⟩ := List.exists_cons_of_ne_nil (splitWhere_ne_nil p t)
  refine ⟨piece, pieces, ht, ?_⟩
  induction w with
  | nil => exact ht
  | cons c w ih =>
    have hc : ¬ p c = true := by simp [hw c List.mem_cons_self]
    rw [List.cons_append, splitWhere, if_neg hc, ih fun d hd => hw d (List.mem_cons_of_mem c hd)]
    rfl

/-- The lines with their ends are the text with one more end. -/
lemma Text.flatMap_splitWhere (x : Char) (t : Text) :
    (splitWhere (· == x) t).flatMap (fun line => line ++ [x]) = t ++ [x] := by
  induction t with
  | nil => rfl
  | cons c t ih =>
    rw [splitWhere]
    split
    · next hc => simp [ih, beq_iff_eq.1 hc]
    · cases hsplit : splitWhere (· == x) t with
      | nil => exact absurd hsplit (splitWhere_ne_nil _ t)
      | cons line lines =>
        rw [hsplit] at ih
        simpa [consFirst] using ih

namespace Origin

lemma ofLines_shift (file : String) (start k number : Nat) (ts : List Text) :
    ofLines file (start + k) number ts = (ofLines file start number ts).map (Prod.map (· + k) id) := by
  induction ts generalizing start number with
  | nil => rfl
  | cons t ts ih =>
    have hnext : start + k + Text.byteLength t + 1 = start + Text.byteLength t + 1 + k := by omega
    rw [ofLines, ofLines, hnext, ih]
    rfl

lemma bounds_of_mem_ofLines {file : String} {start number : Nat} {ts : List Text} {x : Nat × Origin}
    (h : x ∈ ofLines file start number ts) :
    start ≤ x.1 ∧ x.1 < start + Text.byteLength (ts.flatMap fun line => line ++ ['\n']) := by
  induction ts generalizing start number with
  | nil => cases h
  | cons t ts ih =>
    have hend : Text.byteLength ['\n'] = 1 := rfl
    rw [List.flatMap_cons, Text.byteLength_append, Text.byteLength_append, hend]
    rcases List.mem_cons.1 h with rfl | h
    · dsimp only
      omega
    · have := ih h
      omega

end Origin

namespace SourceFile

lemma lines_shift (f : SourceFile) (start k : Nat) :
    f.lines (start + k) = (f.lines start).map (Prod.map (· + k) id) := by
  unfold lines
  split
  · rfl
  · exact Origin.ofLines_shift ..

lemma bounds_of_mem_lines {f : SourceFile} {start : Nat} {x : Nat × Origin} (h : x ∈ f.lines start) :
    start ≤ x.1 ∧ x.1 ≤ start + Text.byteLength f.text := by
  unfold lines at h
  split at h
  · cases h
  · have hbounds := Origin.bounds_of_mem_ofLines h
    have hend : Text.byteLength ['\n'] = 1 := rfl
    rw [Text.flatMap_splitWhere, Text.byteLength_append, hend] at hbounds
    omega

end SourceFile

namespace Lines

variable {n : Nat} {best : Origin} {A B : List (Nat × Origin)}

lemma lastUpTo_append_left (hB : ∀ x ∈ B, n < x.1) : lastUpTo n best (A ++ B) = lastUpTo n best A := by
  induction A generalizing best with
  | nil =>
    cases B with
    | nil => rfl
    | cons x B => exact if_pos (hB x List.mem_cons_self)
  | cons x A ih => rw [List.cons_append, lastUpTo, lastUpTo, ih]

lemma lastUpTo_append_right (hA : ∀ x ∈ A, x.1 ≤ n) :
    lastUpTo n best (A ++ B) = lastUpTo n (lastUpTo n best A) B := by
  induction A generalizing best with
  | nil => rfl
  | cons x A ih =>
    have hx : ¬ n < x.1 := Nat.not_lt.2 (hA x List.mem_cons_self)
    rw [List.cons_append, lastUpTo, lastUpTo, if_neg hx, if_neg hx, ih fun y hy => hA y (List.mem_cons_of_mem x hy)]

lemma lastUpTo_shift (k : Nat) : lastUpTo (n + k) best (A.map (Prod.map (· + k) id)) = lastUpTo n best A := by
  induction A generalizing best with
  | nil => rfl
  | cons x A ih =>
    rw [List.map_cons, lastUpTo, lastUpTo, ih]
    simp only [Prod.map_fst, Prod.map_snd, id_eq, Nat.add_lt_add_iff_right]

end Lines

namespace Sources

variable (s₁ s₂ : Sources)

lemma text_append : text (s₁ ++ s₂) = text s₁ ++ text s₂ := List.flatMap_append

lemma text_cons (f : SourceFile) (s : Sources) : text (f :: s) = f.text ++ text s := List.flatMap_cons

lemma linesFrom_append (start : Nat) :
    linesFrom start (s₁ ++ s₂) = linesFrom start s₁ ++ linesFrom (start + Text.byteLength (text s₁)) s₂ := by
  induction s₁ generalizing start with
  | nil => rfl
  | cons f s ih => rw [List.cons_append, linesFrom, linesFrom, ih, text_cons, Text.byteLength_append, List.append_assoc,
      Nat.add_assoc]

lemma linesFrom_shift (s : Sources) (start k : Nat) :
    linesFrom (start + k) s = (linesFrom start s).map (Prod.map (· + k) id) := by
  induction s generalizing start with
  | nil => rfl
  | cons f s ih =>
    rw [linesFrom, linesFrom, List.map_append, SourceFile.lines_shift, Nat.add_right_comm, ih]

lemma bounds_of_mem_linesFrom {s : Sources} {start : Nat} {x : Nat × Origin} (h : x ∈ linesFrom start s) :
    start ≤ x.1 ∧ x.1 ≤ start + Text.byteLength (text s) := by
  induction s generalizing start with
  | nil => cases h
  | cons f s ih =>
    rw [text_cons, Text.byteLength_append]
    rcases List.mem_append.1 h with h | h
    · have := SourceFile.bounds_of_mem_lines h
      omega
    · have := ih h
      omega

/-- A text that is not empty has a line from its first byte on. -/
lemma exists_line_of_text {s : Sources} (h : text s ≠ []) (start : Nat) :
    ∃ o rest, linesFrom start s = (start, o) :: rest := by
  induction s with
  | nil => exact absurd rfl h
  | cons f s ih =>
    rw [linesFrom, SourceFile.lines]
    split
    · next hempty =>
      rw [text_cons, List.isEmpty_iff.1 hempty, List.nil_append] at h
      rw [List.isEmpty_iff.1 hempty]
      exact ih h
    · cases hsplit : Text.splitWhere (· == '\n') f.text with
      | nil => exact absurd hsplit (Text.splitWhere_ne_nil _ f.text)
      | cons line lines => exact ⟨_, _, rfl⟩

/-- The lines of a text hide what comes before it. -/
lemma lastUpTo_linesFrom {s : Sources} (h : text s ≠ []) {start n : Nat} (hn : start ≤ n) (best best' : Origin) :
    Lines.lastUpTo n best (linesFrom start s) = Lines.lastUpTo n best' (linesFrom start s) := by
  obtain ⟨o, rest, heq⟩ := exists_line_of_text h start
  rw [heq, Lines.lastUpTo, Lines.lastUpTo, if_neg (Nat.not_lt.2 hn), if_neg (Nat.not_lt.2 hn)]

lemma text_ne_nil_of_lt {s : Sources} {n : Nat} (h : n < Text.byteLength (text s)) : text s ≠ [] := by
  intro hempty
  rw [hempty] at h
  exact Nat.not_lt_zero n h

/-- A byte of the first files has the line that it has there. -/
theorem originAt_append_left {n : Nat} (hn : n < Text.byteLength (text s₁)) :
    (lines (s₁ ++ s₂)).originAt n = (lines s₁).originAt n := by
  have hlater : ∀ x ∈ linesFrom (0 + Text.byteLength (text s₁)) s₂, n < x.1 := fun x hx => by
    have := bounds_of_mem_linesFrom hx
    omega
  show Lines.lastUpTo n _ (linesFrom 0 (s₁ ++ s₂)) = Lines.lastUpTo n _ (linesFrom 0 s₁)
  rw [linesFrom_append, Lines.lastUpTo_append_left hlater]
  exact lastUpTo_linesFrom (text_ne_nil_of_lt hn) (Nat.zero_le n) _ _

/-- A byte of the other files has the line that it has there. -/
theorem originAt_append_right {n : Nat} (hn : n < Text.byteLength (text s₂)) :
    (lines (s₁ ++ s₂)).originAt (n + Text.byteLength (text s₁)) = (lines s₂).originAt n := by
  have hearlier : ∀ x ∈ linesFrom 0 s₁, x.1 ≤ n + Text.byteLength (text s₁) := fun x hx => by
    have := bounds_of_mem_linesFrom hx
    omega
  show Lines.lastUpTo (n + Text.byteLength (text s₁)) _ (linesFrom 0 (s₁ ++ s₂)) = Lines.lastUpTo n _ (linesFrom 0 s₂)
  rw [linesFrom_append, Lines.lastUpTo_append_right hearlier, linesFrom_shift, Lines.lastUpTo_shift]
  exact lastUpTo_linesFrom (text_ne_nil_of_lt hn) (Nat.zero_le n) _ _

end Sources

/-! ## bodies -/

/-- The operation `k` bytes later in the text. -/
def Op.shift (k : Nat) (o : Op) : Op := { o with index := o.index + k }

namespace OpReader

open Cursor

variable {tables tables' : TableSet} {labels : List Text} {c c' : Cursor} {kind : OpKind}

/-- More tables do not change a form that fitted. -/
lemma tableSize_mono (ht : ∀ name t, tables.find? name = some t → tables'.find? name = some t)
    {outcome : Option (OpKind × Cursor)} (h : tableSize tables c = .ok outcome) :
    tableSize tables' c = .ok outcome := by
  unfold tableSize at h ⊢
  split at h
  · cases h
  · exact h
  · next name c₁ hb =>
    split at h
    · next table htable =>
      rw [ht name table htable]
      exact h
    · cases h

lemma firstFit_mono {form form' : Cursor → Attempt} {forms forms' : List (Cursor → Attempt)}
    (hform : ∀ outcome, form c = .ok outcome → form' c = .ok outcome)
    (hforms : ∀ outcome, firstFit forms c = .ok outcome → firstFit forms' c = .ok outcome)
    {outcome : Option (OpKind × Cursor)} (h : firstFit (form :: forms) c = .ok outcome) :
    firstFit (form' :: forms') c = .ok outcome := by
  unfold firstFit at h ⊢
  cases hfit : form c with
  | error e =>
    rw [hfit] at h
    cases h
  | ok fit =>
    rw [hfit] at h
    rw [hform fit hfit]
    cases fit with
    | none => exact hforms outcome h
    | some r => exact h

lemma next_mono (ht : ∀ name t, tables.find? name = some t → tables'.find? name = some t)
    (h : next tables labels c = .ok (kind, c')) : next tables' labels c = .ok (kind, c') := by
  have hfit : ∀ outcome, firstFit (forms tables labels) c = .ok outcome →
      firstFit (forms tables' labels) c = .ok outcome := fun outcome =>
    firstFit_mono (fun _ => id) fun _ => firstFit_mono (fun _ => tableSize_mono ht) fun _ => id
  unfold next at h ⊢
  split at h
  · next r hr =>
    rw [hfit _ hr]
    exact h
  · cases h
  · cases h

end OpReader

/-- **The operations of a body that stands later in the text**, behind more tables. -/
theorem Body.opsFrom_shift {b b' : Body} {k : Nat} (hbase : b'.base = b.base + k)
    (ht : ∀ name t, b.tables.find? name = some t → b'.tables.find? name = some t) {labels : List Text} {c : Cursor}
    (hl : ∀ n, n < c.total → b'.lines.originAt (b.base + k + n) = b.lines.originAt (b.base + n))
    {ops : List Op} (h : b.opsFrom labels c = .ok ops) : b'.opsFrom labels c = .ok (ops.map (Op.shift k)) := by
  fun_induction Body.opsFrom b labels c generalizing ops with
  | case1 labels c hend =>
    cases h
    exact opsFrom_of_atEnd hend
  | case2 labels c hend cause hnext => cases h
  | case3 labels c hend kind c' hnext f hrest => cases h
  | case4 labels c hend kind c' hnext rest hrest ih =>
    cases h
    have hskip := Cursor.before_skipBlanks c
    have htotal := (hskip.trans (OpReader.ahead_of_next hnext).before).total
    have hpos : c.skipBlanks.pos < c.total := hskip.total ▸ Cursor.pos_lt_total hend
    have hnext' := OpReader.next_mono ht hnext
    have hop : b'.op kind c.skipBlanks.pos = (b.op kind c.skipBlanks.pos).shift k := by
      simp only [op, Op.shift, hbase, hl _ hpos, Op.mk.injEq, true_and, and_true]
      omega
    rw [opsFrom_of_next hend hnext', ih (htotal ▸ hl) hrest, hop]
    rfl

/-! ## programs -/

/-- The macro `k` bytes later in the text. -/
def Macro.shift (k : Nat) (m : Macro) : Macro := { m with ops := m.ops.map (Op.shift k) }

namespace Program

/-- The program with `k` more bytes before it. -/
def shift (k : Nat) (p : Program) : Program := { p with macros := ⟨p.macros.macros.map (Macro.shift k)⟩ }

/-- The macros of both programs, and the tables of the first followed by those of the second. -/
def join (p q : Program) : Program := ⟨⟨q.macros.macros ++ p.macros.macros⟩, p.tables ++ q.tables⟩

/-- The programs have no name in common. -/
structure Apart (p q : Program) : Prop where
  macros : ∀ m ∈ p.macros.macros, ∀ m' ∈ q.macros.macros, m.name ≠ m'.name
  tables : ∀ t ∈ p.tables, ∀ t' ∈ q.tables, t.name ≠ t'.name

lemma addMacro_eq_ok_iff {p p' : Program} {m : Macro} :
    p.addMacro m = .ok p' ↔ (∀ m' ∈ p.macros.macros, m'.name ≠ m.name) ∧ p' = ⟨⟨m :: p.macros.macros⟩, p.tables⟩ := by
  have hcontains : p.macros.contains m.name = true ↔ ∃ m' ∈ p.macros.macros, m'.name = m.name := by
    simp [MacroTable.contains, MacroTable.find?]
  unfold addMacro MacroTable.insert
  by_cases hmem : p.macros.contains m.name = true
  · rw [if_pos hmem]
    obtain ⟨m', hm', heq⟩ := hcontains.1 hmem
    constructor
    · intro h
      cases h
    · rintro ⟨hne, -⟩
      exact absurd heq (hne m' hm')
  · rw [if_neg hmem]
    constructor
    · intro h
      cases h
      exact ⟨fun m' hm' heq => hmem (hcontains.2 ⟨m', hm', heq⟩), rfl⟩
    · rintro ⟨-, rfl⟩
      rfl

lemma addTable_eq_ok_iff {p p' : Program} {t : Table} :
    p.addTable t = .ok p' ↔ (∀ t' ∈ p.tables, t'.name ≠ t.name) ∧ p' = ⟨p.macros, p.tables ++ [t]⟩ := by
  have hfind : (p.tables.find? t.name).isSome = true ↔ ∃ t' ∈ p.tables, t'.name = t.name := by
    simp [TableSet.find?]
  unfold addTable TableSet.insert
  by_cases hmem : (p.tables.find? t.name).isSome = true
  · rw [if_pos hmem]
    obtain ⟨t', ht', heq⟩ := hfind.1 hmem
    constructor
    · intro h
      cases h
    · rintro ⟨hne, -⟩
      exact absurd heq (hne t' ht')
  · rw [if_neg hmem]
    constructor
    · intro h
      cases h
      exact ⟨fun t' ht' heq => hmem (hfind.2 ⟨t', ht', heq⟩), rfl⟩
    · rintro ⟨-, rfl⟩
      rfl

/-- A table of the second program is found in the join. -/
lemma find?_join {p q : Program} (h : p.Apart q) {name : Text} {t : Table} (ht : q.tables.find? name = some t) :
    (p.tables ++ q.tables).find? name = some t := by
  have hmem := List.mem_of_find?_eq_some ht
  have hname : t.name = name := by simpa using List.find?_some ht
  have hnone : List.find? (fun t' => t'.name == name) p.tables = none := by
    rw [List.find?_eq_none]
    intro t' ht' heq
    exact h.tables t' ht' t hmem ((beq_iff_eq.1 heq).trans hname.symm)
  show List.find? (fun t' => t'.name == name) (p.tables ++ q.tables) = some t
  rw [List.find?_append, hnone]
  exact ht

namespace Draft

/-- The draft behind another program and `k` bytes. -/
def under (k : Nat) (q : Program) (st : Draft) : Draft := ⟨q.join (st.program.shift k), st.pending⟩

variable {l l' : Lines} {here : Origin} {st st' : Draft} {item : Item} {q : Program} {k : Nat}

lemma addMacro_under {p p' : Program} {m : Macro} (h : p.addMacro m = .ok p') (hq : q.Apart p') :
    (q.join (p.shift k)).addMacro (m.shift k) = .ok (q.join (p'.shift k)) := by
  obtain ⟨hnew, rfl⟩ := addMacro_eq_ok_iff.1 h
  refine addMacro_eq_ok_iff.2 ⟨fun m' hm' => ?_, rfl⟩
  rcases List.mem_append.1 hm' with hm' | hm'
  · obtain ⟨m'', hm'', rfl⟩ := List.mem_map.1 hm'
    exact hnew m'' hm''
  · exact hq.macros m' hm' m List.mem_cons_self

lemma addTable_under {p p' : Program} {t : Table} (h : p.addTable t = .ok p') (hq : q.Apart p') :
    (q.join (p.shift k)).addTable t = .ok (q.join (p'.shift k)) := by
  obtain ⟨hnew, rfl⟩ := addTable_eq_ok_iff.1 h
  refine addTable_eq_ok_iff.2 ⟨fun t' ht' => ?_, ?_⟩
  · rcases List.mem_append.1 ht' with ht' | ht'
    · exact hq.tables t' ht' t (List.mem_append_right _ (List.mem_singleton_self t))
    · exact hnew t' ht'
  · simp [join, shift]

/-- What is apart from a draft with one more item is apart from the draft. -/
lemma apart_of_add (h : st.add l here item = .ok st') (hq : q.Apart st'.program) : q.Apart st.program := by
  cases item with
  | params names =>
    cases h
    exact hq
  | defn name takes returns body bodyPos =>
    obtain ⟨ops, -, h⟩ := ok_of_bind h
    obtain ⟨p, hp, h⟩ := ok_of_bind h
    cases h
    obtain ⟨-, rfl⟩ := addMacro_eq_ok_iff.1 hp
    exact ⟨fun m hm m' hm' => hq.macros m hm m' (List.mem_cons_of_mem _ hm'), hq.tables⟩
  | jumpTable | codeTable =>
    obtain ⟨_, -, h⟩ := ok_of_bind h
    obtain ⟨p, hp, h⟩ := ok_of_bind h
    cases h
    obtain ⟨-, rfl⟩ := addTable_eq_ok_iff.1 hp
    exact ⟨hq.macros, fun t ht t' ht' => hq.tables t ht t' (List.mem_append_left _ ht')⟩

lemma apart_of_readFrom {c : Cursor} (h : st.readFrom l c = .ok st') (hq : q.Apart st'.program) :
    q.Apart st.program := by
  fun_induction Draft.readFrom l st c with
  | case1 st c hend =>
    cases h
    exact hq
  | case2 st c hend cause hread => cases h
  | case3 st c hend item c' hread f hadd => cases h
  | case4 st c hend item c' hread st₁ hadd ih => exact apart_of_add hadd (ih h)

/-- One item is taken in behind another program as it is taken in alone. -/
lemma add_under {n : Nat} (hl : ∀ i, i < n → l'.originAt (i + k) = l.originAt i) (hitem : item.Within n)
    (h : st.add l here item = .ok st') (hq : q.Apart st'.program) :
    (st.under k q).add l' here (item.shift k) = .ok (st'.under k q) := by
  have hst := apart_of_add h hq
  cases item with
  | params names =>
    cases h
    rfl
  | defn name takes returns body bodyPos =>
    obtain ⟨ops, hops, h⟩ := ok_of_bind h
    obtain ⟨p, hp, h⟩ := ok_of_bind h
    cases h
    have hops' : Body.ops ⟨body, bodyPos + k, l', q.tables ++ st.program.tables⟩ = .ok (ops.map (Op.shift k)) := by
      refine Body.opsFrom_shift rfl (fun name t => find?_join hst) (fun i hi => ?_) hops
      have hpos : bodyPos + i < n := by
        have : i < 0 + Text.byteLength body := hi
        have : bodyPos + Text.byteLength body ≤ n := hitem
        omega
      rw [Nat.add_right_comm]
      exact hl _ hpos
    show (Body.ops ⟨body, bodyPos + k, l', q.tables ++ st.program.tables⟩ >>= _) = _
    rw [hops']
    show ((q.join (st.program.shift k)).addMacro
      (Macro.shift k ⟨name, takes, returns, (st.pending.map (·.1)).getD [], ops, body, here⟩) >>= _) = _
    rw [addMacro_under hp hq]
    rfl
  | jumpTable name packed body =>
    obtain ⟨labels, hlabels, h⟩ := ok_of_bind h
    obtain ⟨p, hp, h⟩ := ok_of_bind h
    cases h
    show (jumpLabels name here body >>= _) = _
    rw [hlabels]
    show ((q.join (st.program.shift k)).addTable _ >>= _) = _
    rw [addTable_under hp hq]
    rfl
  | codeTable name body bodyPos =>
    obtain ⟨bytes, hbytes, h⟩ := ok_of_bind h
    obtain ⟨p, hp, h⟩ := ok_of_bind h
    cases h
    have hbytes' : tableBytes l' name body (bodyPos + k) = .ok bytes := by
      unfold tableBytes at hbytes ⊢
      split at hbytes
      · exact hbytes
      · cases hbytes
    show (tableBytes l' name body (bodyPos + k) >>= _) = _
    rw [hbytes']
    show ((q.join (st.program.shift k)).addTable _ >>= _) = _
    rw [addTable_under hp hq]
    rfl

/-- Where more than blanks is still to come and no parameter list stays behind, a brace is still to come. -/
lemma braced_of_readFrom {c : Cursor} (h : st.readFrom l c = .ok st') (hpending : st'.pending = none)
    (hend : ¬ c.skipBlanks.atEnd = true) : c.skipBlanks.Braced := by
  fun_induction Draft.readFrom l st c with
  | case1 st c hend' => exact absurd hend' hend
  | case2 st c hend cause hread => cases h
  | case3 st c hend item c' hread f hadd => cases h
  | case4 st c hend item c' hread st₁ hadd ih =>
    have hbefore := (Item.ahead_of_read hread).before
    obtain ⟨-, hbraced, -⟩ := Item.read_embed 0 [] hread
    cases item with
    | params names =>
      cases hadd
      -- the list waits for a macro, which ends with a brace
      have hlater : ¬ c'.skipBlanks.atEnd = true := fun hend' => by
        rw [Draft.readFrom, if_pos hend'] at h
        cases h
        cases hpending
      exact hbefore.braced ((Cursor.before_skipBlanks c').braced (ih h hlater))
    | defn | jumpTable | codeTable =>
      apply hbraced
      intro names hparams
      cases hparams

lemma readFrom_nil {n : Nat} : st.readFrom l ⟨n, []⟩ = .ok st := by
  have hend : (⟨n, []⟩ : Cursor).skipBlanks.atEnd = true := rfl
  rw [Draft.readFrom, if_pos hend]

/-- Blanks in front make no difference. -/
lemma readFrom_of_skipBlanks {c c' : Cursor} (h : c.skipBlanks = c'.skipBlanks) :
    st.readFrom l c = st.readFrom l c' := by
  rw [Draft.readFrom, h, ← Draft.readFrom]

lemma readFrom_of_item {c c' : Cursor} (hend : ¬ c.skipBlanks.atEnd = true)
    (hread : Item.read (l.originAt c.skipBlanks.pos) st.pending.isSome c.skipBlanks = .ok (item, c'))
    (hadd : st.add l (l.originAt c.skipBlanks.pos) item = .ok st') : st.readFrom l c = st'.readFrom l c' := by
  rw [Draft.readFrom, if_neg hend]
  split
  · next herror =>
    rw [hread] at herror
    cases herror
  · next hok =>
    rw [hread] at hok
    cases hok
    rw [hadd]

/-- **A text behind another program.** Whatever follows it, it is read as it is read alone. -/
theorem readFrom_under {c : Cursor} (post : Text) (hl : ∀ i, i < c.total → l'.originAt (i + k) = l.originAt i)
    (h : st.readFrom l c = .ok st') (hpending : st'.pending = none) (hq : q.Apart st'.program) :
    (st.under k q).readFrom l' (c.embed k post) = (st'.under k q).readFrom l' ⟨c.total + k, post⟩ := by
  fun_induction Draft.readFrom l st c with
  | case1 st c hend =>
    cases h
    exact readFrom_of_skipBlanks (Cursor.skipBlanks_embed_of_atEnd k post hend)
  | case2 st c hend cause hread => cases h
  | case3 st c hend item c' hread f hadd => cases h
  | case4 st c hend item c' hread st₁ hadd ih =>
    have hskip := Cursor.before_skipBlanks c
    have hb := braced_of_readFrom ((readFrom_of_item hend hread hadd).trans h) hpending hend
    have hlong := Cursor.skipBlanks_embed k ((hskip.braced hb).stops (by decide) post)
    obtain ⟨hwithin, -, hembed⟩ := Item.read_embed k post hread
    -- what stands at the place of the item stands in its own file
    have horigin : l'.originAt (c.embed k post).skipBlanks.pos = l.originAt c.skipBlanks.pos := by
      rw [hlong]
      exact hl _ (hskip.total ▸ Cursor.pos_lt_total hend)
    have hend' : ¬ (c.embed k post).skipBlanks.atEnd = true := hlong ▸ Cursor.not_atEnd_embed hb k post
    rw [readFrom_of_item hend' (horigin.symm ▸ hlong ▸ hembed hb)
      (horigin.symm ▸ add_under (hskip.total ▸ hl) hwithin hadd (apart_of_readFrom h hq))]
    have htotal := (hskip.trans (Item.ahead_of_read hread).before).total
    rw [ih (htotal ▸ hl) h, htotal]

end Draft

lemma shift_zero (p : Program) : p.shift 0 = p := by
  have hmacro : Macro.shift 0 = id := by
    funext m
    have hops : m.ops.map (Op.shift 0) = m.ops := List.map_id m.ops
    rw [Macro.shift, hops]
    rfl
  rw [shift, hmacro, List.map_id]

lemma empty_join (p : Program) : join {} p = p := by
  simp [join]

lemma join_empty (p : Program) : p.join {} = p := by
  simp [join]

lemma read_eq_ok_iff {s : Sources} {p : Program} :
    read s = .ok p ↔ Draft.readFrom s.lines {} (Cursor.start s.text) = .ok ⟨p, none⟩ := by
  unfold read
  cases Draft.readFrom s.lines {} (Cursor.start s.text) with
  | error f => simp [bind, Except.bind]
  | ok st =>
    obtain ⟨q, pending⟩ := st
    cases pending with
    | some waiting => simp [bind, Except.bind, Draft.finish]
    | none => simp [bind, Except.bind, Draft.finish]

end Program

open Program in
/-- **Joined sources.** Where two lists of sources can each be read and their programs have no name in common, the
joined list can be read. Its program is the join of the two: everything in the first is unchanged, and everything in the
second is what it is alone, with every operation as many bytes later as the first sources are long. -/
theorem read_append {s₁ s₂ : Sources} {p₁ p₂ : Program} (h₁ : Program.read s₁ = .ok p₁) (h₂ : Program.read s₂ = .ok p₂)
    (hapart : p₁.Apart p₂) :
    Program.read (s₁ ++ s₂) = .ok (p₁.join (p₂.shift (Text.byteLength s₁.text))) := by
  have hleft : ∀ i, i < (Cursor.start s₁.text).total → (s₁ ++ s₂).lines.originAt (i + 0) = s₁.lines.originAt i :=
    fun i hi => s₁.originAt_append_left s₂ (by simpa [Cursor.total, Cursor.start] using hi)
  have hright : ∀ i, i < (Cursor.start s₂.text).total →
      (s₁ ++ s₂).lines.originAt (i + Text.byteLength s₁.text) = s₂.lines.originAt i :=
    fun i hi => s₁.originAt_append_right s₂ (by simpa [Cursor.total, Cursor.start] using hi)
  have hempty : Apart {} p₁ := ⟨fun _ hm => absurd hm List.not_mem_nil, fun _ ht => absurd ht List.not_mem_nil⟩
  have hfirst := Draft.readFrom_under s₂.text hleft (read_eq_ok_iff.1 h₁) rfl hempty
  have hsecond := Draft.readFrom_under [] hright (read_eq_ok_iff.1 h₂) rfl hapart
  -- both readings go through one cursor over the joined text
  have hstart : Cursor.start (s₁ ++ s₂ : Sources).text = (Cursor.start s₁.text).embed 0 s₂.text := by
    rw [Sources.text_append]
    rfl
  have hmiddle : (⟨(Cursor.start s₁.text).total + 0, s₂.text⟩ : Cursor) =
      (Cursor.start s₂.text).embed (Text.byteLength s₁.text) [] := by
    simp [Cursor.embed, Cursor.start, Cursor.total]
  have hdraft : Draft.under 0 {} ⟨p₁, none⟩ = Draft.under (Text.byteLength s₁.text) p₁ {} := by
    rw [Draft.under, Draft.under, shift_zero, empty_join]
    exact congrArg (Draft.mk · none) (join_empty p₁).symm
  rw [hmiddle, hdraft, hsecond] at hfirst
  rw [read_eq_ok_iff, hstart]
  exact hfirst.trans Draft.readFrom_nil

namespace Sample

/-- A table and a macro; a blank of two bytes stands between them, and the last line has no end. -/
def left : Sources := [⟨"left".toList, "table T\x7b0x0102\x7d\u00a0#define macro A=takes(0)returns(1)\x7b
__tablesize(T) end: end\x7d".toList⟩]

/-- A table and a macro with a parameter. -/
def right : Sources := [⟨"right".toList, "jumptable U\x7bend\x7d
template<x>#define macro B(1)=takes(1)returns(0)\x7b__tablesize(U) <x>\x7d".toList⟩]

/-- The lines of the macros. -/
def leftHead : Origin := ⟨"left", 1, "table T\x7b0x0102\x7d\u00a0#define macro A=takes(0)returns(1)\x7b"⟩
def leftBody : Origin := ⟨"left", 2, "__tablesize(T) end: end\x7d"⟩
def rightLine : Origin := ⟨"right", 2, "template<x>#define macro B(1)=takes(1)returns(0)\x7b__tablesize(U) <x>\x7d"⟩

def leftProgram : Program where
  macros := ⟨[⟨"A".toList, 0, 1, [], [⟨.push 0x60 [2], 53, leftBody⟩, ⟨.labelDef "end".toList, 68, leftBody⟩,
    ⟨.labelRef "end".toList, 73, leftBody⟩], "\n__tablesize(T) end: end".toList, leftHead⟩]⟩
  tables := [⟨"T".toList, .code [1, 2], leftHead⟩]

/-- The operations stand at the bytes 66 and 81 of the text that begins at byte `k`. -/
def rightProgram (k : Nat) : Program where
  macros := ⟨[⟨"B".toList, 1, 0, ["x".toList], [⟨.push 0x60 [32], 66 + k, rightLine⟩,
    ⟨.template "x".toList, 81 + k, rightLine⟩], "__tablesize(U) <x>".toList, rightLine⟩]⟩
  tables := [⟨"U".toList, .jumps ["end".toList] false, ⟨"right", 1, "jumptable U\x7bend\x7d"⟩⟩]

end Sample

theorem read_append_left_right :
    Program.read Sample.left = .ok Sample.leftProgram ∧ Program.read Sample.right = .ok (Sample.rightProgram 0) ∧
      Sample.leftProgram.Apart (Sample.rightProgram 0) ∧
      Program.read (Sample.left ++ Sample.right) = .ok (Sample.leftProgram.join (Sample.rightProgram 77)) := by
  have h₁ : Program.read Sample.left = .ok Sample.leftProgram := eq_ok_of_toOption (by decide +kernel)
  have h₂ : Program.read Sample.right = .ok (Sample.rightProgram 0) := eq_ok_of_toOption (by decide +kernel)
  have hapart : Sample.leftProgram.Apart (Sample.rightProgram 0) := ⟨by decide, by decide⟩
  have hlength : Text.byteLength Sample.left.text = 77 := by decide
  have hread := read_append h₁ h₂ hapart
  rw [hlength] at hread
  exact ⟨h₁, h₂, hapart, hread⟩

end MacroAsm
