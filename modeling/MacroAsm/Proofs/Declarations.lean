import MacroAsm.Proofs.Written

/-!
# Written programs are read back

A program that has been read is written as text, its tables first and its macros in any order. Every declaration of the
text is read as the item it was written for; a list of parameters is taken by the definition right behind it, and a body
finds at least the tables that it found before.

* `Program.Legible`: what makes a program fit to be written; `Program.read_legible`;
* `Draft.readFrom_tables`, `Draft.readFrom_macros`: the declarations of one sort, one after the other;
* `Program.read_render`: the whole program.
-/

namespace MacroAsm

/-! ## what has been read can be written -/

namespace Item

variable {c c' : Cursor} {item : Item}

/-- The counts are counts, and the body has no brace that would end it. -/
def Legible : Item → Prop
  | defn _ takes returns body _ => takes < Numeral.countLimit ∧ returns < Numeral.countLimit ∧ '}' ∉ body
  | params _ | jumpTable .. | codeTable .. => True

lemma lt_of_readCount {word : Text} {n : Nat} (h : readCount word c = .ok (n, c')) : n < Numeral.countLimit := by
  unfold readCount at h
  split at h
  · cases h
  · split at h
    · cases h
    · split at h
      · next hcount =>
        cases h
        simpa using (Option.filter_eq_some_iff.1 hcount).2
      · cases h

lemma brace_not_mem_of_readBody {name body : Text} {pos : Nat} (h : readBody name c = .ok (body, pos, c')) :
    '}' ∉ body := by
  unfold readBody at h
  split at h
  · cases h
  · split at h
    · next huntil =>
      cases h
      obtain ⟨_, -, hbody, -⟩ := Cursor.until?_eq_some_iff.1 huntil
      exact hbody
    · cases h

lemma legible_of_readDecl {kind : DeclKind} (h : readDecl kind c = .ok (item, c')) : item.Legible := by
  obtain ⟨⟨name, c₁⟩, -, h⟩ := ok_of_bind h
  cases kind with
  | defn =>
    obtain ⟨_, -, h⟩ := ok_of_bind h
    obtain ⟨_, -, h⟩ := ok_of_bind h
    obtain ⟨_, htakes, h⟩ := ok_of_bind h
    obtain ⟨_, hreturns, h⟩ := ok_of_bind h
    obtain ⟨_, hbody, h⟩ := ok_of_bind h
    cases h
    exact ⟨lt_of_readCount htakes, lt_of_readCount hreturns, brace_not_mem_of_readBody hbody⟩
  | jumpTable | packedJumpTable | codeTable =>
    obtain ⟨_, -, h⟩ := ok_of_bind h
    cases h
    trivial

lemma legible_of_read {here : Origin} {pending : Bool} (h : read here pending c = .ok (item, c')) : item.Legible := by
  rcases read_cases h with ⟨_, h⟩ | ⟨_, _, h⟩
  · obtain ⟨names, rfl, -⟩ := exists_of_readParams h
    trivial
  · exact legible_of_readDecl h

end Item

/-- The counts and the body can be written, and the operations are read from the body wherever tables `ts` are at
hand. -/
structure Macro.Legible (ts : TableSet) (m : Macro) : Prop where
  takes : m.takes < Numeral.countLimit
  returns : m.returns < Numeral.countLimit
  body : '}' ∉ m.body
  ops : ∃ b : Body, b.text = m.body ∧ b.ops = .ok m.ops ∧
    ∀ name t, b.tables.find? name = some t → ts.find? name = some t

lemma Macro.Legible.append {ts : TableSet} {m : Macro} (h : m.Legible ts) (ts' : TableSet) : m.Legible (ts ++ ts') := by
  obtain ⟨htakes, hreturns, hbody, b, htext, hops, hfind⟩ := h
  refine ⟨htakes, hreturns, hbody, b, htext, hops, fun name t ht => ?_⟩
  unfold TableSet.find? at hfind ⊢
  rw [List.find?_append, hfind name t ht, Option.some_or]

/-- A legible body is read in another place, with the same tables declared at other places. -/
lemma Macro.Legible.exists_ops {ts ts' : TableSet} {m : Macro} (h : m.Legible ts) (hts : ts.bare = ts'.bare) (pos : Nat)
    (l : Lines) : ∃ ops, Body.ops ⟨m.body, pos, l, ts'⟩ = .ok ops ∧ ops.map Op.bare = m.ops.map Op.bare := by
  obtain ⟨b, htext, hops, hfind⟩ := h.ops
  have hmore : Body.opsFrom { b with tables := ts } [] (Cursor.start b.text) = .ok (m.ops.map (Op.shift 0)) :=
    Body.opsFrom_shift rfl hfind (fun _ _ => rfl) hops
  have hconcur : Concur Fault.kind _ (Body.opsFrom { b with tables := ts } [] (Cursor.start b.text))
      (Body.opsFrom ⟨m.body, pos, l, ts'⟩ [] (Cursor.start b.text)) := Body.concur_opsFrom hts [] _
  rw [hmore, htext] at hconcur
  obtain ⟨ops, hread, hbare⟩ := hconcur.exists_ok
  refine ⟨ops, hread, ?_⟩
  rw [← hbare, List.map_map]
  rfl

namespace Program

/-- What makes a program fit to be written. -/
structure Legible (p : Program) : Prop where
  macros : ∀ m ∈ p.macros.macros, m.Legible p.tables
  macroNames : (p.macros.macros.map Macro.name).Nodup
  tables : ∀ t ∈ p.tables, t.payload.Legible
  tableNames : (p.tables.map Table.name).Nodup

lemma Legible.addTable {p p' : Program} {t : Table} (hp : p.Legible) (ht : t.payload.Legible)
    (h : p.addTable t = .ok p') : p'.Legible := by
  obtain ⟨hnew, rfl⟩ := addTable_eq_ok_iff.1 h
  refine ⟨fun m hm => (hp.macros m hm).append [t], hp.macroNames, fun t' ht' => ?_, ?_⟩
  · rcases List.mem_append.1 ht' with ht' | ht'
    · exact hp.tables t' ht'
    · rw [List.mem_singleton.1 ht']
      exact ht
  · show (List.map Table.name (p.tables ++ [t])).Nodup
    rw [List.map_append, List.nodup_append]
    refine ⟨hp.tableNames, by simp, fun x hx y hy => ?_⟩
    obtain ⟨t', ht', rfl⟩ := List.mem_map.1 hx
    rw [List.mem_singleton.1 hy]
    exact hnew t' ht'

lemma Legible.addMacro {p p' : Program} {m : Macro} (hp : p.Legible) (hm : m.Legible p.tables)
    (h : p.addMacro m = .ok p') : p'.Legible := by
  obtain ⟨hnew, rfl⟩ := addMacro_eq_ok_iff.1 h
  refine ⟨List.forall_mem_cons.2 ⟨hm, hp.macros⟩, ?_, hp.tables, hp.tableNames⟩
  refine List.nodup_cons.2 ⟨fun hmem => ?_, hp.macroNames⟩
  obtain ⟨m', hm', hname⟩ := List.mem_map.1 hmem
  exact hnew m' hm' hname

lemma isWord_of_jumpLabels {table body : Text} {here : Origin} {labels : List Text}
    (h : jumpLabels table here body = .ok labels) : ∀ l ∈ labels, Text.isWord l = true := by
  unfold jumpLabels at h
  split at h
  · cases h
  · next hnone =>
    cases h
    intro l hl
    simpa using List.find?_eq_none.1 hnone l hl

namespace Draft

variable {l : Lines} {here : Origin} {st st' : Draft}

/-- One item keeps a program legible. -/
lemma legible_of_add {item : Item} (hst : st.program.Legible) (hitem : item.Legible)
    (h : st.add l here item = .ok st') : st'.program.Legible := by
  cases item with
  | params names =>
    cases h
    exact hst
  | defn name takes returns body bodyPos =>
    obtain ⟨ops, hops, h⟩ := ok_of_bind h
    obtain ⟨p, hp, h⟩ := ok_of_bind h
    cases h
    exact hst.addMacro ⟨hitem.1, hitem.2.1, hitem.2.2, _, rfl, hops, fun _ _ => id⟩ hp
  | jumpTable name packed body =>
    obtain ⟨labels, hlabels, h⟩ := ok_of_bind h
    obtain ⟨p, hp, h⟩ := ok_of_bind h
    cases h
    refine hst.addTable ?_ hp
    exact isWord_of_jumpLabels hlabels
  | codeTable name body bodyPos =>
    obtain ⟨bytes, -, h⟩ := ok_of_bind h
    obtain ⟨p, hp, h⟩ := ok_of_bind h
    cases h
    refine hst.addTable ?_ hp
    trivial

lemma legible_of_readFrom {c : Cursor} (hst : st.program.Legible) (h : st.readFrom l c = .ok st') :
    st'.program.Legible := by
  refine readFrom_preserves (P := fun st => st.program.Legible) ?_ hst h
  intro st st' here pending item c c' hst hread hadd
  exact legible_of_add hst (Item.legible_of_read hread) hadd

end Draft

/-- **A program that has been read can be written.** -/
theorem read_legible {s : Sources} {p : Program} (h : read s = .ok p) : p.Legible := by
  refine Draft.legible_of_readFrom ?_ (read_eq_ok_iff.1 h)
  exact ⟨fun m hm => (nomatch hm), List.nodup_nil, fun t ht => (nomatch ht), List.nodup_nil⟩

end Program

/-! ## lines that hold a declaration each -/

lemma Table.exists_render_eq_cons (t : Table) : ∃ x v, t.render = x :: v ∧ isBlank x = false := by
  have hrender := t.render_append []
  obtain ⟨x, v, hword, hx⟩ := Text.exists_cons_of_isWord t.payload.kind.isWord_word
  rw [hword, List.append_nil] at hrender
  exact ⟨x, _, hrender, isBlank_of_isWordChar hx⟩

lemma Macro.exists_render_eq_cons (m : Macro) : ∃ x v, m.render = x :: v ∧ isBlank x = false := by
  have hrender := m.render_append []
  rw [List.append_nil, renderParams] at hrender
  split at hrender
  · exact ⟨'#', _, hrender, by decide⟩
  · exact ⟨'t', _, hrender, by decide⟩

/-- No blank comes before the first declaration. -/
lemma Text.isBlank_of_head?_lines {ds : List Text} (hds : ∀ d ∈ ds, ∃ x v, d = x :: v ∧ isBlank x = false) {r : Text}
    (hr : ∀ x ∈ r.head?, isBlank x = false) : ∀ x ∈ (ds.flatMap (· ++ ['\n']) ++ r).head?, isBlank x = false := by
  cases ds with
  | nil => exact hr
  | cons d ds =>
    obtain ⟨x, v, rfl, hx⟩ := hds d List.mem_cons_self
    exact isBlank_of_head?_cons hx _

lemma Table.isBlank_of_head?_renders (ts : TableSet) {r : Text} (hr : ∀ x ∈ r.head?, isBlank x = false) :
    ∀ x ∈ ((ts.map Table.render).flatMap (· ++ ['\n']) ++ r).head?, isBlank x = false := by
  refine Text.isBlank_of_head?_lines (fun d hd => ?_) hr
  obtain ⟨t, -, rfl⟩ := List.mem_map.1 hd
  exact t.exists_render_eq_cons

lemma Macro.isBlank_of_head?_renders (ms : List Macro) :
    ∀ x ∈ ((ms.map Macro.render).flatMap (· ++ ['\n'])).head?, isBlank x = false := by
  rw [← List.append_nil (List.flatMap _ _)]
  refine Text.isBlank_of_head?_lines (fun d hd => ?_) (by simp)
  obtain ⟨m, -, rfl⟩ := List.mem_map.1 hd
  exact m.exists_render_eq_cons

namespace Program.Draft

variable {l : Lines} {here : Origin} {r : Text} {c : Cursor}

lemma not_atEnd_of_read {pending : Bool} {item : Item} {c' : Cursor} (h : Item.read here pending c = .ok (item, c')) :
    ¬ c.atEnd = true := by
  intro hend
  have hlt := (Item.ahead_of_read h).shorter
  rw [List.isEmpty_iff.1 hend, List.length_nil] at hlt
  omega

/-! ## tables -/

lemma add_item {st : Draft} {t : Table} (ht : t.payload.Legible) (hnew : ∀ t' ∈ st.program.tables, t'.name ≠ t.name)
    (pos : Nat) :
    st.add l here (t.item pos) =
      .ok ⟨⟨st.program.macros, st.program.tables ++ [⟨t.name, t.payload, here⟩]⟩, st.pending⟩ := by
  obtain ⟨name, payload, origin⟩ := t
  have hadd : st.program.addTable ⟨name, payload, here⟩ = .ok _ := addTable_eq_ok_iff.2 ⟨hnew, rfl⟩
  cases payload with
  | jumps labels packed =>
    have hwords : Text.words (' ' :: ((Payload.jumps labels packed).inner ++ [' '])) = labels := by
      rw [Text.words_space]
      exact Text.words_join ht
    have hlabels : jumpLabels name here (' ' :: ((Payload.jumps labels packed).inner ++ [' '])) = .ok labels := by
      have hnone : labels.find? (fun l => !Text.isWord l) = none := by
        rw [List.find?_eq_none]
        intro l hl
        simp [ht l hl]
      simp only [jumpLabels, hwords, hnone]
    simp only [add, Table.item, hlabels, hadd, bind, Except.bind, pure, Except.pure]
  | code bytes =>
    have hbytes : tableBytes l name (' ' :: ((Payload.code bytes).inner ++ [' '])) pos = .ok bytes := by
      rw [tableBytes, codeBytes_inner]
    simp only [add, Table.item, hbytes, hadd, bind, Except.bind, pure, Except.pure]

/-- A table at the cursor is taken in. -/
lemma readFrom_table (ms : MacroTable) {ts : TableSet} {t : Table} (hname : t.name.Declarable) (ht : t.payload.Legible)
    (hnew : ∀ t' ∈ ts, t'.name ≠ t.name) (h : c.skipBlanks.rest = t.render ++ r) :
    ∃ t' c', readFrom l ⟨⟨ms, ts⟩, none⟩ c = readFrom l ⟨⟨ms, ts ++ [t']⟩, none⟩ c' ∧ t'.bare = t.bare ∧
      c'.rest = r := by
  obtain ⟨pos, c', hread, hrest⟩ := Item.read_table hname ht (l.originAt c.skipBlanks.pos) h
  refine ⟨⟨t.name, t.payload, l.originAt c.skipBlanks.pos⟩, c', ?_, rfl, hrest⟩
  exact readFrom_of_item (not_atEnd_of_read hread) hread (add_item ht hnew pos)

/-- **Written tables are taken in**, in their order. -/
lemma readFrom_tables (ms : MacroTable) (done : TableSet) {ts : TableSet}
    (hdecl : ∀ t ∈ ts, t.name.Declarable ∧ t.payload.Legible)
    (hnames : (done.map Table.name ++ ts.map Table.name).Nodup) (hr : ∀ x ∈ r.head?, isBlank x = false)
    (h : c.skipBlanks.rest = (ts.map Table.render).flatMap (· ++ ['\n']) ++ r) :
    ∃ ts' c', readFrom l ⟨⟨ms, done⟩, none⟩ c = readFrom l ⟨⟨ms, done ++ ts'⟩, none⟩ c' ∧ TableSet.bare ts' = ts.bare ∧
      c'.skipBlanks.rest = r := by
  induction ts generalizing done c with
  | nil => exact ⟨[], c, by rw [List.append_nil], rfl, h⟩
  | cons t ts ih =>
    have hfirst : c.skipBlanks.rest = t.render ++ '\n' :: ((ts.map Table.render).flatMap (· ++ ['\n']) ++ r) := by
      rw [h]
      simp
    have hnew : ∀ t' ∈ done, t'.name ≠ t.name := fun t' ht' =>
      (List.nodup_append.1 hnames).2.2 _ (List.mem_map_of_mem ht') _ List.mem_cons_self
    obtain ⟨hname, ht⟩ := hdecl t List.mem_cons_self
    obtain ⟨t', c₁, hstep, hbare, h₁⟩ := readFrom_table (l := l) ms hname ht hnew hfirst
    have hname' : t'.name = t.name := (congrArg Table.name hbare :)
    have hnames' : ((done ++ [t']).map Table.name ++ ts.map Table.name).Nodup := by
      rw [List.map_append, List.map_singleton, hname', List.append_assoc]
      exact hnames
    obtain ⟨ts', c₂, hrun, hbares, h₂⟩ := ih _ (fun u hu => hdecl u (List.mem_cons_of_mem t hu)) hnames'
      (Cursor.rest_skipBlanks_of_cons (by decide) (Table.isBlank_of_head?_renders ts hr) h₁)
    refine ⟨t' :: ts', c₂, ?_, ?_, h₂⟩
    · rw [hstep, hrun, List.append_assoc, List.singleton_append]
    · exact congrArg₂ List.cons hbare hbares

/-! ## macros -/

/-- A definition at the cursor is taken in with the parameters that wait for it. -/
lemma readFrom_defn (pending : Option (List Text × Origin)) {done : List Macro} {ts ts' : TableSet} {m : Macro}
    (hname : m.name.Declarable) (hm : m.Legible ts) (hts : ts.bare = ts'.bare)
    (hpending : (pending.map (·.1)).getD [] = m.params) (hnew : ∀ m' ∈ done, m'.name ≠ m.name)
    (h : c.skipBlanks.rest = "#define".toList ++ ' ' :: ("macro".toList ++ ' ' :: (m.name ++ m.renderTail r))) :
    ∃ m' c', readFrom l ⟨⟨⟨done⟩, ts'⟩, pending⟩ c = readFrom l ⟨⟨⟨m' :: done⟩, ts'⟩, none⟩ c' ∧ m'.bare = m.bare ∧
      c'.rest = r := by
  obtain ⟨pos, c', hread, hrest⟩ :=
    Item.read_defn hname hm.takes hm.returns hm.body (l.originAt c.skipBlanks.pos) pending.isSome h
  obtain ⟨ops, hops, hbare⟩ := hm.exists_ops hts pos l
  refine ⟨{ m with ops := ops, origin := l.originAt c.skipBlanks.pos }, c', ?_, ?_, hrest⟩
  · refine readFrom_of_item (not_atEnd_of_read hread) hread ?_
    have hadd : addMacro ⟨⟨done⟩, ts'⟩ { m with ops := ops, origin := l.originAt c.skipBlanks.pos } = .ok _ :=
      addMacro_eq_ok_iff.2 ⟨hnew, rfl⟩
    simp only [add, hops, hpending, hadd, bind, Except.bind, pure, Except.pure]
  · simp only [Macro.bare, hbare]

/-- A macro at the cursor is taken in with its own parameters, and none are left waiting. -/
lemma readFrom_macro {done : List Macro} {ts ts' : TableSet} {m : Macro} (hwf : m.WellFormed) (hm : m.Legible ts)
    (hts : ts.bare = ts'.bare) (hnew : ∀ m' ∈ done, m'.name ≠ m.name) (h : c.skipBlanks.rest = m.render ++ r) :
    ∃ m' c', readFrom l ⟨⟨⟨done⟩, ts'⟩, none⟩ c = readFrom l ⟨⟨⟨m' :: done⟩, ts'⟩, none⟩ c' ∧ m'.bare = m.bare ∧
      c'.rest = r := by
  rw [Macro.render_append] at h
  by_cases hparams : m.params = []
  · rw [Macro.renderParams, if_pos (List.isEmpty_iff.2 hparams), List.nil_append] at h
    exact readFrom_defn none hwf.name hm hts hparams.symm hnew h
  · obtain ⟨c₁, hread, h₁⟩ := Item.read_params hparams hwf.params (l.originAt c.skipBlanks.pos) h
    have hskip := Cursor.rest_skipBlanks_of_cons (by decide) (Text.isBlank_of_head?_cons (by decide) _) h₁
    obtain ⟨m', c', hrun, hbare, hrest⟩ := readFrom_defn (l := l)
      (some (m.params, l.originAt c.skipBlanks.pos)) hwf.name hm hts rfl hnew hskip
    refine ⟨m', c', ?_, hbare, hrest⟩
    rw [← hrun]
    exact readFrom_of_item (not_atEnd_of_read hread) hread rfl

/-- **Written macros are taken in**, the last one ending up in front. -/
lemma readFrom_macros (done : List Macro) {ms : List Macro} {ts ts' : TableSet}
    (hdecl : ∀ m ∈ ms, m.WellFormed ∧ m.Legible ts)
    (hts : ts.bare = ts'.bare) (hnames : ((done.map Macro.name).reverse ++ ms.map Macro.name).Nodup)
    (h : c.skipBlanks.rest = (ms.map Macro.render).flatMap (· ++ ['\n'])) :
    ∃ ms', readFrom l ⟨⟨⟨done⟩, ts'⟩, none⟩ c = .ok ⟨⟨⟨ms' ++ done⟩, ts'⟩, none⟩ ∧
      ms'.map Macro.bare = (ms.map Macro.bare).reverse := by
  induction ms generalizing done c with
  | nil =>
    have hend : c.skipBlanks.atEnd = true := List.isEmpty_iff.2 h
    refine ⟨[], ?_, rfl⟩
    rw [readFrom, if_pos hend]
    rfl
  | cons m ms ih =>
    have hfirst : c.skipBlanks.rest = m.render ++ '\n' :: (ms.map Macro.render).flatMap (· ++ ['\n']) := by
      rw [h]
      simp
    have hnew : ∀ m' ∈ done, m'.name ≠ m.name := fun m' hm' =>
      (List.nodup_append.1 hnames).2.2 _ (List.mem_reverse.2 (List.mem_map_of_mem hm')) _ List.mem_cons_self
    obtain ⟨hwf, hm⟩ := hdecl m List.mem_cons_self
    obtain ⟨m', c₁, hstep, hbare, h₁⟩ := readFrom_macro (l := l) hwf hm hts hnew hfirst
    have hname' : m'.name = m.name := (congrArg Macro.name hbare :)
    have hnames' : (((m' :: done).map Macro.name).reverse ++ ms.map Macro.name).Nodup := by
      rw [List.map_cons, List.reverse_cons, hname', List.append_assoc]
      exact hnames
    obtain ⟨ms', hrun, hbares⟩ := ih _ (fun u hu => hdecl u (List.mem_cons_of_mem m hu)) hnames'
      (Cursor.rest_skipBlanks_of_cons (by decide) (Macro.isBlank_of_head?_renders ms) h₁)
    refine ⟨ms' ++ [m'], ?_, ?_⟩
    · rw [hstep, hrun, List.append_assoc, List.singleton_append]
    · rw [List.map_append, hbares, List.map_singleton, hbare, List.map_cons, List.reverse_cons]

end Program.Draft

namespace Program

/-- **A program that has been read survives being written and read.** Written with its tables in their order and its
macros in any, it is read as the same tables and the same macros at other places, each macro with the parameters that
stand before it and no others. -/
theorem read_render {s : Sources} {p : Program} (h : read s = .ok p) {ms : List Macro} (hms : ms.Perm p.macros.macros)
    (name : Text) :
    ∃ p', read [⟨name, render ⟨⟨ms⟩, p.tables⟩⟩] = .ok p' ∧ p'.tables.bare = p.tables.bare ∧
      p'.macros.macros.map Macro.bare = (ms.map Macro.bare).reverse := by
  have hwf := read_wellFormed h
  have hlegible := read_legible h
  have htext : Sources.text [⟨name, render ⟨⟨ms⟩, p.tables⟩⟩] =
      (p.tables.map Table.render).flatMap (· ++ ['\n']) ++ (ms.map Macro.render).flatMap (· ++ ['\n']) := by
    simp [Sources.text, render]
  have hstart := Table.isBlank_of_head?_renders p.tables (Macro.isBlank_of_head?_renders ms)
  obtain ⟨ts, c, htables, hts, hc⟩ := Draft.readFrom_tables (l := Sources.lines [⟨name, render ⟨⟨ms⟩, p.tables⟩⟩])
    (c := Cursor.start _) {} [] (fun t ht => ⟨hwf.tables t ht, hlegible.tables t ht⟩)
    hlegible.tableNames (Macro.isBlank_of_head?_renders ms) (congrArg Cursor.rest (Cursor.skipBlanks_eq hstart))
  obtain ⟨ms', hmacros, hbare⟩ := Draft.readFrom_macros (l := Sources.lines [⟨name, render ⟨⟨ms⟩, p.tables⟩⟩])
    [] (fun m hm => ⟨hwf.macros m (hms.mem_iff.1 hm), hlegible.macros m (hms.mem_iff.1 hm)⟩) hts.symm
    ((hms.map Macro.name).nodup_iff.2 hlegible.macroNames) hc
  refine ⟨⟨⟨ms' ++ []⟩, ts⟩, read_eq_ok_iff.2 ?_, hts, ?_⟩
  · rw [htext]
    exact htables.trans hmacros
  · rw [List.append_nil]
    exact hbare

end Program

namespace Sample

/-- Tables of every kind, one of them empty; a macro with parameters that asks for the size of a table, and one behind
an empty list of parameters. -/
def mixed : Sources := [⟨"mixed".toList, "table E\x7b\x7djumptable J\x7bx y\x7djumptable__packed K\x7bx\x7d
table C\x7b0xABC 2\x7d<a,b>#define macro F=takes(0x2)returns(01)\x7b<a>__tablesize(K)\x7d
<>#define macro G=takes(0)returns(0)\x7by:\x7d".toList⟩]

/-- The same declarations as they are written. -/
def mixedText : Text := "table E \x7b  \x7d
jumptable J \x7b x y \x7d
jumptable__packed K \x7b x \x7d
table C \x7b 0x0abc02 \x7d
template <a, b> #define macro F = takes(2) returns(1) \x7b<a>__tablesize(K)\x7d
#define macro G = takes(0) returns(0) \x7by:\x7d
".toList

lemma read_mixed : (Program.read mixed).toOption.map
    (fun p => (Program.render ⟨⟨p.macros.macros.reverse⟩, p.tables⟩, p.tables.map (·.name),
      p.macros.macros.map fun m => (m.name, m.params))) =
    some (mixedText, ["E".toList, "J".toList, "K".toList, "C".toList],
      [("G".toList, []), ("F".toList, ["a".toList, "b".toList])]) := by
  decide +kernel

end Sample

/-- Declarations written in the order in which they were read. -/
theorem Program.read_render_mixed :
    ∃ p, Program.read Sample.mixed = .ok p ∧
      p.tables.map (·.name) = ["E".toList, "J".toList, "K".toList, "C".toList] ∧
      (p.macros.macros.map fun m => (m.name, m.params)) =
        [("G".toList, []), ("F".toList, ["a".toList, "b".toList])] ∧
      ∃ p', Program.read [⟨"mixed".toList, Sample.mixedText⟩] = .ok p' ∧
        p'.tables.bare = p.tables.bare ∧ p'.macros.macros.map Macro.bare = p.macros.macros.map Macro.bare := by
  obtain ⟨p, hread, hseen⟩ := exists_ok_of_map Sample.read_mixed
  obtain ⟨htext, hnames, hparams⟩ : _ ∧ _ ∧ _ := by simpa only [Prod.mk.injEq] using hseen
  obtain ⟨p', hread', htables, hmacros⟩ := Program.read_render hread (List.reverse_perm _) "mixed".toList
  rw [htext] at hread'
  refine ⟨p, hread, hnames, hparams, p', hread', htables, ?_⟩
  rw [hmacros, List.map_reverse, List.reverse_reverse]

end MacroAsm
