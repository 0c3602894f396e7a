import MacroAsm.Proofs.Concatenation

/-!
# Programs without places

Operations, macros and tables know where they were written. What is read does not depend on that: sources with one text,
however it is divided into files, declare the same macros and tables at other places, or fail for causes of one kind.

* `Concur kind r x y`: two outcomes that are both results or both failures;
* `Op.bare`, `Macro.bare`, `Table.bare`, `Program.bare`: the same without a place;
* `OpReader.next_bare`: an operation is read without looking at the places of tables;
* `Program.concur_read`: sources with one text.
-/

namespace MacroAsm

/-! ## outcomes of two runs -/

/-- Both succeed, with results related by `r`, or both fail for causes of one kind. -/
inductive Concur {ε α β : Type} (kind : ε → Kind) (r : α → β → Prop) : Except ε α → Except ε β → Prop
  | ok {a : α} {b : β} (h : r a b) : Concur kind r (.ok a) (.ok b)
  | error {f g : ε} (h : kind f = kind g) : Concur kind r (.error f) (.error g)

namespace Concur

variable {ε α β γ δ : Type} {kind : ε → Kind} {r : α → β → Prop}

lemma refl (x : Except ε α) : Concur kind Eq x x := by
  cases x with
  | ok a => exact .ok rfl
  | error f => exact .error rfl

lemma exists_ok {a : α} {y : Except ε β} (h : Concur kind r (.ok a) y) : ∃ b, y = .ok b ∧ r a b := by
  cases h with
  | ok h => exact ⟨_, rfl, h⟩

lemma exists_error {f : ε} {y : Except ε β} (h : Concur kind r (.error f) y) :
    ∃ g, y = .error g ∧ kind f = kind g := by
  cases h with
  | error h => exact ⟨_, rfl, h⟩

lemma bind {r' : γ → δ → Prop} {x : Except ε α} {y : Except ε β} {f : α → Except ε γ} {g : β → Except ε δ}
    (h : Concur kind r x y) (hf : ∀ a b, r a b → Concur kind r' (f a) (g b)) :
    Concur kind r' (x >>= f) (y >>= g) := by
  cases h with
  | ok h => exact hf _ _ h
  | error h => exact .error h

/-- Two outcomes that concur with a third concur with each other. -/
lemma of_common {r' : γ → β → Prop} {r'' : α → γ → Prop} {x : Except ε α} {y : Except ε γ} {z : Except ε β}
    (hx : Concur kind r x z) (hy : Concur kind r' y z) (hr : ∀ a b c, r a b → r' c b → r'' a c) :
    Concur kind r'' x y := by
  cases hx with
  | ok ha =>
    cases hy with
    | ok hb => exact .ok (hr _ _ _ ha hb)
  | error ha =>
    cases hy with
    | error hb => exact .error (ha.trans hb.symm)

end Concur

/-! ## declarations without places -/

/-- The operation without its place. -/
def Op.bare (o : Op) : Op := ⟨o.kind, 0, .unknown⟩

/-- The macro without the places of its parts. -/
def Macro.bare (m : Macro) : Macro := { m with ops := m.ops.map Op.bare, origin := .unknown }

/-- The macros without their places. -/
def MacroTable.bare (t : MacroTable) : MacroTable := ⟨t.macros.map Macro.bare⟩

/-- The table without its place. -/
def Table.bare (t : Table) : Table := { t with origin := .unknown }

/-- The tables without their places. -/
def TableSet.bare (ts : TableSet) : TableSet := ts.map Table.bare

/-- The program without the places of its parts. -/
def Program.bare (p : Program) : Program := ⟨p.macros.bare, p.tables.bare⟩

/-- What has been read so far, without places. -/
def Program.Draft.bare (st : Draft) : Draft := ⟨st.program.bare, st.pending.map fun w => (w.1, .unknown)⟩

lemma MacroTable.find?_bare (t : MacroTable) (name : Text) : t.bare.find? name = (t.find? name).map Macro.bare :=
  List.find?_map ..

lemma MacroTable.contains_bare (t : MacroTable) (name : Text) : t.bare.contains name = t.contains name := by
  rw [contains, find?_bare, Option.isSome_map, contains]

lemma TableSet.find?_bare (ts : TableSet) (name : Text) : ts.bare.find? name = (ts.find? name).map Table.bare :=
  List.find?_map ..

/-! ## bodies -/

namespace OpReader

lemma tableSize_bare (ts : TableSet) : tableSize ts.bare = tableSize ts := by
  funext c
  unfold tableSize
  split
  · rfl
  · rfl
  · next name c' hb =>
    rw [TableSet.find?_bare]
    cases ts.find? name <;> rfl

/-- An operation is read without looking at the places of tables. -/
lemma next_bare (ts : TableSet) (labels : List Text) (c : Cursor) : next ts.bare labels c = next ts labels c := by
  rw [next, forms, tableSize_bare, ← forms, ← next]

lemma next_of_bare {ts ts' : TableSet} (h : ts.bare = ts'.bare) (labels : List Text) (c : Cursor) :
    next ts labels c = next ts' labels c := by
  rw [← next_bare, h, next_bare]

end OpReader

namespace Body

variable {b b' : Body}

/-- The operations of one text, at different places of different sources. -/
lemma concur_opsFrom (ht : b.tables.bare = b'.tables.bare) (labels : List Text) (c : Cursor) :
    Concur Fault.kind (fun ops ops' => ops.map Op.bare = ops'.map Op.bare) (b.opsFrom labels c)
      (b'.opsFrom labels c) := by
  fun_induction Body.opsFrom b labels c with
  | case1 labels c hend =>
    rw [opsFrom_of_atEnd hend]
    exact .ok rfl
  | case2 labels c hend cause hnext =>
    rw [OpReader.next_of_bare ht] at hnext
    rw [opsFrom_of_error hend hnext]
    exact .error rfl
  | case3 labels c hend kind c' hnext f hrest ih =>
    rw [OpReader.next_of_bare ht] at hnext
    rw [hrest] at ih
    obtain ⟨g, hrest', hkind⟩ := ih.exists_error
    rw [opsFrom_of_next hend hnext, hrest']
    exact .error hkind
  | case4 labels c hend kind c' hnext ops hrest ih =>
    rw [OpReader.next_of_bare ht] at hnext
    rw [hrest] at ih
    obtain ⟨ops', hrest', hops⟩ := ih.exists_ok
    rw [opsFrom_of_next hend hnext, hrest']
    refine .ok ?_
    rw [List.map_cons, hops]
    rfl

end Body

/-! ## items -/

namespace Item

/-- Where an item is read makes a difference only to what is said of one that cannot be read. -/
lemma concur_read (here here' : Origin) (pending : Bool) (c : Cursor) :
    Concur Cause.kind Eq (read here pending c) (read here' pending c) := by
  unfold read
  split
  · exact .error rfl
  · split
    · exact .error rfl
    · exact .refl _
    · exact .refl _

end Item

namespace Program

variable {p p' : Program}

lemma concur_addMacro (hp : p.bare = p'.bare) {m m' : Macro} (hm : m.bare = m'.bare) :
    Concur Fault.kind (fun p p' => p.bare = p'.bare) (p.addMacro m) (p'.addMacro m') := by
  have hname : m.name = m'.name := (congrArg Macro.name hm :)
  have hmacros : p.macros.bare = p'.macros.bare := congrArg Program.macros hp
  have hcontains : p.macros.contains m.name = p'.macros.contains m'.name := by
    rw [← MacroTable.contains_bare, hmacros, MacroTable.contains_bare, hname]
  unfold addMacro MacroTable.insert
  rw [hcontains]
  split
  · exact .error rfl
  · refine .ok ?_
    have hlist : p.macros.macros.map Macro.bare = p'.macros.macros.map Macro.bare :=
      congrArg MacroTable.macros hmacros
    have htables : p.tables.bare = p'.tables.bare := congrArg Program.tables hp
    simp only [bare, MacroTable.bare, List.map_cons, hm, hlist, htables]

lemma concur_addTable (hp : p.bare = p'.bare) {t t' : Table} (ht : t.bare = t'.bare) :
    Concur Fault.kind (fun p p' => p.bare = p'.bare) (p.addTable t) (p'.addTable t') := by
  have hname : t.name = t'.name := (congrArg Table.name ht :)
  have htables : p.tables.bare = p'.tables.bare := congrArg Program.tables hp
  have hfind : (p.tables.find? t.name).isSome = (p'.tables.find? t'.name).isSome := by
    rw [← Option.isSome_map (f := Table.bare), ← TableSet.find?_bare, htables, TableSet.find?_bare, Option.isSome_map,
      hname]
  unfold addTable TableSet.insert
  rw [hfind]
  split
  · exact .error rfl
  · refine .ok ?_
    have hmacros : p.macros.bare = p'.macros.bare := congrArg Program.macros hp
    have hlist : p.tables.map Table.bare = p'.tables.map Table.bare := htables
    simp only [bare, TableSet.bare, List.map_append, List.map_cons, ht, hlist, hmacros]

lemma concur_jumpLabels (table : Text) (here here' : Origin) (body : Text) :
    Concur Fault.kind Eq (jumpLabels table here body) (jumpLabels table here' body) := by
  unfold jumpLabels
  split
  · exact .error rfl
  · exact .ok rfl

lemma concur_tableBytes (l l' : Lines) (table body : Text) (pos pos' : Nat) :
    Concur Fault.kind Eq (tableBytes l table body pos) (tableBytes l' table body pos') := by
  unfold tableBytes
  split
  · exact .ok rfl
  · exact .error rfl

namespace Draft

variable {st st' : Draft}

lemma isSome_pending (h : st.bare = st'.bare) : st.pending.isSome = st'.pending.isSome := by
  have hpending := congrArg (fun st => st.pending.isSome) h
  simpa only [bare, Option.isSome_map] using hpending

/-- Drafts that differ in places read the same item. -/
lemma read_of_bare (h : st.bare = st'.bare) {here : Origin} (here' : Origin) {c c' : Cursor} {item : Item}
    (hread : Item.read here st.pending.isSome c = .ok (item, c')) :
    Item.read here' st'.pending.isSome c = .ok (item, c') := by
  have hitem := Item.concur_read here here' st.pending.isSome c
  rw [hread, isSome_pending h] at hitem
  obtain ⟨_, hread', rfl⟩ := hitem.exists_ok
  exact hread'

/-- One item is taken in by two drafts alike. -/
lemma concur_add (h : st.bare = st'.bare) (l l' : Lines) (here here' : Origin) (item : Item) :
    Concur Fault.kind (fun st st' => st.bare = st'.bare) (st.add l here item) (st'.add l' here' item) := by
  have hp : st.program.bare = st'.program.bare := congrArg Draft.program h
  have hpending : st.bare.pending = st'.bare.pending := congrArg Draft.pending h
  have htables : st.program.tables.bare = st'.program.tables.bare := (congrArg Program.tables hp :)
  cases item with
  | params names =>
    refine .ok ?_
    simp only [bare, hp, Option.map_some]
  | defn name takes returns body bodyPos =>
    refine (Body.concur_opsFrom htables _ _).bind fun ops ops' hops => ?_
    have hparams : (st.pending.map (·.1)).getD [] = (st'.pending.map (·.1)).getD [] := by
      have hnames := congrArg (Option.map (·.1)) hpending
      simp only [bare, Option.map_map] at hnames
      exact congrArg (·.getD []) hnames
    refine (concur_addMacro hp ?_).bind fun q q' hq => .ok ?_
    · simp only [Macro.bare, hops, hparams]
    · simp only [bare, hq, Option.map_none]
  | jumpTable name packed body =>
    refine (concur_jumpLabels name here here' body).bind fun labels _ hlabels => ?_
    cases hlabels
    refine (concur_addTable hp ?_).bind fun q q' hq => .ok ?_
    · rfl
    · exact congrArg₂ Draft.mk hq hpending
  | codeTable name body bodyPos =>
    refine (concur_tableBytes l l' name body bodyPos bodyPos).bind fun bytes _ hbytes => ?_
    cases hbytes
    refine (concur_addTable hp ?_).bind fun q q' hq => .ok ?_
    · rfl
    · exact congrArg₂ Draft.mk hq hpending

lemma readFrom_of_read_error {l : Lines} {c : Cursor} {cause : Cause} (hend : ¬ c.skipBlanks.atEnd = true)
    (h : Item.read (l.originAt c.skipBlanks.pos) st.pending.isSome c.skipBlanks = .error cause) :
    st.readFrom l c = .error (.located cause (l.originAt c.skipBlanks.pos)) := by
  rw [Draft.readFrom, if_neg hend]
  split
  · next herror =>
    rw [h] at herror
    cases herror
    rfl
  · next hok =>
    rw [h] at hok
    cases hok

lemma readFrom_of_add_error {l : Lines} {c c' : Cursor} {item : Item} {f : Fault}
    (hend : ¬ c.skipBlanks.atEnd = true)
    (h : Item.read (l.originAt c.skipBlanks.pos) st.pending.isSome c.skipBlanks = .ok (item, c'))
    (hadd : st.add l (l.originAt c.skipBlanks.pos) item = .error f) : st.readFrom l c = .error f := by
  rw [Draft.readFrom, if_neg hend]
  split
  · next herror =>
    rw [h] at herror
    cases herror
  · next hok =>
    rw [h] at hok
    cases hok
    rw [hadd]

/-- One text is read by two drafts alike, in different sources. -/
lemma concur_readFrom (h : st.bare = st'.bare) (l l' : Lines) (c : Cursor) :
    Concur Fault.kind (fun st st' => st.bare = st'.bare) (st.readFrom l c) (st'.readFrom l' c) := by
  fun_induction Draft.readFrom l st c generalizing st' with
  | case1 st c hend =>
    rw [Draft.readFrom, if_pos hend]
    exact .ok h
  | case2 st c hend cause hread =>
    have hitem := Item.concur_read (l.originAt c.skipBlanks.pos) (l'.originAt c.skipBlanks.pos) st.pending.isSome
      c.skipBlanks
    rw [hread, isSome_pending h] at hitem
    obtain ⟨cause', hread', hkind⟩ := hitem.exists_error
    rw [readFrom_of_read_error hend hread']
    exact .error hkind
  | case3 st c hend item c' hread f hadd =>
    have hread' := read_of_bare h (l'.originAt c.skipBlanks.pos) hread
    have hadds := concur_add h l l' (l.originAt c.skipBlanks.pos) (l'.originAt c.skipBlanks.pos) item
    rw [hadd] at hadds
    obtain ⟨f', hadd', hkind⟩ := hadds.exists_error
    rw [readFrom_of_add_error hend hread' hadd']
    exact .error hkind
  | case4 st c hend item c' hread st₁ hadd ih =>
    have hread' := read_of_bare h (l'.originAt c.skipBlanks.pos) hread
    have hadds := concur_add h l l' (l.originAt c.skipBlanks.pos) (l'.originAt c.skipBlanks.pos) item
    rw [hadd] at hadds
    obtain ⟨st₁', hadd', hbare⟩ := hadds.exists_ok
    rw [readFrom_of_item hend hread' hadd']
    exact ih hbare

lemma concur_finish (h : st.bare = st'.bare) :
    Concur Fault.kind (fun p p' => p.bare = p'.bare) st.finish st'.finish := by
  have hp : st.program.bare = st'.program.bare := congrArg Draft.program h
  have hpending := isSome_pending h
  unfold finish
  cases hw : st.pending with
  | none =>
    cases hw' : st'.pending with
    | none => exact .ok hp
    | some w' =>
      rw [hw, hw'] at hpending
      cases hpending
  | some w =>
    cases hw' : st'.pending with
    | none =>
      rw [hw, hw'] at hpending
      cases hpending
    | some w' => exact .error rfl

end Draft

/-- Sources with one text declare the same program at other places, or fail for causes of one kind. -/
theorem concur_read {s s' : Sources} (h : s.text = s'.text) :
    Concur Fault.kind (fun p p' => p.bare = p'.bare) (read s) (read s') := by
  unfold read
  rw [h]
  exact (Draft.concur_readFrom rfl s.lines s'.lines _).bind fun _ _ hst => Draft.concur_finish hst

end Program
end MacroAsm
