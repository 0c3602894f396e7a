import MacroAsm.Program
import MacroAsm.Proofs.Bytes
import MacroAsm.Proofs.Readable
import MacroAsm.Proofs.Refinement

/-!
# The names in a program

A program that has been read declares macros under words, and its operations ask for macros by words. So none of its
names looks like one made for a template argument, and expansion depends on the declared macros alone.

* `Program.WellFormed`: pushes fit, labels are defined once, names are as they should be; `Program.read_wellFormed`;
* `MacroTable.Worded`: names and callees are words; `Program.read_worded`;
* `MacroTable.Worded.covers`, `MacroTable.Worded.tame`: what `Engine.expand_mirrors` asks for.
-/

namespace MacroAsm

lemma Text.isPlain_of_isWord {t : Text} (h : t.isWord = true) : t.isPlain = true := by
  refine isPlain_of_no_hyphen fun hmem => ?_
  have hchar := isWordChar_of_mem h hmem
  revert hchar
  decide

/-! ## operations -/

lemma OpKind.Readable.isWord_callees {labels : List Text} {k : OpKind}
    (h : k.Readable labels) : ∀ x ∈ k.callees, Text.isWord x = true := by
  intro x hx
  cases k with
  | call callee args =>
    rw [List.mem_singleton.1 hx]
    exact h.1.word
  | codeSize callee args =>
    rw [List.mem_singleton.1 hx]
    exact h.1
  | opcode | push | labelDef | labelRef | template | tableStart => cases hx

lemma OpKind.AllReadable.exists_readable {labels : List Text} {ks : List OpKind}
    (h : AllReadable labels ks) : ∀ k ∈ ks, ∃ labels', k.Readable labels' := by
  induction ks generalizing labels with
  | nil =>
    intro k hk
    cases hk
  | cons k₀ ks ih =>
    intro k hk
    rcases List.mem_cons.1 hk with rfl | hk
    · exact ⟨labels, h.1⟩
    · exact ih h.2 k hk

/-- No label is defined twice, and none that was defined before. -/
lemma OpKind.AllReadable.nodup_defines {labels : List Text} {ks : List OpKind}
    (h : AllReadable labels ks) :
    (ks.flatMap defines).Nodup ∧ ∀ l ∈ ks.flatMap defines, l ∉ labels := by
  induction ks generalizing labels with
  | nil => simp
  | cons k ks ih =>
    obtain ⟨hnodup, hnew⟩ := ih h.2
    have hfirst : k.defines.Nodup ∧ ∀ l ∈ k.defines, l ∉ labels := by
      have hk := h.1
      cases k with
      | labelDef l =>
        refine ⟨by simp [defines], fun x hx => ?_⟩
        rw [List.mem_singleton.1 hx]
        exact hk.2
      | opcode | push | labelRef | call | template | codeSize | tableStart =>
        exact ⟨List.nodup_nil, fun x hx => nomatch hx⟩
    rw [List.flatMap_cons]
    refine ⟨List.nodup_append.2 ⟨hfirst.1, hnodup, ?_⟩, fun l hl => ?_⟩
    · rintro x hx y hy rfl
      exact hnew x hy (List.mem_append_left _ hx)
    · rcases List.mem_append.1 hl with hl | hl
      · exact hfirst.2 l hl
      · exact fun hmem => hnew l hl (List.mem_append_right _ hmem)

/-! ## declarations -/

/-- What a declaration may be called: a word with a letter in it that does not look like a hexadecimal numeral. -/
structure Text.Declarable (name : Text) : Prop where
  word : name.isWord = true
  letter : ∃ c ∈ name, c.isAlpha = true
  hex : ¬ "0x".toList <+: name

namespace Item

/-- The names that an item brings are as they should be. -/
def Named : Item → Prop
  | params names => ∀ x ∈ names, Text.isWord x = true
  | defn name .. => name.Declarable
  | jumpTable name .. => name.Declarable
  | codeTable name .. => name.Declarable

lemma declarable_of_readName {kind : DeclKind} {c c' : Cursor} {name : Text} (h : readName kind c = .ok (name, c')) :
    name.Declarable := by
  unfold readName at h
  split at h
  · cases h
  · next w c₁ hword =>
    split at h
    · next hname =>
      cases h
      unfold Text.isName at hname
      simp only [Bool.and_eq_true, List.any_eq_true, Bool.not_eq_true'] at hname
      refine ⟨(Cursor.word?_eq_some_iff.1 hword).1, hname.1, ?_⟩
      rw [← List.isPrefixOf_iff_prefix, hname.2]
      exact Bool.false_ne_true
    · cases h

lemma named_of_readDecl {kind : DeclKind} {c c' : Cursor} {item : Item} (h : readDecl kind c = .ok (item, c')) :
    item.Named := by
  obtain ⟨⟨name, c₁⟩, hname, h⟩ := ok_of_bind h
  have hdecl := declarable_of_readName hname
  cases kind with
  | defn =>
    obtain ⟨_, -, h⟩ := ok_of_bind h
    obtain ⟨_, -, h⟩ := ok_of_bind h
    obtain ⟨_, -, h⟩ := ok_of_bind h
    obtain ⟨_, -, h⟩ := ok_of_bind h
    obtain ⟨_, -, h⟩ := ok_of_bind h
    cases h
    exact hdecl
  | jumpTable | packedJumpTable | codeTable =>
    obtain ⟨_, -, h⟩ := ok_of_bind h
    cases h
    exact hdecl

lemma exists_of_readParams {c c' : Cursor} {item : Item} (h : readParams c = .ok (item, c')) :
    ∃ names, item = params names ∧ ∀ x ∈ names, Text.isWord x = true := by
  unfold readParams at h
  split at h
  · cases h
  · split at h
    · cases h
    · next hnone =>
      cases h
      refine ⟨_, rfl, fun x hx => ?_⟩
      simpa using List.find?_eq_none.1 hnone x hx

/-- An item is a list of parameters or a declaration. -/
lemma read_cases {here : Origin} {pending : Bool} {c c' : Cursor} {item : Item}
    (h : read here pending c = .ok (item, c')) :
    (∃ c₁, readParams c₁ = .ok (item, c')) ∨ ∃ kind c₁, readDecl kind c₁ = .ok (item, c') := by
  unfold read at h
  split at h
  · cases h
  · split at h
    · cases h
    · split at h
      · cases h
      · exact Or.inl ⟨_, h⟩
    · split at h
      · cases h
      · exact Or.inr ⟨_, _, h⟩

lemma named_of_read {here : Origin} {pending : Bool} {c c' : Cursor} {item : Item}
    (h : read here pending c = .ok (item, c')) : item.Named := by
  rcases read_cases h with ⟨_, h⟩ | ⟨_, _, h⟩
  · obtain ⟨names, rfl, hwords⟩ := exists_of_readParams h
    exact hwords
  · exact named_of_readDecl h

end Item

/-- What is true of a macro that has been read. -/
structure Macro.WellFormed (m : Macro) : Prop where
  name : m.name.Declarable
  params : ∀ x ∈ m.params, Text.isWord x = true
  push : ∀ op ∈ m.ops, ∀ byte data, op.kind = .push byte data →
    1 ≤ data.length ∧ data.length ≤ 32 ∧ byte.toNat = 0x5f + data.length
  labels : (m.ops.flatMap fun op => op.kind.defines).Nodup
  callees : ∀ op ∈ m.ops, ∀ x ∈ op.kind.callees, Text.isWord x = true

/-- A body that has been read makes a macro well-formed. -/
lemma Macro.wellFormed_of_ops {m : Macro} {b : Body} (hname : m.name.Declarable)
    (hparams : ∀ x ∈ m.params, Text.isWord x = true) (h : b.ops = .ok m.ops) : m.WellFormed := by
  have hread := Body.allReadable_of_opsFrom b [] (Cursor.start b.text) h
  have hop : ∀ op ∈ m.ops, ∃ labels, op.kind.Readable labels := fun op hop =>
    hread.exists_readable _ (List.mem_map_of_mem hop)
  refine ⟨hname, hparams, fun op hmem byte data hkind => ?_, ?_, fun op hmem => ?_⟩
  · obtain ⟨_, hk⟩ := hop op hmem
    rw [hkind] at hk
    exact Opcode.pushOf?_eq_some_iff.1 hk
  · have hnodup := hread.nodup_defines.1
    rwa [List.flatMap_map] at hnodup
  · obtain ⟨_, hk⟩ := hop op hmem
    exact hk.isWord_callees

/-- What is true of a program that has been read. -/
structure Program.WellFormed (p : Program) : Prop where
  macros : ∀ m ∈ p.macros.macros, m.WellFormed
  tables : ∀ t ∈ p.tables, t.name.Declarable

namespace Program

/-- The program so far is well-formed, and the parameters that wait are words. -/
structure Draft.WellFormed (st : Draft) : Prop where
  program : st.program.WellFormed
  pending : ∀ names here, st.pending = some (names, here) → ∀ x ∈ names, Text.isWord x = true

variable {l : Lines} {here : Origin} {st st' : Draft}

lemma WellFormed.addTable {p p' : Program} {t : Table} (hp : p.WellFormed) (ht : t.name.Declarable)
    (h : p.addTable t = .ok p') : p'.WellFormed := by
  obtain ⟨ts, hts, h⟩ := ok_of_bind h
  cases h
  refine ⟨hp.macros, fun t' ht' => ?_⟩
  unfold TableSet.insert at hts
  split at hts
  · cases hts
  · cases hts
    rcases List.mem_append.1 ht' with ht' | ht'
    · exact hp.tables t' ht'
    · rw [List.mem_singleton.1 ht']
      exact ht

lemma WellFormed.addMacro {p p' : Program} {m : Macro} (hp : p.WellFormed) (hm : m.WellFormed)
    (h : p.addMacro m = .ok p') : p'.WellFormed := by
  obtain ⟨t, ht, h⟩ := ok_of_bind h
  cases h
  refine ⟨fun m' hm' => ?_, hp.tables⟩
  unfold MacroTable.insert at ht
  split at ht
  · cases ht
  · cases ht
    rcases List.mem_cons.1 hm' with rfl | hm'
    · exact hm
    · exact hp.macros m' hm'

/-- One item keeps a draft well-formed. -/
lemma Draft.WellFormed.add {item : Item} (hst : st.WellFormed) (hitem : item.Named) (h : st.add l here item = .ok st') :
    st'.WellFormed := by
  cases item with
  | params names =>
    cases h
    refine ⟨hst.program, fun names' here' heq => ?_⟩
    cases heq
    exact hitem
  | defn name takes returns body bodyPos =>
    obtain ⟨ops, hops, h⟩ := ok_of_bind h
    obtain ⟨p, hp, h⟩ := ok_of_bind h
    cases h
    have hparams : ∀ x ∈ (st.pending.map (·.1)).getD [], Text.isWord x = true := by
      cases hpending : st.pending with
      | none => simp
      | some waiting => exact hst.pending waiting.1 waiting.2 hpending
    refine ⟨hst.program.addMacro ?_ hp, fun _ _ heq => nomatch heq⟩
    exact Macro.wellFormed_of_ops hitem hparams hops
  | jumpTable name packed body =>
    obtain ⟨labels, -, h⟩ := ok_of_bind h
    obtain ⟨p, hp, h⟩ := ok_of_bind h
    cases h
    refine ⟨hst.program.addTable ?_ hp, hst.pending⟩
    exact hitem
  | codeTable name body bodyPos =>
    obtain ⟨bytes, -, h⟩ := ok_of_bind h
    obtain ⟨p, hp, h⟩ := ok_of_bind h
    cases h
    refine ⟨hst.program.addTable ?_ hp, hst.pending⟩
    exact hitem

/-- What every item keeps true of a draft is true in the end. -/
lemma Draft.readFrom_preserves {P : Draft → Prop} {c : Cursor}
    (hstep : ∀ st st' here pending item c c', P st → Item.read here pending c = .ok (item, c') →
      st.add l here item = .ok st' → P st')
    (hst : P st) (h : st.readFrom l c = .ok st') : P st' := by
  fun_induction Draft.readFrom l st c with
  | case1 st c hend =>
    cases h
    exact hst
  | case2 st c hend cause hread => cases h
  | case3 st c hend item c' hread f hadd => cases h
  | case4 st c hend item c' hread st₁ hadd ih => exact ih (hstep _ _ _ _ _ _ _ hst hread hadd) h

lemma Draft.WellFormed.readFrom {c : Cursor} (hst : st.WellFormed) (h : st.readFrom l c = .ok st') :
    st'.WellFormed := by
  refine readFrom_preserves (fun st st' here pending item c c' hst hread hadd => ?_) hst h
  exact hst.add (Item.named_of_read hread) hadd

/-- **A program that has been read is well-formed.** -/
theorem read_wellFormed {s : Sources} {p : Program} (h : read s = .ok p) : p.WellFormed := by
  obtain ⟨st, hst, h⟩ := ok_of_bind h
  have hempty : Draft.WellFormed {} :=
    ⟨⟨fun m hm => (nomatch hm), fun t ht => (nomatch ht)⟩, fun _ _ heq => (nomatch heq)⟩
  have hwf := hempty.readFrom hst
  unfold Draft.finish at h
  split at h
  · cases h
  · cases h
    exact hwf.program

end Program

/-- The macros have words for names and ask for others by words. -/
structure MacroTable.Worded (t : MacroTable) : Prop where
  name : ∀ m ∈ t.macros, Text.isWord m.name = true
  callee : ∀ m ∈ t.macros, ∀ op ∈ m.ops, ∀ x ∈ op.kind.callees, Text.isWord x = true

lemma Program.WellFormed.worded {p : Program} (hp : p.WellFormed) : p.macros.Worded where
  name := fun m hm => (hp.macros m hm).name.word
  callee := fun m hm => (hp.macros m hm).callees

/-- A program that has been read has words for its names. -/
theorem Program.read_worded {s : Sources} {p : Program} (h : read s = .ok p) : p.macros.Worded :=
  (read_wellFormed h).worded

/-! ## expansion in a program -/

namespace MacroTable

/-- The store of a program before anything has been expanded. -/
abbrev fresh (t : MacroTable) : Store := { macros := t }

lemma mem_of_find? {t : MacroTable} {name : Text} {m : Macro} (h : t.find? name = some m) :
    m ∈ t.macros ∧ m.name = name := by
  have hname : (m.name == name) = true := List.find?_some (p := fun m : Macro => m.name == name) h
  exact ⟨List.mem_of_find?_eq_some h, eq_of_beq hname⟩

variable {t : MacroTable}

lemma find?_fresh (t : MacroTable) (name : Text) : t.fresh.find? name = t.find? name := by
  rw [Store.find?_eq]
  exact Option.or_none

lemma Worded.covers (ht : t.Worded) : Engine.Covers t.fresh fun name => name.isPlain = true where
  numbered := Store.numbered_declared t
  plain := fun _ h => h
  callees := by
    intro name m _ hm op hop c hc
    rw [find?_fresh] at hm
    exact Text.isPlain_of_isWord (ht.callee m (mem_of_find? hm).1 op hop c hc)

lemma Worded.tame (ht : t.Worded) : Engine.Tame t.fresh fun name => name.isPlain = true where
  asked := fun _ h => h
  declared := by
    intro name hname
    obtain ⟨m, hm⟩ := Option.isSome_iff_exists.1 hname
    obtain ⟨hmem, rfl⟩ := mem_of_find? hm
    exact Text.isPlain_of_isWord (ht.name m hmem)

end MacroTable

namespace Engine

variable {t : MacroTable} {s : Store}

lemma ready_of_reaches (h : t.fresh.Reaches s) {active : List Frame}
    (hactive : ∀ f ∈ active, s.contains f.name.toList = true) : Ready t.fresh active s where
  numbered := (Store.numbered_declared t).reaches h
  macros := h.macros
  active := hactive

lemma tracks_refl (active : List Frame) : Tracks active active := ⟨fun _ h => h, fun _ h _ => h⟩

/-- **In a program, what is expanded depends on the declared macros alone.** Whatever has been expanded before, a macro
asked for by a plain name expands to the code that it flattens to, and fails as that does. -/
theorem expand_refines (ht : t.Worded) (limits : Limits) (budget : Nat) (active : List Frame) {q : Request}
    (hq : q.name.isPlain = true) :
    Refines t.fresh (fun name => name.isPlain = true) active (expand limits budget active q)
      (Flatten.code t.fresh limits budget active (.named q.name q.args q.site) q.start) (Expands q.start) :=
  (expand_mirrors ht.covers limits budget active active (tracks_refl active)).named q hq

section Outcomes

variable (ht : t.Worded) (hs : t.fresh.Reaches s) {limits : Limits} {budget : Nat} {active : List Frame}
  (hactive : ∀ f ∈ active, s.contains f.name.toList = true) {q : Request} (hq : q.name.isPlain = true)

include ht hs hactive hq

lemma expand_fresh_ok {e : Expansion} {s' : Store} (h : (expand limits budget active q).runOn s = (.ok e, s')) :
    ∃ c, Flatten.code t.fresh limits budget active (.named q.name q.args q.site) q.start = .ok c ∧
      Expands q.start e c := by
  have hgrows := (expand_grows limits budget active q).of_runOn h
  have hready := (ready_of_reaches hs hactive).reaches hgrows
  exact (expand_refines ht limits budget active hq).ok s e s' (ready_of_reaches hs hactive) h
    (ht.tame.sees ht.covers.numbered hready)

lemma expand_fresh_error {f : Fault} {s' : Store} (h : (expand limits budget active q).runOn s = (.error f, s')) :
    ∃ f', Flatten.code t.fresh limits budget active (.named q.name q.args q.site) q.start = .error f' ∧ f.Alike f' :=
  (expand_refines ht limits budget active hq).error s f s' (ready_of_reaches hs hactive) h ht.tame

/-- What a macro expands to in a program. -/
theorem expand_fresh_eq_ok_iff {e : Expansion} :
    ((expand limits budget active q).runOn s).1 = .ok e ↔
      ∃ c, Flatten.code t.fresh limits budget active (.named q.name q.args q.site) q.start = .ok c ∧
        Expands q.start e c := by
  refine ⟨fun h => expand_fresh_ok ht hs hactive hq (Prod.ext h rfl), ?_⟩
  rintro ⟨c, hc, he, -⟩
  cases hrun : ((expand limits budget active q).runOn s).1 with
  | ok e' =>
    obtain ⟨c', hc', he', -⟩ := expand_fresh_ok ht hs hactive hq (Prod.ext hrun rfl)
    rw [hc] at hc'
    cases hc'
    rw [he, he']
  | error f =>
    obtain ⟨f', hf', -⟩ := expand_fresh_error ht hs hactive hq (Prod.ext hrun rfl)
    rw [hc] at hf'
    cases hf'

end Outcomes
end Engine

/-! ## a program with a macro inside itself -/

namespace Sample

/-- `D` stands for its argument twice; `M` puts `D` into `D`, and measures that. -/
def twice : Sources := [⟨"twice".toList, "<f>#define macro D=takes(0)returns(0)\x7b<f><f>\x7d
#define macro M=takes(0)returns(0)\x7ba:D<D<a>>()__codesize(D<D<a>>)\x7d".toList⟩]

def program : Program := (Program.read twice).toOption.getD {}

lemma read_twice : Program.read twice = .ok program := eq_ok_of_toOption (by decide +kernel)

/-- `M` at the offset 16. -/
def main : Request := ⟨"M".toList, 16, [], none⟩

/-- A label, four references to it, each for the argument of a `D` inside a `D`, and the size of these. -/
def code : Bytes := [0x5b, 0x61, 0, 16, 0x61, 0, 16, 0x61, 0, 16, 0x61, 0, 16, 0x60, 12]

lemma bytes_main :
    ((Engine.expand {} 256 [] main).runOn program.macros.fresh).1.toOption.map Expansion.bytes = some code := by
  decide +kernel

end Sample
end MacroAsm
