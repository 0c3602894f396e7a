import MacroAsm.Proofs.CodeSize
import MacroAsm.Proofs.Evaluation
import MacroAsm.Proofs.Substitution

/-!
# Constants

A macro without parameters that pushes a number and does nothing else is a constant: called, it pushes the number, and
in an expression its name stands for it. Where the number is a size, the two are found in different ways. A call
measures from inside the frame of the constant, an expression from outside, where one frame more may be entered and one
less is forbidden.

* `Flatten.code_fewer`: what is flattened with some frames active is the same with fewer of them;
* `Flatten.code_constant`: the code of a constant, and the value of its macro outside its frame;
* `Engine.evaluate_refines`: the value of a text in a program;
* `evaluate_eq_pushed`: the value of a constant is the number that it pushes.
-/

namespace MacroAsm

/-- The operation pushes a number, be it written or measured. -/
def OpKind.isPush : OpKind → Bool
  | push .. => true
  | codeSize .. => true
  | _ => false

/-- A macro without parameters whose only operation pushes a number. -/
def Macro.IsConstant (m : Macro) : Prop := m.params = [] ∧ ∃ op, m.ops = [op] ∧ op.kind.isPush = true

/-! ## no parameters -/

/-- Where nothing is put in, a text stays as it is. -/
lemma Text.replaceWords_none (t : Text) : replaceWords (fun _ => none) t = t := by
  induction t using word_induction with
  | nil => rfl
  | other c t hc ih => rw [replaceWords_cons hc, ih]
  | word w r hw hr ih => rw [replaceWords_append hw hr, ih, Option.getD_none]

lemma Bindings.substitute_nil (args : List Text) (t : Text) : substitute ⟨[], args⟩ t = t := Text.replaceWords_none t

/-! ## fewer active frames -/

namespace Flatten

variable {known : Store} {limits : Limits}

/-- **Flattening with some frames active is flattening with fewer of them**, within more frames. -/
theorem code_fewer {budget budget' : Nat} (hle : budget ≤ budget') {active active' : List Frame}
    (hsub : active' ⊆ active) : Lifts (code known limits budget active) (code known limits budget' active') := by
  induction budget generalizing budget' active active' with
  | zero =>
    intro callee start c h
    exact absurd h code_zero_ne_ok
  | succ budget ih =>
    obtain ⟨budget', rfl⟩ : ∃ k, budget' = k + 1 := ⟨budget' - 1, by omega⟩
    have hless : budget ≤ budget' := by omega
    refine lifts_succ fun callee o ho => ?_
    cases callee with
    | named name args site =>
      obtain ⟨m, hm, harity, hcycle, rfl⟩ := opened_named_eq_ok_iff.1 ho
      have hcycle' : ¬ (limits.refuseCycles = true ∧ Frame.of name (args.flatMap Text.splitArguments) ∈ active') :=
        fun h => hcycle ⟨h.1, hsub h.2⟩
      refine ⟨_, opened_named_eq_ok_iff.2 ⟨m, hm, harity, hcycle', rfl⟩, rfl, rfl, ?_⟩
      exact ih hless (List.cons_subset_cons _ hsub)
    | inline op args =>
      obtain ⟨hargs, rfl⟩ := opened_inline_eq_ok_iff.1 ho
      exact ⟨_, opened_inline_eq_ok_iff.2 ⟨hargs, rfl⟩, rfl, rfl, ih hless hsub⟩

/-- The code of a constant is a push; what it pushes is the value of its operation outside its frame. -/
lemma code_constant {budget : Nat} {active : List Frame} {name : Text} {site : Option Origin} {start : Address}
    {c : Code} {m : Macro} (hm : known.find? name = some m) (hconst : m.IsConstant)
    (h : code known limits budget active (.named name [] site) start = .ok c) (here : Origin) :
    ∃ byte data o, c = .frame (.seq (.leaf (.push byte data) o) .empty) ∧ Opcode.pushWidth? byte = some data.length ∧
      constant (code known limits budget active) here m = .ok (Bytes.toNat data) := by
  obtain ⟨hparams, op, hops, hpush⟩ := hconst
  cases budget with
  | zero => exact absurd h code_zero_ne_ok
  | succ budget =>
    obtain ⟨o, body, ho, hbody, rfl, -⟩ := code_succ_eq_ok_iff.1 h
    obtain ⟨m', hm', -, -, rfl⟩ := opened_named_eq_ok_iff.1 ho
    obtain rfl : m = m' := Option.some.inj (hm.symm.trans hm')
    simp only [hops, hparams, List.flatMap_nil] at hbody
    obtain ⟨first, hfirst, hrest⟩ := ok_of_bind hbody
    cases hrest
    obtain ⟨kind, index, origin⟩ := op
    cases kind with
    | push byte data =>
      obtain ⟨hwidth, rfl⟩ := opCode_push rfl hfirst
      refine ⟨byte, data, origin, rfl, hwidth, ?_⟩
      rw [constant, hops]
    | codeSize callee args =>
      obtain ⟨d, byte, hd, hbyte, rfl⟩ := opCode_codeSize rfl hfirst
      refine ⟨byte, _, origin, rfl, Opcode.pushWidth?_of_pushOf? hbyte, ?_⟩
      -- the call measures inside the frame of the constant, the name stands for the size outside
      have hargs : args.map (Bindings.substitute ⟨[], []⟩) = args := List.map_id'' (Bindings.substitute_nil []) args
      have hinside : codeSize (code known limits budget (.of name [] :: active)) callee args origin =
          .ok (Numeral.wrapCount d.size) := by
        rw [codeSize, ← hargs, hd]
        rfl
      rw [constant, hops, Bytes.toNat_ofNat]
      exact codeSize_lift (code_fewer (Nat.le_succ budget) (List.subset_cons_self _ _)) hinside
    | opcode | labelDef | labelRef | tableStart | call | template => cases hpush

/-- The value of a declared name is that of its macro. -/
lemma eval_declared {inner : Inner} {name : Text} (hname : name.Declarable) {m : Macro}
    (hm : known.find? name = some m) (here : Origin) :
    (Arith.read (Text.compact name)).eval (atomValue known inner here) = constant inner here m := by
  have hne : name.isEmpty = false := List.isEmpty_eq_false_iff.2 (Text.isWord_iff.1 hname.word).1
  rw [Text.compact_of_isWord hname.word, Arith.read_of_isWord hname.word, Arith.eval, atomValue, hne,
    if_neg Bool.false_ne_true, hname.value?_eq_none]
  simp only [hm]

end Flatten

/-! ## evaluation in a program -/

namespace Engine

/-- What the flat side gives is given from every store. -/
lemma Refines.exists_ok {known : Store} {asked : Text → Prop} {active : List Frame} {α : Type} {x : Engine α}
    {y : Except Fault α} (h : Refines known asked active x y Eq) (hk : known.Numbered) (ht : Tame known asked)
    (hx : Grows x) {s : Store} (hs : Ready known active s) {a : α} (ha : y = .ok a) :
    ∃ s', x.runOn s = (.ok a, s') := by
  rcases hrun : x.runOn s with ⟨r, s'⟩
  cases r with
  | ok a' =>
    have hsees : Sees known asked s' := ht.sees hk (hs.reaches (hx.of_runOn hrun))
    obtain ⟨b, hb, rfl⟩ := h.ok s a' s' hs hrun hsees
    obtain rfl : a = a' := Except.ok.inj (ha.symm.trans hb)
    exact ⟨s', rfl⟩
  | error f =>
    obtain ⟨f', hf', -⟩ := h.error s f s' hs hrun ht
    rw [ha] at hf'
    cases hf'

lemma evaluate_grows (limits : Limits) (budget : Nat) (active : List Frame) (text : Text) (site : Origin) :
    Grows (evaluate (expand limits budget active) text site) :=
  congruence_grows.eval (expand limits budget active) (expand_grows limits budget active) site _

/-- **In a program, the value of a text depends on the declared macros alone.** -/
theorem evaluate_refines {t : MacroTable} (ht : t.Worded) (limits : Limits) (budget : Nat) (active : List Frame)
    (text : Text) (site : Origin) :
    Refines t.fresh (fun name => name.isPlain = true) active (evaluate (expand limits budget active) text site)
      ((Arith.read (Text.compact text)).eval
        (Flatten.atomValue t.fresh (Flatten.code t.fresh limits budget active) site)) Eq :=
  eval_refines ht.covers (expand_mirrors ht.covers limits budget active active (tracks_refl active))
    (Arith.all_isPlain_read _) site

end Engine

/-- **A constant means the same in code and in expressions.** In a program, in whatever state, if a macro without
parameters that only pushes a number expands at some offset, then its name has a value, and the expansion is one push
of that value. -/
theorem evaluate_eq_pushed {sources : Sources} {p : Program} (hp : Program.read sources = .ok p) {s : Store}
    (hs : p.macros.fresh.Reaches s) {limits : Limits} {budget : Nat} {active : List Frame}
    (hactive : ∀ f ∈ active, s.contains f.name.toList = true) {q : Request} (hargs : q.args = []) {m : Macro}
    (hm : p.macros.find? q.name = some m) (hconst : m.IsConstant) {e : Expansion} {s' : Store}
    (h : (Engine.expand limits budget active q).runOn s = (.ok e, s')) (site : Origin) :
    ∃ v byte data s'', (Engine.evaluate (Engine.expand limits budget active) q.name site).runOn s = (.ok v, s'') ∧
      e.bytes = byte :: data ∧ Opcode.pushWidth? byte = some data.length ∧ Bytes.toNat data = v := by
  have hwf := Program.read_wellFormed hp
  obtain ⟨hmem, hname⟩ := MacroTable.mem_of_find? hm
  have hdecl : q.name.Declarable := hname ▸ (hwf.macros m hmem).name
  obtain ⟨c, hc, rfl, -⟩ := Engine.expand_fresh_ok hwf.worded hs hactive (Text.isPlain_of_isWord hdecl.word) h
  rw [hargs] at hc
  have hfind : p.macros.fresh.find? q.name = some m := (MacroTable.find?_fresh _ _).trans hm
  obtain ⟨byte, data, o, rfl, hwidth, hvalue⟩ := Flatten.code_constant hfind hconst hc site
  obtain ⟨s'', heval⟩ := (Engine.evaluate_refines hwf.worded limits budget active q.name site).exists_ok
    hwf.worded.covers.numbered hwf.worded.tame (Engine.evaluate_grows limits budget active q.name site)
    (Engine.ready_of_reaches hs hactive) ((Flatten.eval_declared hdecl hfind site).trans hvalue)
  exact ⟨_, byte, data, s'', heval, List.append_nil (byte :: data), hwidth, rfl⟩

namespace Sample

/-- `S` at the offset 16, within as few frames as it takes. -/
def sizeRequest : Request := ⟨"S".toList, 16, [], none⟩

lemma isConstant_sizeMacro : sizeMacro.IsConstant := ⟨rfl, _, rfl, rfl⟩

end Sample

/-- `S` pushes the size of `B`, and so its name stands for four. -/
theorem evaluate_eq_pushed_size :
    Program.read Sample.sums = .ok Sample.sumsProgram ∧
      Sample.sumsProgram.macros.find? "S".toList = some Sample.sizeMacro ∧ Sample.sizeMacro.IsConstant ∧
      ∃ e s' v s'', (Engine.expand {} 3 [] Sample.sizeRequest).runOn Sample.sumsProgram.macros.fresh = (.ok e, s') ∧
        e.bytes = [0x60, 4] ∧
        (Engine.evaluate (Engine.expand {} 3 []) "S".toList Sample.sizeLine).runOn Sample.sumsProgram.macros.fresh =
          (.ok v, s'') ∧ v = 4 := by
  have hrun : ((Engine.expand {} 3 [] Sample.sizeRequest).runOn Sample.sumsProgram.macros.fresh).1.toOption.map
      Expansion.bytes = some [0x60, 4] := by
    decide +kernel
  obtain ⟨e, he, hbytes⟩ := exists_ok_of_map hrun
  obtain ⟨s', he⟩ := Engine.fst_eq_ok_iff.1 he
  have hm : Sample.sumsProgram.macros.find? "S".toList = some Sample.sizeMacro := by decide
  obtain ⟨v, byte, data, s'', heval, hpush, -, rfl⟩ := evaluate_eq_pushed Sample.read_sums .refl
    (fun f hf => absurd hf List.not_mem_nil) rfl hm Sample.isConstant_sizeMacro he Sample.sizeLine
  refine ⟨Sample.read_sums, hm, Sample.isConstant_sizeMacro, e, s', _, s'', he, hbytes, heval, ?_⟩
  obtain ⟨rfl, rfl⟩ := List.cons.inj (hbytes.symm.trans hpush)
  rfl

end MacroAsm
