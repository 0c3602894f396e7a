import MacroAsm.Proofs.Faults
import MacroAsm.Proofs.History
import MacroAsm.Proofs.Literals

/-!
# The failures of a program

Expansion checks more than a program that has been read can get wrong. A push always carries as many bytes as its opcode
says, a literal always fits a push, and a macro made for a template argument always has a new name.

* `Cause.Expected`: the causes that are left;
* `Engine.Meets I P x Q`: from a store that satisfies `I`, `x` leads to one that does, fails only as `P` says and gives
  only results as `Q` says;
* `Engine.Sane t s`: what is true of the stores of a program;
* `Engine.expand_meets`: what expansion keeps, and how it fails;
* `expand_fails_expected`: for a program that has been read, with anything expanded before.
-/

namespace MacroAsm

/-- The push carries as many bytes as its opcode says, if it is a push. -/
def OpKind.Fits (k : OpKind) : Prop := ∀ byte data, k = .push byte data → Opcode.pushWidth? byte = some data.length

lemma OpKind.fits_of_push? {data : Bytes} {k : OpKind} (h : push? data = some k) : k.Fits := by
  obtain ⟨byte, hbyte, rfl⟩ := Option.map_eq_some_iff.1 h
  intro byte' data' heq
  cases heq
  exact Opcode.pushWidth?_of_pushOf? hbyte

lemma Macro.WellFormed.fits {m : Macro} (hm : m.WellFormed) : ∀ op ∈ m.ops, op.kind.Fits := by
  intro op hop byte data hkind
  exact Opcode.pushWidth?_of_pushOf? (Opcode.pushOf?_eq_some_iff.2 (hm.push op hop byte data hkind))

/-- The causes for which the expansion of a program can fail: a macro that is unknown, is given another number of
arguments, contains itself or is nested too deep; a template argument or literal that cannot be read; a place in the
stack that is out of reach; an offset that takes more than two bytes. -/
def Cause.Expected : Cause → Prop
  | unknownMacro _ | argumentCount .. | cycle _ | tooDeep .. => True
  | missingOperand _ | notConstant _ | unreadableLiteral _ | unresolvedArgument _ => True
  | stackPosition .. => True
  | offsetTooLarge value => 0xffff < value
  | _ => False

def Fault.Expected (f : Fault) : Prop := f.cause.Expected

namespace Engine

/-! ## computations with an invariant -/

/-- From a store that satisfies `I`, a computation leads to one that does, in success or failure; it fails only with
faults that satisfy `P` and succeeds only with results that satisfy `Q`. -/
structure Meets {α : Type} (I : Store → Prop) (P : Fault → Prop) (x : Engine α) (Q : α → Prop) : Prop where
  keeps : ∀ s, I s → I (x.runOn s).2
  fails : ∀ s f s', I s → x.runOn s = (.error f, s') → P f
  gives : ∀ s a s', I s → x.runOn s = (.ok a, s') → Q a

section Meets

variable {α β : Type} {I : Store → Prop} {P : Fault → Prop} {Q : α → Prop}

lemma meets_pure {a : α} (h : Q a) : Meets I P (pure a : Engine α) Q where
  keeps := fun _ hs => hs
  fails := fun _ _ _ _ h => nomatch h
  gives := by
    intro s b s' _ hrun
    cases hrun
    exact h

lemma meets_fail {cause : Cause} {o : Origin} (h : P (.located cause o)) : Meets I P (fail cause o : Engine α) Q where
  keeps := fun _ hs => hs
  fails := by
    intro s f s' _ hrun
    cases hrun
    exact h
  gives := fun _ _ _ _ h => nomatch h

lemma meets_lift {x : Except Fault α} (hf : ∀ f, x = .error f → P f) (hx : ∀ a, x = .ok a → Q a) :
    Meets I P (liftM x : Engine α) Q where
  keeps := fun _ hs => hs
  fails := fun _ f _ _ hrun => hf f (Prod.mk.inj hrun).1
  gives := fun _ a _ _ hrun => hx a (Prod.mk.inj hrun).1

lemma meets_get : Meets I P (get : Engine Store) I where
  keeps := fun _ hs => hs
  fails := fun _ _ _ _ h => nomatch h
  gives := by
    intro s a s' hs hrun
    cases hrun
    exact hs

lemma Meets.bind {R : β → Prop} {x : Engine α} {f : α → Engine β} (hx : Meets I P x Q)
    (hf : ∀ a, Q a → Meets I P (f a) R) : Meets I P (x >>= f) R where
  keeps := by
    intro s hs
    have hmid := hx.keeps s hs
    have hgives := hx.gives s
    rw [runOn_bind]
    cases hrun : x.runOn s with
    | mk r s₁ =>
      rw [hrun] at hmid hgives
      cases r with
      | error e => exact hmid
      | ok a => exact (hf a (hgives a s₁ hs rfl)).keeps s₁ hmid
  fails := by
    intro s e s' hs hrun
    rcases runOn_bind_error.1 hrun with hrun | ⟨a, s₁, hrun₁, hrun₂⟩
    · exact hx.fails s e s' hs hrun
    · have hmid : I s₁ := by
        have := hx.keeps s hs
        rwa [hrun₁] at this
      exact (hf a (hx.gives s a s₁ hs hrun₁)).fails s₁ e s' hmid hrun₂
  gives := by
    intro s b s' hs hrun
    obtain ⟨a, s₁, hrun₁, hrun₂⟩ := runOn_bind_ok.1 hrun
    have hmid : I s₁ := by
      have := hx.keeps s hs
      rwa [hrun₁] at this
    exact (hf a (hx.gives s a s₁ hs hrun₁)).gives s₁ b s' hmid hrun₂

lemma Meets.imp {Q' : α → Prop} {x : Engine α} (hx : Meets I P x Q) (h : ∀ a, Q a → Q' a) : Meets I P x Q' where
  keeps := hx.keeps
  fails := hx.fails
  gives := fun s a s' hs hrun => h a (hx.gives s a s' hs hrun)

end Meets

/-! ## the stores of a program -/

/-- The stores that the macros `t` can lead to: the macros made for template arguments have pushes that fit, too. -/
structure Sane (t : MacroTable) (s : Store) : Prop where
  reaches : t.fresh.Reaches s
  inlines : ∀ m ∈ s.inlines, ∀ op ∈ m.ops, op.kind.Fits

lemma sane_fresh (t : MacroTable) : Sane t t.fresh := ⟨.refl, fun _ hm => nomatch hm⟩

/-- The macros of a program as far as expansion is concerned. -/
structure Fitting (t : MacroTable) : Prop where
  worded : t.Worded
  fits : ∀ m ∈ t.macros, ∀ op ∈ m.ops, op.kind.Fits

section Program

variable {t : MacroTable} {limits : Limits}

/-- Whatever macro is found in a store of a program, its pushes fit. -/
lemma Sane.fits (ht : Fitting t) {s : Store} (hs : Sane t s) {name : Text} {m : Macro} (h : s.find? name = some m) :
    ∀ op ∈ m.ops, op.kind.Fits := by
  rw [Store.find?_eq, hs.reaches.macros] at h
  rcases Option.or_eq_some_iff.1 h with h | ⟨-, h⟩
  · exact ht.fits m (MacroTable.mem_of_find? h).1
  · exact hs.inlines m (List.mem_of_find?_eq_some h)

lemma addInline_meets (ht : Fitting t) {arg : Text} {kind : OpKind} (hkind : kind.Fits) (op : Op) :
    Meets (Sane t) Fault.Expected (addInline arg kind op : Engine Text) fun _ => True := by
  have hrun : ∀ s, Sane t s → (addInline arg kind op : Engine Text).runOn s =
      (.ok (inlineName arg s.inlineCount), s.withInline arg kind op) := by
    intro s hs
    have hnew : s.contains (inlineName arg s.inlineCount) = false := by
      rw [((Store.numbered_declared t).reaches hs.reaches).contains_inlineName, hs.reaches.macros, MacroTable.contains,
        ht.worded.find?_inlineName]
      rfl
    rw [runOn_addInline, hnew]
    rfl
  refine ⟨fun s hs => ⟨hs.reaches.tail ⟨arg, kind, op, rfl⟩, ?_⟩, fun s f s' hs h => ?_, fun _ _ _ _ _ => trivial⟩
  · rw [hrun s hs]
    intro m hm o ho
    rcases List.mem_cons.1 hm with rfl | hm
    · rw [List.mem_singleton.1 ho]
      exact hkind
    · exact hs.inlines m hm o ho
  · rw [hrun s hs] at h
    cases h

lemma enter_meets (ht : Fitting t) (active : List Frame) (q : Request) :
    Meets (Sane t) Fault.Expected (enter limits active q : Engine (Macro × List Text))
      fun x => ∀ op ∈ x.1.ops, op.kind.Fits := by
  refine meets_get.bind fun s hs => meets_lift (fun f hf => ?_) fun x hx => ?_
  · unfold permit at hf
    split at hf
    · cases hf
      trivial
    · simp only at hf
      split at hf
      · cases hf
        trivial
      · split at hf
        · cases hf
          trivial
        · cases hf
  · unfold permit at hx
    split at hx
    · cases hx
    · next m hm =>
      simp only at hx
      split at hx
      · cases hx
      · split at hx
        · cases hx
        · cases hx
          exact hs.fits ht hm

/-! ## operations -/

section Inner

variable (ht : Fitting t) {budget : Nat} {active : List Frame}
  (hi : ∀ q, Meets (Sane t) Fault.Expected (expand limits budget active q) fun _ => True)

include hi

/-- A size is a machine word. -/
lemma codeSize_meets (callee : Text) (args : List Text) (site : Origin) :
    Meets (Sane t) Fault.Expected (codeSize (expand limits budget active) callee args site) (· < Word.modulus) :=
  (hi _).bind fun e _ => meets_pure (Numeral.wrapCount_lt_modulus e.size)

lemma constant_meets (site : Origin) (m : Macro) :
    Meets (Sane t) Fault.Expected (constant (expand limits budget active) site m) fun _ => True := by
  unfold constant
  split
  · exact meets_pure trivial
  · exact (codeSize_meets hi _ _ _).imp fun _ _ => trivial
  · exact meets_fail trivial

lemma atomValue_meets (site : Origin) (a : Text) :
    Meets (Sane t) Fault.Expected (atomValue (expand limits budget active) site a)
      fun n => (Arith.atom a).Bounded → n < Word.modulus := by
  unfold atomValue
  split
  · exact meets_fail trivial
  · split
    · exact meets_pure fun _ => Word.wrap_lt _
    · next hnone =>
      have hbound : ∀ n : Nat, (Arith.atom a).Bounded → n < Word.modulus := by
        intro n hb
        have hsome : (Numeral.value? a).isSome = true := hb
        rw [hnone] at hsome
        cases hsome
      refine meets_get.bind fun s _ => ?_
      split
      · exact (constant_meets hi site _).imp fun n _ => hbound n
      · exact meets_fail trivial

/-- The value of a bounded expression is a machine word. -/
lemma eval_meets (site : Origin) (a : Arith) :
    Meets (Sane t) Fault.Expected (a.eval (atomValue (expand limits budget active) site))
      fun n => a.Bounded → n < Word.modulus := by
  induction a with
  | atom a => exact atomValue_meets hi site a
  | op sign left right ihl ihr =>
    exact ihl.bind fun x _ => ihr.bind fun y _ => meets_pure fun _ => sign.apply_lt x y

lemma argumentKind_meets (arg : Text) (site : Origin) :
    Meets (Sane t) Fault.Expected (argumentKind (expand limits budget active) arg site)
      fun kind? => ∀ kind, kind? = some kind → kind.Fits := by
  have hother : ∀ {k : OpKind}, (∀ byte data, k ≠ .push byte data) →
      Meets (Sane t) Fault.Expected (pure (some k) : Engine (Option OpKind))
        fun kind? => ∀ kind, kind? = some kind → kind.Fits := by
    intro k hk
    refine meets_pure fun kind heq byte data hpush => ?_
    cases heq
    exact absurd hpush (hk byte data)
  unfold argumentKind
  split
  · next hliteral =>
    -- a literal has the value of a machine word, so there is a push for it
    refine (eval_meets hi site _).bind fun n hn => ?_
    have hsmall := hn (Arith.bounded_of_isLiteral hliteral)
    split
    · next kind hkind =>
      refine meets_pure fun kind' heq => ?_
      cases heq
      exact OpKind.fits_of_push? hkind
    · next hnone =>
      have := OpKind.pushValue?_eq_none_iff.1 hnone
      omega
  · split
    · next hoffset =>
      split
      · exact hother fun _ _ => nofun
      · next cause hcause =>
        refine meets_fail ?_
        unfold StackOffset.opcodeOf at hcause
        split at hcause
        · rw [StackOffset.opcode_eq_error hcause]
          trivial
        · next hnone =>
          rw [hnone] at hoffset
          cases hoffset
    · split
      · exact hother fun _ _ => nofun
      · refine meets_get.bind fun s _ => ?_
        split
        · exact meets_pure fun kind heq => nomatch heq
        · split
          · exact hother fun _ _ => nofun
          · split
            · exact hother fun _ _ => nofun
            · exact meets_fail trivial

include ht

lemma resolveArgument_meets (arg : Text) (op : Op) :
    Meets (Sane t) Fault.Expected (resolveArgument (expand limits budget active) arg op) fun _ => True := by
  refine (argumentKind_meets hi arg op.origin).bind fun kind? hkind => ?_
  cases kind? with
  | some kind => exact addInline_meets ht (hkind kind rfl) op
  | none => exact meets_pure trivial

lemma layoutOp_meets (b : Bindings) (start : Address) {op : Op} (hop : op.kind.Fits) :
    Meets (Sane t) Fault.Expected (layoutOp (expand limits budget active) b start op) fun _ => True := by
  unfold layoutOp
  cases hkind : op.kind with
  | push byte data =>
    dsimp only
    rw [if_pos (hop byte data hkind)]
    exact meets_pure trivial
  | call callee args => exact hi _
  | template text => exact (resolveArgument_meets ht hi _ op).bind fun _ _ => hi _
  | codeSize callee args =>
    refine (codeSize_meets hi callee _ op.origin).bind fun n hn => ?_
    dsimp only
    split
    · exact meets_pure trivial
    · next hnone =>
      have hwide := OpKind.pushValue?_eq_none_iff.1 (show OpKind.pushValue? n = none by
        rw [OpKind.pushValue?, OpKind.push?, hnone]
        rfl)
      omega
  | opcode | labelDef | labelRef | tableStart => exact meets_pure trivial

lemma layout_meets (b : Bindings) (start : Address) {ops : List Op} (hops : ∀ op ∈ ops, op.kind.Fits) (done : Nat) :
    Meets (Sane t) Fault.Expected (layout (expand limits budget active) b start done ops) fun _ => True := by
  induction ops generalizing done with
  | nil => exact meets_pure trivial
  | cons op ops ih =>
    refine (layoutOp_meets ht hi b _ (hops op List.mem_cons_self)).bind fun first _ => ?_
    exact (ih (fun o ho => hops o (List.mem_cons_of_mem _ ho)) _).bind fun rest _ => meets_pure trivial

/-- The references of a body are written into placeholders that are open, so only their offsets can be refused. -/
lemma expandBody_meets {m : Macro} (hm : ∀ op ∈ m.ops, op.kind.Fits) (args : List Text) (start : Address) :
    Meets (Sane t) Fault.Expected (expandBody (expand limits budget active) m args start) fun _ => True := by
  have hlayout := layout_meets ht hi ⟨m.params, args⟩ start hm 0
  have hlaid : Meets (Sane t) Fault.Expected (layout (expand limits budget active) ⟨m.params, args⟩ start 0 m.ops)
      fun laid => ∃ body : Code, Leaves.Fits start body.leaves ∧ laid = Leaves.expansion start body.leaves := by
    refine ⟨hlayout.keeps, hlayout.fails, fun s laid s₁ _ hrun => ?_⟩
    obtain ⟨body, -, hfit, heq⟩ :=
      (layout_zero_ok_iff (expand_follows limits budget active) _ start m.ops s laid s₁).1 hrun
    exact ⟨body, hfit, heq⟩
  refine hlaid.bind fun laid hbody => meets_lift (fun f hf => ?_) fun _ _ => trivial
  obtain ⟨body, hfit, rfl⟩ := hbody
  rcases Code.resolve_cases body hfit with ⟨-, hok⟩ | ⟨-, v, o, hlarge, -, herr⟩
  · rw [hok] at hf
    cases hf
  · rw [herr] at hf
    cases hf
    exact hlarge

end Inner

/-- **How the expansion of a program fails**, and that the store stays one of the program. -/
theorem expand_meets (ht : Fitting t) (budget : Nat) : ∀ (active : List Frame) (q : Request),
    Meets (Sane t) Fault.Expected (expand limits budget active q) fun _ => True := by
  induction budget with
  | zero =>
    intro active q
    exact (enter_meets ht active q).bind fun _ _ => meets_fail trivial
  | succ budget ih =>
    intro active q
    exact (enter_meets ht active q).bind fun x hx => expandBody_meets ht (ih _) hx x.2 q.start

/-! ## histories -/

lemma Sane.perform (ht : Fitting t) {s : Store} (hs : Sane t s) (op : Operation) : Sane t (s.perform limits op) := by
  have hi : ∀ q, Meets (Sane t) Fault.Expected (expand limits limits.maxDepth [] q) fun _ => True :=
    expand_meets ht limits.maxDepth []
  cases op with
  | expand q => exact (hi q).keeps s hs
  | process root start =>
    rw [Store.perform, Processor.process_store]
    exact (hi _).keeps s hs
  | codeSize callee args site => exact (codeSize_meets hi callee args site).keeps s hs
  | evaluate text site => exact (eval_meets hi site _).keeps s hs

lemma Sane.foldl_perform (ht : Fitting t) (history : List Operation) {s : Store} (hs : Sane t s) :
    Sane t (history.foldl (Store.perform limits) s) := by
  induction history generalizing s with
  | nil => exact hs
  | cons op history ih => exact ih (hs.perform ht op)

end Program

lemma fitting_of_wellFormed {p : Program} (hp : p.WellFormed) : Fitting p.macros where
  worded := hp.worded
  fits := fun m hm => (hp.macros m hm).fits

end Engine

/-- **The checks of expansion that a program never fails.** In a program that has been read, pushes carry one to 32
bytes as their opcodes say, the labels of a body are different, parameters are words, and what is declared has a proper
name. Whatever has been expanded before, within whatever limits, an expansion fails for an expected cause only. -/
theorem expand_fails_expected {sources : Sources} {p : Program} (h : Program.read sources = .ok p) :
    p.WellFormed ∧
      ∀ (past limits : Limits) (history : List Operation) (budget : Nat) (active : List Frame) (q : Request)
        (f : Fault),
        ((Engine.expand limits budget active q).runOn (history.foldl (Store.perform past) p.macros.fresh)).1 =
          .error f → f.cause.Expected := by
  have hp := Program.read_wellFormed h
  refine ⟨hp, fun past limits history budget active q f hf => ?_⟩
  have hsane : Engine.Sane p.macros (history.foldl (Store.perform past) p.macros.fresh) :=
    (Engine.sane_fresh p.macros).foldl_perform (Engine.fitting_of_wellFormed hp) history
  exact (Engine.expand_meets (Engine.fitting_of_wellFormed hp) budget active q).fails _ f _ hsane (Prod.ext hf rfl)

/-- The stack has no place before its first, so `D` with such an argument fails, after other failures. -/
theorem expand_fails_expected_twice :
    Program.read Sample.twice = .ok Sample.program ∧ Sample.program.WellFormed ∧
      ∃ f, ((Engine.expand {} 256 [] ⟨"D".toList, 16, ["dup1 - 9".toList], none⟩).runOn
          (Sample.history.foldl (Store.perform {}) Sample.program.macros.fresh)).1 = .error f ∧ f.cause.Expected := by
  obtain ⟨hwf, hfails⟩ := expand_fails_expected Sample.read_twice
  refine ⟨Sample.read_twice, hwf, ?_⟩
  have hnone : ((Engine.expand {} 256 [] ⟨"D".toList, 16, ["dup1 - 9".toList], none⟩).runOn
      (Sample.history.foldl (Store.perform {}) Sample.program.macros.fresh)).1.toOption.isNone = true := by
    decide +kernel
  cases hrun : ((Engine.expand {} 256 [] ⟨"D".toList, 16, ["dup1 - 9".toList], none⟩).runOn
      (Sample.history.foldl (Store.perform {}) Sample.program.macros.fresh)).1 with
  | ok e =>
    rw [hrun] at hnone
    cases hnone
  | error f => exact ⟨f, rfl, hfails {} {} Sample.history 256 [] _ f hrun⟩

end MacroAsm
