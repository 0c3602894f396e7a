import MacroAsm.Engine
import MacroAsm.Proofs.Resolve

/-!
# Expansion in two steps

Expanding a macro decides what its code is made of and where its labels are. The first does not depend on where the
macro stands: it gives a `Code`. The second is `Leaves.expansion`.

* `Engine.unfold`: the code of a macro within a number of further frames;
* `Engine.Follows start x y`: `x` gives the expansion at `start` of the code that `y` gives;
* `Engine.expand_follows`: expansion follows unfolding, so `Engine.expand_ok_iff` says when it succeeds and with what.
-/

namespace MacroAsm

/-- A result is seen to be one by something of what it holds. -/
lemma exists_ok_of_map {ε α β : Type} {x : Except ε α} {f : α → β} {b : β} (h : x.toOption.map f = some b) :
    ∃ a, x = .ok a ∧ f a = b := by
  cases x with
  | error e => cases h
  | ok a => exact ⟨a, rfl, Option.some.inj h⟩

namespace Code

/-- What fits in a frame fits in its body, where fewer references are resolved. -/
lemma fits_of_frame {start : Address} {body : Code} (h : Leaves.Fits start (frame body).leaves) :
    Leaves.Fits start body.leaves := by
  intro p hp t ht
  refine h _ (List.mem_map_of_mem hp) t ?_
  cases hl : p.leaf
  case labelRef label => rw [Placed.target?_within _ p hl, ht, Option.some_or]
  all_goals simp [Placed.target?, hl] at ht

/-- The code of two parts, moved: the first part, behind it the other. -/
lemma map_shift_leaves_seq (k : Nat) (a b : Code) : (seq a b).leaves.map (Placed.shift k) =
    a.leaves.map (Placed.shift k) ++ b.leaves.map (Placed.shift (k + a.size)) := by
  simp [leaves, Function.comp_def, Placed.shift_shift]

end Code

namespace Engine

/-! ## runs -/

section Runs

variable {α β : Type}

/-- What a computation gives from a store, and the store that it leaves. -/
def runOn (x : Engine α) (s : Store) : Except Fault α × Store := x.run s

@[simp] lemma runOn_pure (a : α) (s : Store) : (pure a : Engine α).runOn s = (.ok a, s) := rfl

@[simp] lemma runOn_fail (cause : Cause) (o : Origin) (s : Store) :
    (fail cause o : Engine α).runOn s = (.error (.located cause o), s) := rfl

@[simp] lemma runOn_lift (x : Except Fault α) (s : Store) : (liftM x : Engine α).runOn s = (x, s) := rfl

lemma runOn_bind (x : Engine α) (f : α → Engine β) (s : Store) :
    (x >>= f).runOn s = match x.runOn s with
      | (.ok a, s') => (f a).runOn s'
      | (.error e, s') => (.error e, s') := by
  show (match x.runOn s with | (r, s') => ExceptT.bindCont f r s') = _
  rcases x.runOn s with ⟨r, s'⟩
  cases r <;> rfl

/-- What a sequence of two computations gives is given by the second, from where the first leaves off. -/
theorem runOn_bind_ok {x : Engine α} {f : α → Engine β} {s s'' : Store} {b : β} :
    (x >>= f).runOn s = (.ok b, s'') ↔ ∃ a s', x.runOn s = (.ok a, s') ∧ (f a).runOn s' = (.ok b, s'') := by
  rw [runOn_bind]
  rcases x.runOn s with ⟨r, s'⟩
  cases r <;> simp

/-- A sequence of two computations fails where one of them does. -/
theorem runOn_bind_error {x : Engine α} {f : α → Engine β} {s s'' : Store} {e : Fault} :
    (x >>= f).runOn s = (.error e, s'') ↔
      x.runOn s = (.error e, s'') ∨ ∃ a s', x.runOn s = (.ok a, s') ∧ (f a).runOn s' = (.error e, s'') := by
  rw [runOn_bind]
  rcases x.runOn s with ⟨r, s'⟩
  cases r <;> simp

/-- A computation is seen to succeed by something of what it gives. -/
lemma exists_of_runOn {x : Engine α} {s : Store} {f : α → β} {b : β} (h : (x.runOn s).1.toOption.map f = some b) :
    ∃ a s', x.runOn s = (.ok a, s') ∧ f a = b := by
  obtain ⟨a, ha, hb⟩ := exists_ok_of_map h
  exact ⟨a, (x.runOn s).2, Prod.ext ha rfl, hb⟩

end Runs

/-! ## unfolding -/

/-- The code of one operation; `inner` expands the macros that are only measured or evaluated, `child` unfolds those
whose code goes in here. -/
def unfoldOp (inner : Request → Engine Expansion) (child : Text → List Text → Option Origin → Engine Code)
    (b : Bindings) (op : Op) : Engine Code :=
  match op.kind with
  | .opcode byte => return .leaf (.opcode byte) op.origin
  | .push byte data =>
    if Opcode.pushWidth? byte = some data.length then return .leaf (.push byte data) op.origin
    else fail (.pushMismatch byte data.length) op.origin
  | .labelDef label => return .leaf (.labelDef label) op.origin
  | .labelRef label => return .leaf (.labelRef label) op.origin
  | .tableStart table => return .leaf (.tableRef table) op.origin
  | .call callee args => child callee (args.map b.substitute) (some op.origin)
  | .template text => do
    let (target, args) := argumentTarget (b.substitute text)
    let name ← resolveArgument inner target op
    child name args (some op.origin)
  | .codeSize callee args => do
    let data := Bytes.ofNat (← codeSize inner callee (args.map b.substitute) op.origin)
    match Opcode.pushOf? data.length with
    | some byte => return .leaf (.push byte data) op.origin
    | none => fail (.codeSizeTooWide callee) op.origin

/-- The code of some operations, one behind the other. -/
def unfoldOps (inner : Request → Engine Expansion) (child : Text → List Text → Option Origin → Engine Code)
    (b : Bindings) : List Op → Engine Code
  | [] => return .empty
  | op :: ops => do
    let first ← unfoldOp inner child b op
    let rest ← unfoldOps inner child b ops
    return .seq first rest

/-- The code of a macro when `budget` more frames may be entered. -/
def unfold (limits : Limits) : Nat → List Frame → Text → List Text → Option Origin → Engine Code
  | 0, active, name, args, site => do
    let (m, _) ← enter limits active ⟨name, 0, args, site⟩
    fail (.tooDeep limits.maxDepth name) (site.getD m.origin)
  | budget + 1, active, name, args, site => do
    let (m, args) ← enter limits active ⟨name, 0, args, site⟩
    let inside := .of name args :: active
    let body ← unfoldOps (expand limits budget inside) (unfold limits budget inside) ⟨m.params, args⟩ m.ops
    return .frame body

/-- `x` gives the expansion at `start` of the code that `y` gives, provided that its offsets fit. -/
def Follows (start : Address) (x : Engine Expansion) (y : Engine Code) : Prop :=
  ∀ s e s', x.runOn s = (.ok e, s') ↔
    ∃ c, y.runOn s = (.ok c, s') ∧ Leaves.Fits start c.leaves ∧ e = Leaves.expansion start c.leaves

/-- The expansion of a leaf on its own. -/
def ofLeaf (start : Address) (o : Origin) : Leaf → Expansion
  | .opcode byte => .ofBytes [byte] o
  | .push byte data => .ofBytes (byte :: data) o
  | .labelDef label => .labelDef label start o
  | .labelRef label => .labelRef label o
  | .tableRef table => .tableRef table start o

lemma expansion_leaf (start : Address) (l : Leaf) (o : Origin) :
    Leaves.expansion start (Code.leaf l o).leaves = ofLeaf start o l := by
  cases l with
  | push byte data =>
    show ({ bytes := (byte :: data) ++ [], origins := List.replicate (data.length + 1) o ++ [] } : Expansion) = _
    rw [List.append_nil, List.append_nil]
    rfl
  | labelDef label => exact congrArg (Expansion.labelDef label · o) start.add_zero
  | tableRef table => exact congrArg (Expansion.tableRef table · o) start.add_zero
  | _ => rfl

lemma fits_leaf (start : Address) (l : Leaf) (o : Origin) : Leaves.Fits start (Code.leaf l o).leaves := by
  intro p hp t ht
  rw [Code.leaves, List.mem_singleton] at hp
  subst hp
  cases l <;> simp [Placed.target?] at ht

section Follows

variable {start : Address}

lemma follows_leaf (l : Leaf) (o : Origin) :
    Follows start (pure (ofLeaf start o l)) (pure (.leaf l o)) := by
  intro s e s'
  simp only [runOn_pure, Prod.mk.injEq, Except.ok.injEq]
  constructor
  · rintro ⟨rfl, rfl⟩
    exact ⟨_, ⟨rfl, rfl⟩, fits_leaf start l o, (expansion_leaf start l o).symm⟩
  · rintro ⟨c, ⟨rfl, rfl⟩, -, rfl⟩
    exact ⟨(expansion_leaf start l o).symm, rfl⟩

lemma follows_fail (cause : Cause) (o : Origin) : Follows start (fail cause o) (fail cause o) := by
  intro s e s'
  simp

lemma Follows.bind {α : Type} {x : Engine α} {f : α → Engine Expansion} {g : α → Engine Code}
    (h : ∀ a, Follows start (f a) (g a)) : Follows start (x >>= f) (x >>= g) := by
  intro s e s''
  simp only [runOn_bind_ok]
  constructor
  · rintro ⟨a, s', hx, hf⟩
    obtain ⟨c, hg, hfit, he⟩ := (h a s' e s'').1 hf
    exact ⟨c, ⟨a, s', hx, hg⟩, hfit, he⟩
  · rintro ⟨c, ⟨a, s', hx, hg⟩, hfit, he⟩
    exact ⟨a, s', hx, (h a s' e s'').2 ⟨c, hg, hfit, he⟩⟩

end Follows

/-! ## expansion follows unfolding -/

section Body

variable {inner : Request → Engine Expansion} {child : Text → List Text → Option Origin → Engine Code}
  (hc : ∀ q, Follows q.start (inner q) (child q.name q.args q.site))

include hc

theorem layoutOp_follows (b : Bindings) (start : Address) (op : Op) :
    Follows start (layoutOp inner b start op) (unfoldOp inner child b op) := by
  unfold layoutOp unfoldOp
  cases op.kind with
  | opcode byte => exact follows_leaf (.opcode byte) op.origin
  | push byte data =>
    simp only
    split
    · exact follows_leaf (.push byte data) op.origin
    · exact follows_fail _ _
  | labelDef label => exact follows_leaf (.labelDef label) op.origin
  | labelRef label => exact follows_leaf (.labelRef label) op.origin
  | tableStart table => exact follows_leaf (.tableRef table) op.origin
  | call callee args => exact hc ⟨callee, start, args.map b.substitute, some op.origin⟩
  | template text => exact Follows.bind fun name => hc ⟨name, start, _, some op.origin⟩
  | codeSize callee args =>
    refine Follows.bind fun size => ?_
    dsimp only
    cases Opcode.pushOf? (Bytes.ofNat size).length with
    | some byte => exact follows_leaf (.push byte (Bytes.ofNat size)) op.origin
    | none => exact follows_fail _ _

/-- Operations that stand `done` bytes behind the start of their frame. -/
theorem layout_ok_iff (b : Bindings) (start : Address) (ops : List Op) (done : Nat) (s : Store) (e : Expansion)
    (s' : Store) : (layout inner b start done ops).runOn s = (.ok e, s') ↔
      ∃ c, (unfoldOps inner child b ops).runOn s = (.ok c, s') ∧
        Leaves.Fits start (c.leaves.map (Placed.shift done)) ∧
        e = Leaves.expansion start (c.leaves.map (Placed.shift done)) := by
  induction ops generalizing done s e with
  | nil =>
    simp only [layout, unfoldOps, runOn_pure, Prod.mk.injEq, Except.ok.injEq]
    constructor
    · rintro ⟨rfl, rfl⟩
      exact ⟨.empty, ⟨rfl, rfl⟩, by simp [Code.leaves, Leaves.Fits], rfl⟩
    · rintro ⟨c, ⟨rfl, rfl⟩, -, rfl⟩
      exact ⟨rfl, rfl⟩
  | cons op ops ih =>
    simp only [layout, unfoldOps, runOn_bind_ok, runOn_pure, Prod.mk.injEq, Except.ok.injEq]
    constructor
    · rintro ⟨first, s₁, hfirst, rest, s₂, hrest, rfl, rfl⟩
      obtain ⟨a, ha, hfa, rfl⟩ := (layoutOp_follows hc b (start + done) op s first s₁).1 hfirst
      rw [Leaves.size_expansion, Code.size_leaves] at hrest
      obtain ⟨r, hr, hfr, rfl⟩ := (ih (done + a.size) s₁ rest).1 hrest
      refine ⟨.seq a r, ⟨a, s₁, ha, r, s₂, hr, rfl, rfl⟩, ?_, ?_⟩
      · rw [Code.map_shift_leaves_seq, Leaves.fits_append, Leaves.fits_map_shift]
        exact ⟨hfa, hfr⟩
      · rw [Code.map_shift_leaves_seq, Leaves.expansion_append, Leaves.shift_expansion]
    · rintro ⟨c, ⟨a, s₁, ha, r, s₂, hr, rfl, rfl⟩, hfit, rfl⟩
      rw [Code.map_shift_leaves_seq, Leaves.fits_append, Leaves.fits_map_shift] at hfit
      refine ⟨_, s₁, (layoutOp_follows hc b (start + done) op s _ s₁).2 ⟨a, ha, hfit.1, rfl⟩,
        Leaves.expansion start (r.leaves.map (Placed.shift (done + a.size))), s₂, ?_, ?_, rfl⟩
      · rw [Leaves.size_expansion, Code.size_leaves]
        exact (ih (done + a.size) s₁ _).2 ⟨r, hr, hfit.2, rfl⟩
      · rw [Code.map_shift_leaves_seq, Leaves.expansion_append, Leaves.shift_expansion]

/-- A body that has been laid out is the expansion of its code. -/
lemma layout_zero_ok_iff (b : Bindings) (start : Address) (ops : List Op) (s : Store) (e : Expansion) (s' : Store) :
    (layout inner b start 0 ops).runOn s = (.ok e, s') ↔
      ∃ c, (unfoldOps inner child b ops).runOn s = (.ok c, s') ∧ Leaves.Fits start c.leaves ∧
        e = Leaves.expansion start c.leaves := by
  have hzero : ∀ L : List Placed, L.map (Placed.shift 0) = L := by
    intro L
    simp [funext Placed.shift_zero]
  simp only [layout_ok_iff hc, hzero]

theorem expandBody_follows (m : Macro) (args : List Text) (start : Address) :
    Follows start (expandBody inner m args start)
      (unfoldOps inner child ⟨m.params, args⟩ m.ops >>= fun body => pure (.frame body)) := by
  intro s e s''
  simp only [expandBody, runOn_bind_ok, runOn_pure, runOn_lift, Prod.mk.injEq, Except.ok.injEq,
    layout_zero_ok_iff hc]
  constructor
  · rintro ⟨laid, s', ⟨body, hbody, hfit, rfl⟩, hres, rfl⟩
    rcases Code.resolve_cases body hfit with ⟨hf, hok⟩ | ⟨-, v, o, -, -, herr⟩
    · rw [hok] at hres
      exact ⟨.frame body, ⟨body, s', hbody, rfl, rfl⟩, hf, (Except.ok.inj hres).symm⟩
    · rw [herr] at hres
      cases hres
  · rintro ⟨c, ⟨body, s', hbody, rfl, rfl⟩, hfit, rfl⟩
    have hin : Leaves.Fits start body.leaves := Code.fits_of_frame hfit
    rcases Code.resolve_cases body hin with ⟨-, hok⟩ | ⟨hf, -⟩
    · exact ⟨_, s', ⟨body, hbody, hin, rfl⟩, hok, rfl⟩
    · exact absurd hfit hf

end Body

/-- **Expansion follows unfolding**, within any number of frames. -/
theorem expand_follows (limits : Limits) (budget : Nat) : ∀ (active : List Frame) (q : Request),
    Follows q.start (expand limits budget active q) (unfold limits budget active q.name q.args q.site) := by
  induction budget with
  | zero =>
    intro active q
    exact Follows.bind fun _ => follows_fail _ _
  | succ budget ih =>
    intro active q
    exact Follows.bind fun x => expandBody_follows (ih _) x.1 x.2 q.start

/-- **What an expansion is.** Expanding a macro gives the expansion, at the offset asked for, of the code that the
macro unfolds to, and succeeds exactly when the macro unfolds and its label offsets fit two bytes. -/
theorem expand_ok_iff {limits : Limits} {budget : Nat} {active : List Frame} {q : Request} {s s' : Store}
    {e : Expansion} : (expand limits budget active q).runOn s = (.ok e, s') ↔
      ∃ c, (unfold limits budget active q.name q.args q.site).runOn s = (.ok c, s') ∧
        Leaves.Fits q.start c.leaves ∧ e = Leaves.expansion q.start c.leaves :=
  expand_follows limits budget active q s e s'

end Engine
end MacroAsm
