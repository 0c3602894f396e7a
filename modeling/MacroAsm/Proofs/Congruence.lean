import Mathlib.Tactic.Common
import MacroAsm.Engine

/-!
# What the operations of expansion keep

The operations of expansion are put together from a few: to give a value, to fail, to read the store, to make a macro
for a template argument, and to go on with a result. A relation between two ways of computing that holds of these is
kept by all the others. How the store grows, which faults there are and whether frames are left are instances.

* `Engine.Congruence R`: the relation `R` holds of the few operations and is kept by going on;
* `Engine.Congruence.layout`: then it is kept by laying out operations, provided that it holds of the macros inside.

None of the operations fails with a fault of the class of tables, so a congruence has to hold of other failures only.
-/

namespace MacroAsm
namespace Engine

/-- Not of the class of tables. -/
abbrev NotTable (f : Fault) : Prop := f.kind ≠ .table

lemma opcodeOf_not_table {t : Text} {cause : Cause} (h : StackOffset.opcodeOf t = .error cause) :
    cause.kind ≠ .table := by
  unfold StackOffset.opcodeOf at h
  split at h
  · unfold StackOffset.opcode at h
    split at h
    · cases h
      exact Kind.noConfusion
    · simp only at h
      split at h
      · cases h
      · cases h
        exact Kind.noConfusion
  · cases h
    exact Kind.noConfusion

lemma permit_not_table {limits : Limits} {s : Store} {active : List Frame} {q : Request} {f : Fault}
    (h : permit limits s active q = .error f) : NotTable f := by
  unfold permit at h
  split at h
  · cases h
    exact Kind.noConfusion
  · simp only at h
    split at h
    · cases h
      exact Kind.noConfusion
    · split at h
      · cases h
        exact Kind.noConfusion
      · cases h

section Congruence

variable {μ ν : Type → Type} [Monad μ] [MonadStateOf Store μ] [MonadExceptOf Fault μ] [MonadLiftT (Except Fault) μ]
  [Monad ν] [MonadStateOf Store ν] [MonadExceptOf Fault ν] [MonadLiftT (Except Fault) ν]

/-- A relation between two ways of computing that holds of the operations from which the others are put together. -/
structure Congruence (R : (α : Type) → μ α → ν α → Prop) : Prop where
  pure : ∀ {α : Type} (a : α), R α (pure a) (pure a)
  fail : ∀ {α : Type} (cause : Cause) (o : Origin), cause.kind ≠ .table → R α (fail cause o) (fail cause o)
  lift : ∀ {α : Type} (x : Except Fault α), (∀ f, x = .error f → NotTable f) → R α (liftM x) (liftM x)
  get : R Store get get
  addInline : ∀ (arg : Text) (kind : OpKind) (op : Op), R Text (addInline arg kind op) (addInline arg kind op)
  bind : ∀ {α β : Type} {x : μ α} {y : ν α} {f : α → μ β} {g : α → ν β},
    R α x y → (∀ a, R β (f a) (g a)) → R β (x >>= f) (y >>= g)

namespace Congruence

variable {R : (α : Type) → μ α → ν α → Prop} (C : Congruence R)

include C

lemma enter (limits : Limits) (active : List Frame) (q : Request) :
    R _ (Engine.enter limits active q) (Engine.enter limits active q) :=
  C.bind C.get fun _ => C.lift _ fun _ hf => permit_not_table hf

-- a relation that looks at one side only does not tell what the other is, so `inner'` is given
variable {inner : Request → μ Expansion} (inner' : Request → ν Expansion) (hi : ∀ q, R _ (inner q) (inner' q))

include hi

lemma codeSize (callee : Text) (args : List Text) (site : Origin) :
    R _ (Engine.codeSize inner callee args site) (Engine.codeSize inner' callee args site) :=
  C.bind (hi _) fun _ => C.pure _

lemma constant (site : Origin) (m : Macro) : R _ (Engine.constant inner site m) (Engine.constant inner' site m) := by
  unfold Engine.constant
  split
  · exact C.pure _
  · exact C.codeSize inner' hi _ _ _
  · exact C.fail _ _ Kind.noConfusion

lemma atomValue (site : Origin) (t : Text) :
    R _ (Engine.atomValue inner site t) (Engine.atomValue inner' site t) := by
  unfold Engine.atomValue
  split
  · exact C.fail _ _ Kind.noConfusion
  · split
    · exact C.pure _
    · refine C.bind C.get fun s => ?_
      split
      · exact C.constant inner' hi site _
      · exact C.fail _ _ Kind.noConfusion

lemma eval (site : Origin) (a : Arith) :
    R _ (a.eval (Engine.atomValue inner site)) (a.eval (Engine.atomValue inner' site)) := by
  induction a with
  | atom t => exact C.atomValue inner' hi site t
  | op sign left right ihl ihr => exact C.bind ihl fun _ => C.bind ihr fun _ => C.pure _

lemma argumentKind (arg : Text) (site : Origin) :
    R _ (Engine.argumentKind inner arg site) (Engine.argumentKind inner' arg site) := by
  unfold Engine.argumentKind
  split
  · refine C.bind (C.eval inner' hi site _) fun n => ?_
    split
    · exact C.pure _
    · exact C.fail _ _ Kind.noConfusion
  · split
    · split
      · exact C.pure _
      · next cause hc => exact C.fail _ _ (opcodeOf_not_table hc)
    · split
      · exact C.pure _
      · refine C.bind C.get fun s => ?_
        split
        · exact C.pure _
        · split
          · exact C.pure _
          · split
            · exact C.pure _
            · exact C.fail _ _ Kind.noConfusion

lemma resolveArgument (arg : Text) (op : Op) :
    R _ (Engine.resolveArgument inner arg op) (Engine.resolveArgument inner' arg op) := by
  refine C.bind (C.argumentKind inner' hi arg op.origin) fun kind => ?_
  cases kind with
  | some kind => exact C.addInline arg kind op
  | none => exact C.pure _

lemma layoutOp (b : Bindings) (start : Address) (op : Op) :
    R _ (Engine.layoutOp inner b start op) (Engine.layoutOp inner' b start op) := by
  unfold Engine.layoutOp
  cases op.kind with
  | push byte data =>
    dsimp only
    split
    · exact C.pure _
    · exact C.fail _ _ Kind.noConfusion
  | call callee args => exact hi _
  | template text => exact C.bind (C.resolveArgument inner' hi _ op) fun _ => hi _
  | codeSize callee args =>
    refine C.bind (C.codeSize inner' hi callee _ op.origin) fun n => ?_
    dsimp only
    split
    · exact C.pure _
    · exact C.fail _ _ Kind.noConfusion
  | _ => exact C.pure _

/-- **A congruence is kept by laying out operations.** -/
theorem layout (b : Bindings) (start : Address) (ops : List Op) (done : Nat) :
    R _ (Engine.layout inner b start done ops) (Engine.layout inner' b start done ops) := by
  induction ops generalizing done with
  | nil => exact C.pure _
  | cons op ops ih => exact C.bind (C.layoutOp inner' hi b _ op) fun _ => C.bind (ih _) fun _ => C.pure _

end Congruence
end Congruence
end Engine
end MacroAsm
