import MacroAsm.Proofs.Congruence
import MacroAsm.Proofs.Unfold

/-!
# Frames in the state

Expansion hands the frames that are active on as an argument. They can also be kept in the state: a frame is pushed
when a macro is entered and popped when it is left, in success or failure, and their number is what the depth limit
bounds. Both come to the same, and the frames are always left as they were found.

* `Session`: a store and the frames that are active; `Session.expand`: expansion on it;
* `Session.Mimics active x y`: with these frames active, `x` does what `y` does, and leaves the frames;
* `Session.expand_mimics`: the two forms of expansion.
-/

namespace MacroAsm

/-- The macros known so far and the frames that are active, the newest first. -/
structure Session where
  store : Store
  active : List Frame := []
  deriving DecidableEq

/-- A computation on a session that may fail; the session outlives a failure. -/
abbrev SessionM := ExceptT Fault (StateM Session)

namespace Session

instance : MonadStateOf Store SessionM where
  get := ExceptT.mk fun σ => (.ok σ.store, σ)
  set s := ExceptT.mk fun σ => (.ok ⟨⟩, { σ with store := s })
  modifyGet f := ExceptT.mk fun σ => (.ok (f σ.store).1, { σ with store := (f σ.store).2 })

section Runs

variable {α β : Type}

/-- What a computation gives from a session, and the session that it leaves. -/
def runOn (x : SessionM α) (σ : Session) : Except Fault α × Session := x.run σ

/-- A computation inside one more frame, which is left in any case. -/
def within (f : Frame) (x : SessionM α) : SessionM α :=
  ExceptT.mk fun σ =>
    let (r, σ') := runOn x { σ with active := f :: σ.active }
    (r, { σ' with active := σ'.active.tail })

/-- The expansion of a macro. The limit on the number of frames is reached before `fuel` runs out. -/
def expand (limits : Limits) : Nat → Request → SessionM Expansion
  | 0, q => throw ⟨.tooDeep limits.maxDepth q.name, q.site⟩
  | fuel + 1, q => do
    let active := (← getThe Session).active
    let (m, args) ← Engine.enter limits active q
    if limits.maxDepth ≤ active.length then
      Engine.fail (.tooDeep limits.maxDepth q.name) (q.site.getD m.origin)
    else within (.of q.name args) (Engine.expandBody (expand limits fuel) m args q.start)

lemma runOn_bind (x : SessionM α) (f : α → SessionM β) (σ : Session) :
    runOn (x >>= f) σ = match runOn x σ with
      | (.ok a, σ') => runOn (f a) σ'
      | (.error e, σ') => (.error e, σ') := by
  show (match runOn x σ with | (r, σ') => ExceptT.bindCont f r σ') = _
  rcases runOn x σ with ⟨r, σ'⟩
  cases r <;> rfl

lemma runOn_within (f : Frame) (x : SessionM α) (s : Store) (active : List Frame) :
    runOn (within f x) ⟨s, active⟩ =
      ((runOn x ⟨s, f :: active⟩).1,
        ⟨(runOn x ⟨s, f :: active⟩).2.store, (runOn x ⟨s, f :: active⟩).2.active.tail⟩) := rfl

/-- With some frames active, `x` gives what `y` gives and does to the store what `y` does; the frames stay. -/
def Mimics (active : List Frame) (x : SessionM α) (y : Engine α) : Prop :=
  ∀ s, runOn x ⟨s, active⟩ = ((y.runOn s).1, ⟨(y.runOn s).2, active⟩)

end Runs

section Rules

variable {α β : Type} {active : List Frame}

lemma mimics_pure (a : α) : Mimics active (pure a) (pure a) := fun _ => rfl

lemma mimics_fail (cause : Cause) (o : Origin) :
    Mimics active (Engine.fail cause o : SessionM α) (Engine.fail cause o) := fun _ => rfl

lemma mimics_lift (x : Except Fault α) : Mimics active (liftM x : SessionM α) (liftM x) := fun _ => rfl

lemma mimics_get : Mimics active (get : SessionM Store) get := fun _ => rfl

lemma mimics_set (s : Store) : Mimics active (set s : SessionM PUnit) (set s) := fun _ => rfl

lemma Mimics.bind {x : SessionM α} {y : Engine α} {f : α → SessionM β} {g : α → Engine β} (hx : Mimics active x y)
    (hf : ∀ a, Mimics active (f a) (g a)) : Mimics active (x >>= f) (y >>= g) := by
  intro s
  rw [runOn_bind, hx s, Engine.runOn_bind]
  rcases y.runOn s with ⟨r, s'⟩
  cases r with
  | error e => rfl
  | ok a => exact hf a s'

end Rules

lemma addInline_mimics {active : List Frame} (arg : Text) (kind : OpKind) (op : Op) :
    Mimics active (Engine.addInline arg kind op) (Engine.addInline arg kind op) := by
  refine mimics_get.bind fun s => (mimics_set _).bind fun _ => ?_
  exact (mimics_lift _).bind fun s' => (mimics_set s').bind fun _ => mimics_pure _

lemma congruence_mimics (active : List Frame) :
    Engine.Congruence fun (α : Type) (x : SessionM α) (y : Engine α) => Mimics active x y where
  pure := mimics_pure
  fail := fun cause o _ => mimics_fail cause o
  lift := fun x _ => mimics_lift x
  get := mimics_get
  addInline := addInline_mimics
  bind := Mimics.bind

lemma expandBody_mimics {active : List Frame} {inner : Request → SessionM Expansion}
    {inner' : Request → Engine Expansion} (hi : ∀ q, Mimics active (inner q) (inner' q)) (m : Macro)
    (args : List Text) (start : Address) :
    Mimics active (Engine.expandBody inner m args start) (Engine.expandBody inner' m args start) :=
  ((congruence_mimics active).layout inner' hi _ start m.ops 0).bind fun _ => mimics_lift _

/-! ## frames -/

section Frames

variable {α β : Type} {active : List Frame}

/-- A frame is left as it was entered. -/
lemma Mimics.within {f : Frame} {x : SessionM α} {y : Engine α} (h : Mimics (f :: active) x y) :
    Mimics active (within f x) y := by
  intro s
  have hx : runOn x ⟨s, f :: active⟩ = ((y.runOn s).1, ⟨(y.runOn s).2, f :: active⟩) := h s
  rw [runOn_within, hx]
  rfl

/-- The frames that are read are those that are active. -/
lemma mimics_active {f : Session → SessionM β} {y : Engine β} (h : ∀ s, Mimics active (f ⟨s, active⟩) y) :
    Mimics active (getThe Session >>= f) y := by
  intro s
  exact h s s

end Frames

/-- **Frames in the state come to the same as frames handed on.** When as many frames may be entered as the limit
leaves, both forms of expansion give the same, and the frames are left as they were, also by a failure. -/
theorem expand_mimics (limits : Limits) (budget : Nat) : ∀ (active : List Frame) (q : Request),
    budget + active.length = limits.maxDepth →
      Mimics active (expand limits (budget + 1) q) (Engine.expand limits budget active q) := by
  induction budget with
  | zero =>
    intro active q hlen
    refine mimics_active fun s => ((congruence_mimics active).enter limits active q).bind fun x => ?_
    have hfull : limits.maxDepth ≤ active.length := by omega
    dsimp only
    rw [if_pos hfull]
    exact mimics_fail _ _
  | succ budget ih =>
    intro active q hlen
    refine mimics_active fun s => ((congruence_mimics active).enter limits active q).bind fun x => ?_
    have hroom : ¬ limits.maxDepth ≤ active.length := by omega
    dsimp only
    rw [if_neg hroom]
    refine (expandBody_mimics (fun q' => ih (.of q.name x.2 :: active) q' ?_) x.1 x.2 q.start).within
    rw [List.length_cons]
    omega

/-- From outside, with no frame active. -/
lemma expand_mimics_processor (limits : Limits) (q : Request) :
    Mimics [] (expand limits (limits.maxDepth + 1) q) (Processor.expand limits q) :=
  expand_mimics limits limits.maxDepth [] q rfl

end Session
end MacroAsm
