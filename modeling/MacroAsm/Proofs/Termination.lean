import Mathlib.Logic.Relation
import MacroAsm.Program
import MacroAsm.Proofs.Congruence
import MacroAsm.Proofs.Grammar
import MacroAsm.Proofs.Unfold

/-!
# Expansion ends

Expanding a macro lays out its operations, an operation may ask for the value of a text, and both may expand further
macros. Here the three call each other as they come, and nothing but the depth limit stops them: run with calls nested
in each other up to a given depth, they give nothing where that depth does not do. All calls are recorded with their
callers. The frames that are active bound the expansions inside each other, and between two of them the operations still
to come get fewer or the text gets shorter. So some depth always does, and the outcome is that of expansion within a
budget.

* `Call`: a call of one of the three; `Descends limits a b`: what a call `a` may call;
* `Text.operation?`, `Arith.read_of_splitOutside`: a text is read from the operands of its loosest operator;
* `Tracer`: a computation that records calls and may not come to an end; `Tracer.expand`: expansion by calls;
* `Ends limits x y`: at some depth of calls `x` ends as `y` does, and all calls on the way descend;
* `expand_ends`: expansion, sizes and values end from every store.
-/

namespace MacroAsm

/-! ## calls -/

/-- A call, with the frames that are active. -/
inductive Call where
  /-- whoever asks first -/
  | outside
  /-- the expansion of a macro -/
  | expand (active : List Frame) (q : Request)
  /-- the operations of a macro that are still to be laid out -/
  | ops (active : List Frame) (ops : List Op)
  /-- the value of a text -/
  | text (active : List Frame) (t : Text)

/-- The frames that are active. -/
def Call.active : Call → List Frame
  | outside => []
  | expand active _ | ops active _ | text active _ => active

/-- What a call may call. Only the expansion of a macro enters a frame, and only where the limit leaves one; the rest of
some operations has one operation less, and a text leads to shorter texts. -/
inductive Descends (limits : Limits) : Call → Call → Prop
  | ask (q : Request) : Descends limits .outside (.expand [] q)
  | evaluate (t : Text) : Descends limits .outside (.text [] t)
  | enter {active : List Frame} (q : Request) (f : Frame) (ops : List Op) (h : active.length < limits.maxDepth) :
    Descends limits (.expand active q) (.ops (f :: active) ops)
  | rest (active : List Frame) (op : Op) (ops : List Op) : Descends limits (.ops active (op :: ops)) (.ops active ops)
  | reenter (active : List Frame) (op : Op) (ops : List Op) (q : Request) :
    Descends limits (.ops active (op :: ops)) (.expand active q)
  | argument (active : List Frame) (op : Op) (ops : List Op) (t : Text) :
    Descends limits (.ops active (op :: ops)) (.text active t)
  | operand (active : List Frame) {t u : Text} (h : u.length < t.length) :
    Descends limits (.text active t) (.text active u)
  | size (active : List Frame) (t : Text) (q : Request) : Descends limits (.text active t) (.expand active q)

namespace Call

/-- Twice the frames that the limit leaves, one more for a call inside a frame. -/
def level (limits : Limits) : Call → Nat
  | outside => 2 * limits.maxDepth + 2
  | expand active _ => 2 * (limits.maxDepth - active.length)
  | ops active _ | text active _ => 2 * (limits.maxDepth - active.length) + 1

/-- Operations come before the texts that they ask for. -/
def stage : Call → Nat
  | ops .. => 1
  | _ => 0

/-- What is still to be gone through. -/
def size : Call → Nat
  | ops _ rest => rest.length
  | text _ t => t.length
  | _ => 0

/-- Calls are ordered by level, then by stage, then by size. -/
def rank (limits : Limits) (c : Call) : Nat × Nat × Nat := (c.level limits, c.stage, c.size)

/-- A call of lower rank. -/
def Below (limits : Limits) (b a : Call) : Prop :=
  Prod.Lex (· < ·) (Prod.Lex (· < ·) (· < ·)) (b.rank limits) (a.rank limits)

end Call

lemma Descends.below {limits : Limits} {a b : Call} (h : Descends limits a b) : b.Below limits a := by
  simp only [Call.Below, Call.rank, Prod.lex_def]
  cases h with
  | ask | evaluate =>
    left
    simp only [Call.level, List.length_nil]
    omega
  | enter q f ops h =>
    left
    simp only [Call.level, List.length_cons]
    omega
  | rest => simp [Call.level, Call.stage, Call.size]
  | reenter | size =>
    left
    simp only [Call.level]
    omega
  | argument => simp [Call.level, Call.stage]
  | operand active h => simp [Call.level, Call.stage, Call.size, h]

/-- No chain of calls goes on for ever. -/
lemma wellFounded_descends (limits : Limits) : WellFounded fun b a => Descends limits a b :=
  Subrelation.wf Descends.below
    (InvImage.wf (Call.rank limits) (Prod.lex Nat.lt_wfRel (Prod.lex Nat.lt_wfRel Nat.lt_wfRel)).wf)

lemma Descends.length_le {limits : Limits} {a b : Call} (h : Descends limits a b) :
    a.active.length ≤ b.active.length := by
  cases h <;> simp [Call.active]

/-- Everything that is called within the expansion of a macro has more frames, and the limit has left one for it. -/
lemma length_lt_of_within {limits : Limits} {active : List Frame} {q : Request} {c : Call}
    (h : Relation.TransGen (Descends limits) (.expand active q) c) :
    limits.maxDepth - c.active.length < limits.maxDepth - active.length := by
  induction h with
  | single h =>
    cases h with
    | enter q f ops h =>
      rw [Call.active, List.length_cons]
      omega
  | tail _ h ih =>
    have := h.length_le
    omega

/-! ## operands of a text -/

namespace Text

/-- The loosest operator that stands outside brackets, and the operands between which it stands. -/
def operation? (t : Text) : Option (Sign × Text × List Text) :=
  Sign.all.findSome? fun s =>
    match splitOutside s.char t with
    | first :: second :: rest => some (s, first, second :: rest)
    | _ => none

variable {x sep : Char} {d : Nat} {t : Text}

lemma noneOutside_iff : noneOutside x d t = true ↔ splitOutsideFrom x d t = [t] := by
  induction t generalizing d with
  | nil => simp [noneOutside, splitOutsideFrom]
  | cons c t ih =>
    rw [noneOutside, splitOutsideFrom, Bool.and_eq_true]
    split
    · next hc => simp [hc.1, hc.2]
    · next hc =>
      have hne := splitOutsideFrom_ne_nil x (depthAfter d c) t
      have hfirst : (!(d == 0 && c == x)) = true := by simpa [imp_iff_not_or] using hc
      rw [ih, hfirst]
      cases hsplit : splitOutsideFrom x (depthAfter d c) t with
      | nil => exact absurd hsplit hne
      | cons p ps => simp [consFirst]

/-- A text that is not cut at `x` has no piece that is cut there. -/
lemma splitOutside_of_mem (hsep : depthAfter 0 sep = 0) {u : Text} (hu : u ∈ splitOutside sep t)
    (h : x = sep ∨ splitOutside x t = [t]) : splitOutside x u = [u] :=
  noneOutside_iff.1 (noneOutside_of_mem hsep (h.imp_right noneOutside_iff.2) hu)

/-- Pieces of a text that is cut are shorter than the text. -/
lemma length_lt_of_splitOutside {p q : Text} {ps : List Text} (h : splitOutside x t = p :: ps) (hps : ps ≠ [])
    (hq : q ∈ p :: ps) : q.length < t.length := by
  have ht := congrArg List.length (eq_of_splitOutsideFrom h)
  rw [List.length_append] at ht
  rcases List.mem_cons.1 hq with rfl | hq
  · obtain ⟨r, rs, rfl⟩ := List.exists_cons_of_ne_nil hps
    rw [List.flatMap_cons, List.length_append, List.length_cons] at ht
    omega
  · obtain ⟨before, after, rfl⟩ := List.append_of_mem hq
    rw [List.flatMap_append, List.flatMap_cons, List.length_append, List.length_append, List.length_cons] at ht
    omega

lemma splitOutside_cases (x : Char) (t : Text) :
    splitOutside x t = [t] ∨ ∃ first second rest, splitOutside x t = first :: second :: rest := by
  cases hsplit : splitOutside x t with
  | nil => exact absurd hsplit (splitOutsideFrom_ne_nil x 0 t)
  | cons first rest =>
    cases rest with
    | nil =>
      left
      rw [← hsplit]
      exact splitOutsideFrom_eq_singleton (Nat.le_of_eq (congrArg List.length hsplit))
    | cons second rest => exact Or.inr ⟨first, second, rest, rfl⟩

/-- A text with an operation is cut at its operator, and at none that is looser; one without is cut nowhere. -/
lemma operation?_cases (t : Text) :
    (t.operation? = none ∧ ∀ x ∈ Phrase.operand.bars, splitOutside x t = [t]) ∨
      ∃ s first rest, t.operation? = some (s, first, rest) ∧ splitOutside s.char t = first :: rest ∧ rest ≠ [] ∧
        ∀ x ∈ (Phrase.chain s).bars, splitOutside x t = [t] := by
  unfold operation? Sign.all
  simp only [List.findSome?_cons, List.findSome?_nil, Sign.char]
  rcases splitOutside_cases '-' t with hminus | ⟨first, second, rest, hminus⟩
  · rcases splitOutside_cases '+' t with hplus | ⟨first, second, rest, hplus⟩
    · rcases splitOutside_cases '*' t with htimes | ⟨first, second, rest, htimes⟩
      · left
        simp [hminus, hplus, htimes, Phrase.bars]
      · right
        refine ⟨.times, first, second :: rest, ?_, htimes, List.cons_ne_nil _ _, ?_⟩
        · simp only [hminus, hplus, htimes]
        · simp [hminus, hplus, Phrase.bars]
    · right
      refine ⟨.plus, first, second :: rest, ?_, hplus, List.cons_ne_nil _ _, ?_⟩
      · simp only [hminus, hplus]
      · simp [hminus, Phrase.bars]
  · right
    refine ⟨.minus, first, second :: rest, ?_, hminus, List.cons_ne_nil _ _, ?_⟩
    · simp only [hminus]
    · simp [Phrase.bars]

end Text

namespace Arith

variable {t : Text}

/-- A text that is cut at no looser operator is read as a phrase of its form. -/
lemma read_eq_readAs_of_bars {l : Phrase} (h : ∀ x ∈ l.bars, Text.splitOutside x t = [t]) : read t = readAs l t := by
  have hsingle : ∀ s : Sign, Text.splitOutside s.char t = [t] → readAs (.chain s) t = readAs s.operands t := by
    intro s hs
    rw [readAs_chain, hs, List.map_singleton, chain_singleton]
  rw [read_eq_readAs]
  cases l with
  | operand => rw [hsingle .minus (h _ (by decide)), Sign.operands, hsingle .plus (h _ (by decide)), Sign.operands,
      hsingle .times (h _ (by decide)), Sign.operands]
  | chain s =>
    cases s with
    | minus => rfl
    | plus => rw [hsingle .minus (h _ (by decide)), Sign.operands]
    | times => rw [hsingle .minus (h _ (by decide)), Sign.operands, hsingle .plus (h _ (by decide)), Sign.operands]

/-- A text is read from the operands of its loosest operator. -/
theorem read_of_splitOutside {s : Sign} (h : ∀ x ∈ (Phrase.chain s).bars, Text.splitOutside x t = [t]) :
    read t = chain s ((Text.splitOutside s.char t).map read) := by
  have hbars : ∀ x ∈ s.operands.bars, x = s.char ∨ x ∈ (Phrase.chain s).bars := by
    cases s <;> simp [Sign.operands, Phrase.bars, Sign.char]
  rw [read_eq_readAs_of_bars h, readAs_chain]
  congr 1
  refine List.map_congr_left fun u hu => (read_eq_readAs_of_bars fun x hx => ?_).symm
  exact Text.splitOutside_of_mem (s.depthAfter_char 0) hu ((hbars x hx).imp_right (h x))

end Arith

/-! ## expansion by calls -/

/-- The macros known so far and all calls with their callers, the latest first. -/
structure Trace where
  store : Store
  calls : List (Call × Call) := []

/-- A computation that records calls. It may fail, and it may not come to an end: then it gives nothing. -/
abbrev Tracer := ExceptT Fault (StateT Trace Option)

namespace Tracer

instance : MonadStateOf Store Tracer where
  get := ExceptT.mk fun σ => some (.ok σ.store, σ)
  set s := ExceptT.mk fun σ => some (.ok ⟨⟩, { σ with store := s })
  modifyGet f := ExceptT.mk fun σ => some (.ok (f σ.store).1, { σ with store := (f σ.store).2 })

/-- Records a call. -/
def arrive (caller here : Call) : Tracer Unit :=
  ExceptT.mk fun σ => some (.ok ⟨⟩, { σ with calls := (caller, here) :: σ.calls })

/-- A computation that does not come to an end. -/
def never {α : Type} : Tracer α := ExceptT.mk fun _ => none

/-- The name of the macro that a template argument stands for; `value` gives the value of a text. -/
def resolveArgument (value : Text → Tracer Nat) (inner : Request → Tracer Expansion) (arg : Text) (op : Op) :
    Tracer Text :=
  if Text.isLiteral arg then do
    match OpKind.pushValue? (← value (Text.compact arg)) with
    | some kind => Engine.addInline arg kind op
    | none => Engine.fail (.literalDoesNotFit arg) op.origin
  else Engine.resolveArgument inner arg op

/-- The code of one operation. -/
def layoutOp (value : Text → Tracer Nat) (inner : Request → Tracer Expansion) (b : Bindings) (start : Address)
    (op : Op) : Tracer Expansion :=
  match op.kind with
  | .template text => do
    let (target, args) := Engine.argumentTarget (b.substitute text)
    let name ← resolveArgument value inner target op
    inner ⟨name, start, args, some op.origin⟩
  | _ => Engine.layoutOp inner b start op

/-- The value of a text that is cut at its loosest operator, or else out of its brackets. -/
def valueOf (value : Text → Tracer Nat) (inner : Request → Tracer Expansion) (site : Origin) (t : Text) : Tracer Nat :=
  if t.isEmpty then Engine.fail (.missingOperand t) site
  else match t.operation? with
    | some (sign, first, rest) => do
      rest.foldlM (fun a u => return sign.apply a (← value u)) (← value first)
    | none => match Text.unbracket? t with
      | some inside => value inside
      | none => Engine.atomValue inner site t

mutual

/-- The expansion of a macro, where calls are nested in each other no more than `n` deep. -/
def expand (limits : Limits) : Nat → Call → List Frame → Request → Tracer Expansion
  | 0, _, _, _ => never
  | n + 1, caller, active, q => do
    arrive caller (.expand active q)
    let (m, args) ← Engine.enter limits active q
    if limits.maxDepth ≤ active.length then
      Engine.fail (.tooDeep limits.maxDepth q.name) (q.site.getD m.origin)
    else do
      let laid ← layout limits n (.expand active q) (.of q.name args :: active) ⟨m.params, args⟩ q.start 0 m.ops
      laid.resolve

/-- The code of some operations of a frame; `done` bytes stand before them. -/
def layout (limits : Limits) : Nat → Call → List Frame → Bindings → Address → Nat → List Op → Tracer Expansion
  | 0, _, _, _, _, _, _ => never
  | n + 1, caller, active, b, start, done, ops => do
    arrive caller (.ops active ops)
    match ops with
    | [] => return {}
    | op :: rest => do
      let first ← layoutOp (fun t => value limits n (.ops active ops) active op.origin t)
        (fun q => expand limits n (.ops active ops) active q) b (start + done) op
      let others ← layout limits n (.ops active ops) active b start (done + first.size) rest
      return first.shift done ++ others

/-- The value of a text without blanks. -/
def value (limits : Limits) : Nat → Call → List Frame → Origin → Text → Tracer Nat
  | 0, _, _, _, _ => never
  | n + 1, caller, active, site, t => do
    arrive caller (.text active t)
    valueOf (fun u => value limits n (.text active t) active site u)
      (fun q => expand limits n (.text active t) active q) site t

end

/-- The size of the expansion of a macro, as a count. -/
def codeSize (limits : Limits) (n : Nat) (callee : Text) (args : List Text) (site : Origin) : Tracer Nat := do
  return Numeral.wrapCount (← expand limits n .outside [] ⟨callee, 0, args, some site⟩).size

/-- The value of a literal. -/
def evaluate (limits : Limits) (n : Nat) (t : Text) (site : Origin) : Tracer Nat :=
  value limits n .outside [] site (Text.compact t)

/-- What a computation gives and the trace that it leaves, if it ends. -/
def runOn {α : Type} (x : Tracer α) (σ : Trace) : Option (Except Fault α × Trace) := x.run σ

section Runs

variable {α β : Type} {x : Tracer α} {σ σ' : Trace}

lemma runOn_bind_ok {a : α} (h : runOn x σ = some (.ok a, σ')) (f : α → Tracer β) :
    runOn (x >>= f) σ = runOn (f a) σ' := by
  show (runOn x σ).bind (fun r => ExceptT.bindCont f r.1 r.2) = _
  rw [h]
  rfl

lemma runOn_bind_error {e : Fault} (h : runOn x σ = some (.error e, σ')) (f : α → Tracer β) :
    runOn (x >>= f) σ = some (.error e, σ') := by
  show (runOn x σ).bind (fun r => ExceptT.bindCont f r.1 r.2) = _
  rw [h]
  rfl

end Runs
end Tracer

/-! ## every run ends -/

/-- A computation for every depth of nested calls. -/
abbrev Deep := ReaderT Nat Tracer

/-- From every store, calls are nested in each other up to some depth only, and then `x` ends with what `y` gives and
the store that `y` leaves. Every call on the way is one that its caller may make, with no more frames than the limit
allows. -/
def Ends {α : Type} (limits : Limits) (x : Deep α) (y : Engine α) : Prop :=
  ∀ s calls, ∃ depth new,
    (∀ n, depth ≤ n → (x n).runOn ⟨s, calls⟩ = some ((y.runOn s).1, ⟨(y.runOn s).2, new ++ calls⟩)) ∧
      ∀ c ∈ new, Descends limits c.1 c.2 ∧ c.2.active.length ≤ limits.maxDepth

section Rules

variable {α β : Type} {limits : Limits}

lemma ends_of_runOn {x : Deep α} {y : Engine α}
    (h : ∀ n s calls, (x n).runOn ⟨s, calls⟩ = some ((y.runOn s).1, ⟨(y.runOn s).2, calls⟩)) : Ends limits x y :=
  fun s calls => ⟨0, [], fun n _ => h n s calls, fun _ hc => nomatch hc⟩

lemma ends_pure (a : α) : Ends limits (pure a) (pure a) := ends_of_runOn fun _ _ _ => rfl

lemma ends_fail (cause : Cause) (o : Origin) : Ends limits (Engine.fail cause o : Deep α) (Engine.fail cause o) :=
  ends_of_runOn fun _ _ _ => rfl

lemma ends_lift (x : Except Fault α) : Ends limits (liftM x : Deep α) (liftM x) := ends_of_runOn fun _ _ _ => rfl

lemma ends_get : Ends limits (get : Deep Store) get := ends_of_runOn fun _ _ _ => rfl

lemma ends_set (s : Store) : Ends limits (set s : Deep PUnit) (set s) := ends_of_runOn fun _ _ _ => rfl

lemma Ends.congr {x : Deep α} {x' : Nat → Tracer α} {y : Engine α} (h : Ends limits x y) (hx : ∀ n, x n = x' n) :
    Ends limits x' y := by
  rw [← funext hx]
  exact h

lemma Ends.bind {x : Deep α} {y : Engine α} {f : α → Deep β} {g : α → Engine β} (hx : Ends limits x y)
    (hf : ∀ a, Ends limits (f a) (g a)) : Ends limits (x >>= f) (y >>= g) := by
  intro s calls
  obtain ⟨depth, new, hrun, hnew⟩ := hx s calls
  rw [Engine.runOn_bind]
  rcases hy : y.runOn s with ⟨r, s'⟩
  rw [hy] at hrun
  cases r with
  | error e => exact ⟨depth, new, fun n hn => Tracer.runOn_bind_error (hrun n hn) _, hnew⟩
  | ok a =>
    obtain ⟨depth', later, hrun', hlater⟩ := hf a s' (new ++ calls)
    refine ⟨max depth depth', later ++ new, fun n hn => ?_, fun c hc => ?_⟩
    · rw [List.append_assoc, ← hrun' n (Nat.le_trans (Nat.le_max_right _ _) hn)]
      exact Tracer.runOn_bind_ok (hrun n (Nat.le_trans (Nat.le_max_left _ _) hn)) fun a => f a n
    · rcases List.mem_append.1 hc with hc | hc
      · exact hlater c hc
      · exact hnew c hc

/-- A call that ends, one deeper. -/
lemma Ends.arrive {caller here : Call} (hcall : Descends limits caller here)
    (hlen : here.active.length ≤ limits.maxDepth) {x : Deep α} {x' : Deep α} {y : Engine α} (hx : Ends limits x y)
    (hstep : ∀ n, x' (n + 1) = Tracer.arrive caller here >>= fun _ => x n) : Ends limits x' y := by
  intro s calls
  obtain ⟨depth, new, hrun, hnew⟩ := hx s ((caller, here) :: calls)
  refine ⟨depth + 1, new ++ [(caller, here)], fun n hn => ?_, fun c hc => ?_⟩
  · obtain ⟨k, rfl⟩ := Nat.exists_eq_add_of_le' hn
    rw [← Nat.add_assoc, hstep, List.append_assoc]
    exact hrun (k + depth) (Nat.le_add_left _ _)
  · rcases List.mem_append.1 hc with hc | hc
    · exact hnew c hc
    · rw [List.mem_singleton.1 hc]
      exact ⟨hcall, hlen⟩

end Rules

lemma congruence_ends (limits : Limits) :
    Engine.Congruence fun (α : Type) (x : Deep α) (y : Engine α) => Ends limits x y where
  pure := ends_pure
  fail := fun cause o _ => ends_fail cause o
  lift := fun x _ => ends_lift x
  get := ends_get
  addInline := fun arg kind op => by
    refine ends_get.bind fun s => (ends_set _).bind fun _ => ?_
    exact (ends_lift _).bind fun s' => (ends_set s').bind fun _ => ends_pure _
  bind := Ends.bind

/-- An operation for every depth is at each depth the operation with what is inside at that depth. -/
lemma congruence_at (n : Nat) : Engine.Congruence fun (α : Type) (x : Deep α) (y : Tracer α) => x n = y where
  pure := fun _ => rfl
  fail := fun _ _ _ => rfl
  lift := fun _ _ => rfl
  get := rfl
  addInline := fun _ _ _ => rfl
  bind := fun {α β x y f g} hx hf => by
    show (x n >>= fun a => f a n) = (y >>= g)
    rw [hx, funext hf]

namespace Engine

variable {limits : Limits} {E : Request → Deep Expansion} {inner : Request → Engine Expansion}
  (hE : ∀ q, Ends limits (E q) (inner q))

include hE

lemma atomValue_ends (site : Origin) (t : Text) :
    Ends limits (fun n => atomValue (fun q => E q n) site t) (atomValue inner site t) :=
  ((congruence_ends limits).atomValue inner hE site t).congr fun n =>
    (congruence_at n).atomValue _ (fun _ => rfl) site t

lemma resolveArgument_ends (arg : Text) (op : Op) :
    Ends limits (fun n => resolveArgument (fun q => E q n) arg op) (resolveArgument inner arg op) :=
  ((congruence_ends limits).resolveArgument inner hE arg op).congr fun n =>
    (congruence_at n).resolveArgument _ (fun _ => rfl) arg op

lemma layoutOp_ends (b : Bindings) (start : Address) (op : Op) :
    Ends limits (fun n => layoutOp (fun q => E q n) b start op) (layoutOp inner b start op) :=
  ((congruence_ends limits).layoutOp inner hE b start op).congr fun n =>
    (congruence_at n).layoutOp _ (fun _ => rfl) b start op

end Engine

namespace Tracer

section Frame

-- inside a frame: whoever may expand a macro there gets what `inner` gives
variable {limits : Limits} {active : List Frame} (hlen : active.length ≤ limits.maxDepth)
  {inner : Request → Engine Expansion}
  (hi : ∀ caller q, Descends limits caller (.expand active q) →
    Ends limits (fun n => expand limits n caller active q) (inner q))

/-- Operands are taken in one after the other. -/
lemma foldlM_ends {value : Text → Deep Nat} {site : Origin} (sign : Sign) {operands : List Text}
    (h : ∀ u ∈ operands, Ends limits (value u) ((Arith.read u).eval (Engine.atomValue inner site))) :
    ∀ {x : Deep Nat} {e : Arith}, Ends limits x (e.eval (Engine.atomValue inner site)) →
      Ends limits (fun n => x n >>= fun a => operands.foldlM (fun a u => return sign.apply a (← value u n)) a)
        (((operands.map Arith.read).foldl (.op sign) e).eval (Engine.atomValue inner site)) := by
  induction operands with
  | nil =>
    intro x e hx
    simp only [List.foldlM_nil, bind_pure]
    exact hx
  | cons t rest ih =>
    intro x e hx
    -- the value so far and the next operand make one more operation
    have hnext : Ends limits (fun n => x n >>= fun a => value t n >>= fun b => pure (sign.apply a b))
        ((Arith.op sign e (Arith.read t)).eval (Engine.atomValue inner site)) :=
      hx.bind fun a => (h t List.mem_cons_self).bind fun b => ends_pure _
    have hrest := ih (fun u hu => h u (List.mem_cons_of_mem t hu)) hnext
    simp only [bind_assoc] at hrest
    simp only [List.foldlM_cons, bind_assoc]
    exact hrest

include hi

include hlen

/-- The value of a text, by induction on its length: the operands of an operator and what stands in brackets are
shorter. -/
lemma value_ends (site : Origin) (t : Text) (caller : Call) (hcall : Descends limits caller (.text active t)) :
    Ends limits (fun n => value limits n caller active site t) ((Arith.read t).eval (Engine.atomValue inner site)) := by
  induction hn : t.length using Nat.strongRecOn generalizing t caller with
  | _ n ih =>
    have hshorter : ∀ u : Text, u.length < t.length →
        Ends limits (fun n => value limits n (.text active t) active site u)
          ((Arith.read u).eval (Engine.atomValue inner site)) := fun u hu =>
      ih u.length (hn ▸ hu) u _ (.operand active hu) rfl
    refine Ends.arrive (x := fun n => valueOf (fun u => value limits n (.text active t) active site u)
      (fun q => expand limits n (.text active t) active q) site t) hcall hlen ?_ fun n => by rw [value]
    unfold valueOf
    by_cases ht : t.isEmpty = true
    · have hread : Arith.read [] = .atom [] := by
        rw [Arith.read_eq]
        rfl
      simp only [if_pos ht]
      rw [List.isEmpty_iff.1 ht, hread]
      exact ends_fail _ _
    · simp only [if_neg ht]
      rcases t.operation?_cases with ⟨hnone, hbars⟩ | ⟨sign, first, rest, hop, hsplit, hrest, hbars⟩
      · simp only [hnone]
        rw [Arith.read_eq_readAs_of_bars hbars, Arith.readAs, Arith.readOperand]
        cases hb : Text.unbracket? t with
        | none => exact Engine.atomValue_ends (fun q => hi _ q (.size active t q)) site t
        | some inside =>
          have hlength := Text.length_of_unbracket? hb
          exact hshorter inside (by omega)
      · simp only [hop]
        rw [Arith.read_of_splitOutside hbars, hsplit]
        have hpart := fun u hu => hshorter u (Text.length_lt_of_splitOutside hsplit hrest hu)
        exact foldlM_ends sign (fun u hu => hpart u (List.mem_cons_of_mem first hu)) (hpart first List.mem_cons_self)

section Operation

variable (op : Op) (rest : List Op)

lemma resolveArgument_ends (arg : Text) :
    Ends limits (fun n => resolveArgument (fun t => value limits n (.ops active (op :: rest)) active op.origin t)
      (fun q => expand limits n (.ops active (op :: rest)) active q) arg op) (Engine.resolveArgument inner arg op) := by
  unfold resolveArgument
  by_cases hliteral : Text.isLiteral arg = true
  · simp only [if_pos hliteral]
    rw [Engine.resolveArgument, Engine.argumentKind, if_pos hliteral, bind_assoc]
    refine (value_ends hlen hi _ _ _ (.argument active op rest _)).bind fun k => ?_
    cases OpKind.pushValue? k with
    | some kind => exact (congruence_ends limits).addInline arg kind op
    | none => exact ends_fail _ _
  · simp only [if_neg hliteral]
    exact Engine.resolveArgument_ends (fun q => hi _ q (.reenter active op rest q)) arg op

lemma layoutOp_ends (b : Bindings) (start : Address) :
    Ends limits (fun n => layoutOp (fun t => value limits n (.ops active (op :: rest)) active op.origin t)
      (fun q => expand limits n (.ops active (op :: rest)) active q) b start op)
      (Engine.layoutOp inner b start op) := by
  have hexpand := fun q => hi (.ops active (op :: rest)) q (.reenter active op rest q)
  unfold layoutOp
  cases hkind : op.kind with
  | template text =>
    rw [Engine.layoutOp, hkind]
    exact (resolveArgument_ends hlen hi op rest _).bind fun name => hexpand _
  | _ => exact Engine.layoutOp_ends hexpand b start op

end Operation

/-- Operations, one after the other. -/
lemma layout_ends (b : Bindings) (start : Address) (ops : List Op) : ∀ (caller : Call) (done : Nat),
    Descends limits caller (.ops active ops) →
      Ends limits (fun n => layout limits n caller active b start done ops) (Engine.layout inner b start done ops) := by
  induction ops with
  | nil =>
    intro caller done hcall
    exact Ends.arrive (y := Engine.layout inner b start done []) hcall hlen (ends_pure _) fun n => by rw [layout]; rfl
  | cons op rest ih =>
    intro caller done hcall
    refine Ends.arrive hcall hlen ((layoutOp_ends hlen hi op rest b (start + done)).bind fun first =>
      (ih _ _ (.rest active op rest)).bind fun others => ends_pure _) fun n => by rw [layout]; rfl

end Frame

/-- **Expansion ends.** Where as many frames may be entered as the limit leaves, the calls come to what expansion within
that budget gives. -/
theorem expand_ends_within (limits : Limits) (budget : Nat) : ∀ (active : List Frame) (caller : Call) (q : Request),
    budget + active.length = limits.maxDepth → Descends limits caller (.expand active q) →
      Ends limits (fun n => expand limits n caller active q) (Engine.expand limits budget active q) := by
  induction budget with
  | zero =>
    intro active caller q hlen hcall
    have hfull : limits.maxDepth ≤ active.length := by omega
    refine Ends.arrive (x := do
      let (m, _) ← Engine.enter limits active q
      Engine.fail (.tooDeep limits.maxDepth q.name) (q.site.getD m.origin)) hcall (by rw [Call.active]; omega) ?_ ?_
    · exact ((congruence_ends limits).enter limits active q).bind fun x => ends_fail _ _
    · intro n
      rw [expand]
      simp only [if_pos hfull]
      rfl
  | succ budget ih =>
    intro active caller q hlen hcall
    have hroom : active.length < limits.maxDepth := by omega
    have hlayout : ∀ x : Macro × List Text, Ends limits
        (fun n => layout limits n (.expand active q) (.of q.name x.2 :: active) ⟨x.1.params, x.2⟩ q.start 0 x.1.ops)
        (Engine.layout (Engine.expand limits budget (.of q.name x.2 :: active)) ⟨x.1.params, x.2⟩ q.start 0
          x.1.ops) := by
      intro x
      have hdeeper : budget + (Frame.of q.name x.2 :: active).length = limits.maxDepth := by
        rw [List.length_cons]
        omega
      exact layout_ends (by omega) (fun caller' q' => ih _ caller' q' hdeeper) _ _ _ _ _ (.enter q _ _ hroom)
    refine Ends.arrive hcall (Nat.le_of_lt hroom) (((congruence_ends limits).enter limits active q).bind fun x =>
      (hlayout x).bind fun laid => ends_lift laid.resolve) fun n => ?_
    rw [expand]
    simp only [if_neg (Nat.not_le.2 hroom)]
    rfl

end Tracer

/-- **Expansion, sizes and values end**, whatever macros are known and whatever the limit is: calls are nested in each
other only so deep, and they come to what expansion within the limit gives. Each call has no more frames active than the
limit allows and is one that its caller may make: operations lead to fewer operations, a text to shorter texts, and both
to an expansion in the same frames, which enters one more or fails. So all that is called within an expansion has fewer
frames left to enter, and no chain of calls goes on for ever. -/
theorem expand_ends (limits : Limits) :
    (∀ q, Ends limits (fun n => Tracer.expand limits n .outside [] q) (Processor.expand limits q)) ∧
    (∀ callee args site,
      Ends limits (fun n => Tracer.codeSize limits n callee args site) (Processor.codeSize limits callee args site)) ∧
    (∀ t site, Ends limits (fun n => Tracer.evaluate limits n t site) (Processor.evaluate limits t site)) ∧
    (∀ active q c, Relation.TransGen (Descends limits) (.expand active q) c →
      limits.maxDepth - c.active.length < limits.maxDepth - active.length) ∧
    WellFounded fun b a => Descends limits a b := by
  have hexpand : ∀ caller q, Descends limits caller (.expand [] q) →
      Ends limits (fun n => Tracer.expand limits n caller [] q) (Processor.expand limits q) := fun caller q =>
    Tracer.expand_ends_within limits limits.maxDepth [] caller q rfl
  refine ⟨fun q => hexpand _ q (.ask q), fun callee args site => ?_, fun t site => ?_,
    fun active q c => length_lt_of_within, wellFounded_descends limits⟩
  · exact (hexpand _ _ (.ask _)).bind fun e => ends_pure _
  · exact Tracer.value_ends (Nat.zero_le _) hexpand site _ _ (.evaluate _)

namespace Sample

/-- A macro that calls itself with a longer argument each time, so that no frame comes back. -/
def growing : Sources :=
  [⟨"growing".toList, "template<x>#define macro R=takes(0)returns(0)\x7bR<x x>()\x7d".toList⟩]

def growingStore : Store := { macros := ((Program.read growing).toOption.getD {}).macros }

end Sample

theorem expand_ends_growing :
    ∃ n f σ, Tracer.runOn (Tracer.expand { maxDepth := 5 } n .outside [] ⟨"R".toList, 0, ["a".toList], none⟩)
        ⟨Sample.growingStore, []⟩ = some (.error f, σ) ∧ f.cause = .tooDeep 5 "R".toList ∧
      ∀ c ∈ σ.calls, Descends { maxDepth := 5 } c.1 c.2 ∧ c.2.active.length ≤ 5 := by
  have hcause : (((Processor.expand { maxDepth := 5 } ⟨"R".toList, 0, ["a".toList], none⟩).runOn
      Sample.growingStore).1.map Expansion.size).mapError Fault.cause = .error (.tooDeep 5 "R".toList) := by
    decide +kernel
  obtain ⟨depth, new, hrun, hnew⟩ :=
    (expand_ends { maxDepth := 5 }).1 ⟨"R".toList, 0, ["a".toList], none⟩ Sample.growingStore []
  have hrun := hrun depth (Nat.le_refl depth)
  rw [List.append_nil] at hrun
  cases hfault : ((Processor.expand { maxDepth := 5 } ⟨"R".toList, 0, ["a".toList], none⟩).runOn
      Sample.growingStore).1 with
  | ok e =>
    rw [hfault] at hcause
    cases hcause
  | error f =>
    rw [hfault] at hcause hrun
    exact ⟨depth, f, _, hrun, Except.error.inj hcause, hnew⟩

end MacroAsm
