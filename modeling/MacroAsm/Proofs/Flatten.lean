import MacroAsm.Proofs.Unfold

/-!
# Flattening a macro

The code of a macro as a function of the macros known, with no store that changes on the way: operations are walked in
order, a call is replaced by the code of the macro that its name stands for, a template argument that is no macro by
the code of the operation that it stands for, a size by a push of it.

* `Callee`: what is flattened; `Flatten.opsCode`: the code of some operations, given how to flatten what they call;
* `Flatten.code`: the code of a callee within a number of further frames;
* `Flatten.close_eq_ok_iff`: a frame ends well if the offsets of its labels fit two bytes;
* `Flatten.code_lift`: more frames, and any offset that fits, leave the code of a callee as it is;
  `Flatten.code_unique`: it has no other.
-/

namespace MacroAsm

/-- What is flattened: a macro asked for by name, or an operation that stands for a template argument; both with the
argument groups written behind them. -/
inductive Callee where
  | named (name : Text) (args : List Text) (site : Option Origin)
  | inline (op : Op) (args : List Text)
  deriving DecidableEq

/-- The name of a callee, if it has one. -/
def Callee.name : Callee → Text
  | named name _ _ => name
  | inline .. => []

/-- What it takes to enter a macro. -/
lemma permit_eq_ok_iff {limits : Limits} {s : Store} {active : List Frame} {q : Request} {m : Macro}
    {args : List Text} : permit limits s active q = .ok (m, args) ↔
      s.find? q.name = some m ∧ args = q.args.flatMap Text.splitArguments ∧ m.params.length = args.length ∧
        ¬ (limits.refuseCycles = true ∧ Frame.of q.name args ∈ active) := by
  unfold permit
  cases s.find? q.name with
  | none => simp
  | some m' =>
    dsimp only
    constructor
    · intro h
      split at h
      · cases h
      · next harity =>
        split at h
        · cases h
        · next hcycle =>
          obtain ⟨rfl, rfl⟩ := Prod.mk.inj (Except.ok.inj h)
          refine ⟨rfl, rfl, by simpa using harity, ?_⟩
          simpa using hcycle
    · rintro ⟨hm, rfl, harity, hcycle⟩
      cases hm
      rw [if_neg (by simpa using harity), if_neg (by simpa using hcycle)]

namespace Flatten

/-- How the callees of a frame are flattened: each at the absolute offset of its first byte. -/
abbrev Inner := Callee → Address → Except Fault Code

def refuse {α : Type} (cause : Cause) (o : Origin) : Except Fault α := .error (.located cause o)

/-- The size of the code of a macro as a count, measured at offset zero. -/
def codeSize (inner : Inner) (callee : Text) (args : List Text) (site : Origin) : Except Fault Nat := do
  return Numeral.wrapCount (← inner (.named callee args (some site)) 0).size

/-- The value of a macro whose only operation is a push or a size. -/
def constant (inner : Inner) (site : Origin) (m : Macro) : Except Fault Nat :=
  match m.ops with
  | [⟨.push _ data, _, _⟩] => .ok (Bytes.toNat data)
  | [⟨.codeSize callee args, _, o⟩] => codeSize inner callee args o
  | _ => refuse (.notConstant m.name) site

/-- The value of an atom. -/
def atomValue (known : Store) (inner : Inner) (site : Origin) (t : Text) : Except Fault Nat :=
  if t.isEmpty then refuse (.missingOperand t) site
  else match Numeral.value? t with
    | some n => .ok (Word.wrap n)
    | none => match known.find? t with
      | some m => constant inner site m
      | none => refuse (.unreadableLiteral t) site

/-- The operation that a template argument stands for; nothing if it is the name of a macro. -/
def argumentKind (known : Store) (inner : Inner) (arg : Text) (site : Origin) : Except Fault (Option OpKind) :=
  if Text.isLiteral arg then do
    match OpKind.pushValue? (← (Arith.read (Text.compact arg)).eval (atomValue known inner site)) with
    | some kind => return some kind
    | none => refuse (.literalDoesNotFit arg) site
  else if (StackOffset.read? arg).isSome then
    match StackOffset.opcodeOf arg with
    | .ok b => return some (.opcode b)
    | .error cause => refuse cause site
  else match Opcode.ofMnemonic? arg with
    | some b => return some (.opcode b)
    | none =>
      if known.contains arg then return none
      else match Text.stripBrackets? arg with
        | some inside => return some (.template (Text.trim inside))
        | none =>
          if Text.isWord arg then return some (.labelRef arg)
          else refuse (.unresolvedArgument arg) site

/-- The code of one operation at an absolute offset. -/
def opCode (known : Store) (inner : Inner) (b : Bindings) (start : Address) (op : Op) : Except Fault Code :=
  match op.kind with
  | .opcode byte => return .leaf (.opcode byte) op.origin
  | .push byte data =>
    if Opcode.pushWidth? byte = some data.length then return .leaf (.push byte data) op.origin
    else refuse (.pushMismatch byte data.length) op.origin
  | .labelDef label => return .leaf (.labelDef label) op.origin
  | .labelRef label => return .leaf (.labelRef label) op.origin
  | .tableStart table => return .leaf (.tableRef table) op.origin
  | .call callee args => inner (.named callee (args.map b.substitute) (some op.origin)) start
  | .template text => do
    let value := Engine.argumentTarget (b.substitute text)
    match ← argumentKind known inner value.1 op.origin with
    | some kind => inner (.inline { op with kind := kind } value.2) start
    | none => inner (.named value.1 value.2 (some op.origin)) start
  | .codeSize callee args => do
    let data := Bytes.ofNat (← codeSize inner callee (args.map b.substitute) op.origin)
    match Opcode.pushOf? data.length with
    | some byte => return .leaf (.push byte data) op.origin
    | none => refuse (.codeSizeTooWide callee) op.origin

/-- The code of some operations, one behind the other, the first at an absolute offset. -/
def opsCode (known : Store) (inner : Inner) (b : Bindings) : Address → List Op → Except Fault Code
  | _, [] => return .empty
  | start, op :: ops => do
    let first ← opCode known inner b start op
    let rest ← opsCode known inner b (start + first.size) ops
    return .seq first rest

/-- The end of a frame. If an offset of a label does not fit two bytes, the first reference to such a label is to
blame. -/
def close (start : Address) (body : Code) : Except Fault Code :=
  match (Code.frame body).leaves.findSome? (Placed.excess? start) with
  | some f => .error f
  | none => .ok (.frame body)

/-- A callee that may be entered: what stands in its body, the frames active there, and whom to blame. -/
structure Opened where
  bindings : Bindings
  ops : List Op
  active : List Frame
  blame : Origin

/-- A macro opens under the conditions of `permit`. An operation takes no arguments and adds no frame of its own to
those that may not be entered again. -/
def opened (known : Store) (limits : Limits) (active : List Frame) : Callee → Except Fault Opened
  | .named name args site => do
    let (m, args) ← permit limits known active ⟨name, 0, args, site⟩
    return ⟨⟨m.params, args⟩, m.ops, .of name args :: active, site.getD m.origin⟩
  | .inline op args =>
    if (args.flatMap Text.splitArguments).isEmpty then .ok ⟨⟨[], []⟩, [op], active, op.origin⟩
    else refuse (.argumentCount [] 0 (args.flatMap Text.splitArguments).length) op.origin

/-- The code of a callee when `budget` more frames may be entered. -/
def code (known : Store) (limits : Limits) : Nat → List Frame → Inner
  | 0, active, callee, _ => do
    let o ← opened known limits active callee
    refuse (.tooDeep limits.maxDepth callee.name) o.blame
  | budget + 1, active, callee, start => do
    let o ← opened known limits active callee
    let body ← opsCode known (code known limits budget o.active) o.bindings start o.ops
    close start body

/-! ## the end of a frame -/

lemma excess?_eq_none_iff {start : Address} {L : List Placed} :
    L.findSome? (Placed.excess? start) = none ↔ Leaves.Fits start L := by
  rw [List.findSome?_eq_none_iff]
  simp only [Placed.excess?_eq_none]
  rfl

theorem close_eq_ok_iff {start : Address} {body c : Code} :
    close start body = .ok c ↔ c = .frame body ∧ Leaves.Fits start c.leaves := by
  unfold close
  cases h : (Code.frame body).leaves.findSome? (Placed.excess? start) with
  | some f =>
    constructor
    · intro heq
      cases heq
    · rintro ⟨rfl, hfit⟩
      rw [excess?_eq_none_iff.2 hfit] at h
      cases h
  | none =>
    constructor
    · intro heq
      cases heq
      exact ⟨rfl, excess?_eq_none_iff.1 h⟩
    · rintro ⟨rfl, -⟩
      rfl

lemma fits_seq {start : Address} {a b : Code} :
    Leaves.Fits start (Code.seq a b).leaves ↔ Leaves.Fits start a.leaves ∧ Leaves.Fits (start + a.size) b.leaves := by
  rw [Code.leaves, Leaves.fits_append, Leaves.fits_map_shift]

/-! ## more frames, other offsets -/

/-- What the first way of flattening gives fits, and the second gives it too, at every offset where it fits. -/
def Lifts (inner inner' : Inner) : Prop :=
  ∀ callee start c, inner callee start = .ok c →
    Leaves.Fits start c.leaves ∧ ∀ start', Leaves.Fits start' c.leaves → inner' callee start' = .ok c

section Lift

variable {known : Store} {inner inner' : Inner} (hi : Lifts inner inner')

include hi

lemma codeSize_lift {callee : Text} {args : List Text} {site : Origin} {n : Nat}
    (h : codeSize inner callee args site = .ok n) : codeSize inner' callee args site = .ok n := by
  obtain ⟨c, hc, hn⟩ := ok_of_bind h
  obtain ⟨hfit, hlift⟩ := hi _ _ _ hc
  unfold codeSize
  rw [hlift 0 hfit]
  exact hn

lemma constant_lift {site : Origin} {m : Macro} {n : Nat} (h : constant inner site m = .ok n) :
    constant inner' site m = .ok n := by
  revert h
  unfold constant
  split
  · exact id
  · exact codeSize_lift hi
  · exact id

lemma atomValue_lift {site : Origin} {t : Text} {n : Nat} (h : atomValue known inner site t = .ok n) :
    atomValue known inner' site t = .ok n := by
  unfold atomValue at h ⊢
  split
  · next he => rwa [if_pos he] at h
  · next he =>
    rw [if_neg he] at h
    split
    · next hv =>
      rw [hv] at h
      exact h
    · next hv =>
      rw [hv] at h
      split
      · next m hm =>
        rw [hm] at h
        exact constant_lift hi h
      · next hm =>
        rw [hm] at h
        exact h

lemma eval_lift {site : Origin} {a : Arith} {n : Nat} (h : a.eval (atomValue known inner site) = .ok n) :
    a.eval (atomValue known inner' site) = .ok n := by
  induction a generalizing n with
  | atom t => exact atomValue_lift hi h
  | op sign left right ihl ihr =>
    obtain ⟨x, hx, h⟩ := ok_of_bind h
    obtain ⟨y, hy, h⟩ := ok_of_bind h
    simp only [Arith.eval, ihl hx, ihr hy]
    exact h

lemma argumentKind_lift {arg : Text} {site : Origin} {k : Option OpKind}
    (h : argumentKind known inner arg site = .ok k) : argumentKind known inner' arg site = .ok k := by
  unfold argumentKind at h ⊢
  split
  · next hlit =>
    rw [if_pos hlit] at h
    obtain ⟨n, hn, h⟩ := ok_of_bind h
    rw [eval_lift hi hn]
    exact h
  · next hlit => rwa [if_neg hlit] at h

lemma opCode_lift {b : Bindings} {op : Op} {start : Address} {c : Code} (h : opCode known inner b start op = .ok c) :
    Leaves.Fits start c.leaves ∧
      ∀ start', Leaves.Fits start' c.leaves → opCode known inner' b start' op = .ok c := by
  have hleaf : ∀ l, c = .leaf l op.origin → Leaves.Fits start c.leaves := by
    rintro l rfl
    exact Engine.fits_leaf start l op.origin
  unfold opCode at h ⊢
  cases hk : op.kind with
  | call callee args =>
    rw [hk] at h
    exact hi _ _ _ h
  | template text =>
    rw [hk] at h
    obtain ⟨k, hk, h⟩ := ok_of_bind h
    simp only [argumentKind_lift hi hk]
    cases k with
    | some kind => exact hi _ _ _ h
    | none => exact hi _ _ _ h
  | codeSize callee args =>
    rw [hk] at h
    obtain ⟨n, hn, h⟩ := ok_of_bind h
    simp only [codeSize_lift hi hn]
    refine ⟨?_, fun _ _ => h⟩
    dsimp only at h
    split at h
    · cases h
      exact hleaf _ rfl
    · cases h
  | push byte data =>
    rw [hk] at h
    dsimp only at h ⊢
    refine ⟨?_, fun _ _ => h⟩
    split at h
    · cases h
      exact hleaf _ rfl
    · cases h
  | opcode byte | labelDef label | labelRef label | tableStart table =>
    rw [hk] at h
    cases h
    exact ⟨hleaf _ rfl, fun _ _ => rfl⟩

lemma opsCode_lift {b : Bindings} {ops : List Op} {start : Address} {c : Code}
    (h : opsCode known inner b start ops = .ok c) :
    Leaves.Fits start c.leaves ∧
      ∀ start', Leaves.Fits start' c.leaves → opsCode known inner' b start' ops = .ok c := by
  induction ops generalizing start c with
  | nil =>
    cases h
    exact ⟨by simp [Leaves.Fits, Code.leaves], fun _ _ => rfl⟩
  | cons op ops ih =>
    obtain ⟨first, hfirst, h⟩ := ok_of_bind h
    obtain ⟨rest, hrest, h⟩ := ok_of_bind h
    cases h
    obtain ⟨hfit, hlift⟩ := opCode_lift hi hfirst
    obtain ⟨hfit', hlift'⟩ := ih hrest
    refine ⟨fits_seq.2 ⟨hfit, hfit'⟩, fun start' hs => ?_⟩
    obtain ⟨hs₁, hs₂⟩ := fits_seq.1 hs
    simp only [opsCode, hlift start' hs₁]
    show (opsCode known inner' b (start' + first.size) ops >>= fun rest => pure (Code.seq first rest)) = _
    rw [hlift' _ hs₂]
    rfl

end Lift

/-! ## offsets -/

/-- Callees have the same code at all offsets where they have any. -/
def Uniform (inner : Inner) : Prop :=
  ∀ ⦃callee start start' c c'⦄, inner callee start = .ok c → inner callee start' = .ok c' → c = c'

section Uniform

variable {known : Store} {inner : Inner} (hi : Uniform inner) {b : Bindings} {start start' : Address} {c c' : Code}

include hi

lemma opCode_uniform {op : Op} (h : opCode known inner b start op = .ok c)
    (h' : opCode known inner b start' op = .ok c') : c = c' := by
  unfold opCode at h h'
  cases hk : op.kind with
  | call callee args =>
    rw [hk] at h h'
    exact hi h h'
  | template text =>
    rw [hk] at h h'
    obtain ⟨k, hk, h⟩ := ok_of_bind h
    obtain ⟨k', hk', h'⟩ := ok_of_bind h'
    rw [hk] at hk'
    cases hk'
    cases k with
    | some kind => exact hi h h'
    | none => exact hi h h'
  | codeSize | push | opcode | labelDef | labelRef | tableStart =>
    rw [hk] at h h'
    exact Except.ok.inj (h.symm.trans h')

lemma opsCode_uniform {ops : List Op} (h : opsCode known inner b start ops = .ok c)
    (h' : opsCode known inner b start' ops = .ok c') : c = c' := by
  induction ops generalizing start start' c c' with
  | nil => exact Except.ok.inj (h.symm.trans h')
  | cons op ops ih =>
    obtain ⟨first, hfirst, h⟩ := ok_of_bind h
    obtain ⟨rest, hrest, h⟩ := ok_of_bind h
    obtain ⟨first', hfirst', h'⟩ := ok_of_bind h'
    obtain ⟨rest', hrest', h'⟩ := ok_of_bind h'
    cases h
    cases h'
    rw [opCode_uniform hi hfirst hfirst', ih hrest hrest']

end Uniform

section Budget

variable {known : Store} {limits : Limits} {active : List Frame}

/-- What it takes to flatten a callee. -/
lemma code_succ_eq_ok_iff {budget : Nat} {callee : Callee} {start : Address} {c : Code} :
    code known limits (budget + 1) active callee start = .ok c ↔
      ∃ o body, opened known limits active callee = .ok o ∧
        opsCode known (code known limits budget o.active) o.bindings start o.ops = .ok body ∧
        c = .frame body ∧ Leaves.Fits start c.leaves := by
  constructor
  · intro h
    obtain ⟨o, ho, h⟩ := ok_of_bind h
    obtain ⟨body, hbody, h⟩ := ok_of_bind h
    exact ⟨o, body, ho, hbody, close_eq_ok_iff.1 h⟩
  · rintro ⟨o, body, ho, hbody, hc⟩
    simp only [code, ho]
    show (opsCode known _ o.bindings start o.ops >>= close start) = _
    rw [hbody]
    exact close_eq_ok_iff.2 hc

lemma code_zero_ne_ok {callee : Callee} {start : Address} {c : Code} :
    code known limits 0 active callee start ≠ .ok c := by
  intro h
  obtain ⟨o, -, h⟩ := ok_of_bind h
  cases h

lemma code_uniform (budget : Nat) (active : List Frame) : Uniform (code known limits budget active) := by
  induction budget generalizing active with
  | zero => exact fun callee start start' c c' h => absurd h code_zero_ne_ok
  | succ budget ih =>
    intro callee start start' c c' h h'
    obtain ⟨o, body, ho, hbody, rfl, -⟩ := code_succ_eq_ok_iff.1 h
    obtain ⟨o', body', ho', hbody', rfl, -⟩ := code_succ_eq_ok_iff.1 h'
    rw [ho] at ho'
    cases ho'
    rw [opsCode_uniform (ih o.active) hbody hbody']

/-- One more frame on both sides, if what opens on the first side opens on the second. -/
lemma lifts_succ {limits' : Limits} {active' : List Frame} {budget budget' : Nat}
    (h : ∀ callee o, opened known limits active callee = .ok o →
      ∃ o', opened known limits' active' callee = .ok o' ∧ o'.bindings = o.bindings ∧ o'.ops = o.ops ∧
        Lifts (code known limits budget o.active) (code known limits' budget' o'.active)) :
    Lifts (code known limits (budget + 1) active) (code known limits' (budget' + 1) active') := by
  intro callee start c hc
  obtain ⟨o, body, ho, hbody, rfl, hfit⟩ := code_succ_eq_ok_iff.1 hc
  obtain ⟨o', ho', hbindings, hops, hlift⟩ := h callee o ho
  refine ⟨hfit, fun start' hfit' => code_succ_eq_ok_iff.2 ⟨o', body, ho', ?_, rfl, hfit'⟩⟩
  rw [hbindings, hops]
  exact (opsCode_lift hlift hbody).2 start' (Code.fits_of_frame hfit')

/-- **Flattening within some frames is flattening within more of them**, at every offset where the code fits. -/
theorem code_lift {budget budget' : Nat} (hle : budget ≤ budget') :
    Lifts (code known limits budget active) (code known limits budget' active) := by
  induction budget generalizing budget' active with
  | zero =>
    intro callee start c h
    exact absurd h code_zero_ne_ok
  | succ budget ih =>
    obtain ⟨budget', rfl⟩ : ∃ k, budget' = k + 1 := ⟨budget' - 1, by omega⟩
    exact lifts_succ fun callee o ho => ⟨o, ho, rfl, rfl, ih (by omega)⟩

/-- A callee has one code, whatever the frames and the offset. -/
theorem code_unique {budget budget' : Nat} {callee : Callee} {start start' : Address} {c c' : Code}
    (h : code known limits budget active callee start = .ok c)
    (h' : code known limits budget' active callee start' = .ok c') : c = c' := by
  obtain ⟨hfit, hlift⟩ := code_lift (Nat.le_max_left budget budget') callee start c h
  obtain ⟨hfit', hlift'⟩ := code_lift (Nat.le_max_right budget budget') callee start' c' h'
  exact code_uniform _ _ (hlift start hfit) (hlift' start' hfit')

/-- What a macro opens to depends on its arguments one by one. -/
lemma opened_named_eq_ok_iff {name : Text} {args : List Text} {site : Option Origin} {o : Opened} :
    opened known limits active (.named name args site) = .ok o ↔
      ∃ m, known.find? name = some m ∧ m.params.length = (args.flatMap Text.splitArguments).length ∧
        ¬ (limits.refuseCycles = true ∧ Frame.of name (args.flatMap Text.splitArguments) ∈ active) ∧
        o = ⟨⟨m.params, args.flatMap Text.splitArguments⟩, m.ops,
          .of name (args.flatMap Text.splitArguments) :: active, site.getD m.origin⟩ := by
  constructor
  · intro h
    obtain ⟨⟨m, args'⟩, hpermit, ho⟩ := ok_of_bind h
    obtain ⟨hm, rfl, harity, hcycle⟩ := permit_eq_ok_iff.1 hpermit
    exact ⟨m, hm, harity, hcycle, (Except.ok.inj ho).symm⟩
  · rintro ⟨m, hm, harity, hcycle, rfl⟩
    have hpermit : permit limits known active ⟨name, 0, args, site⟩ = .ok (m, args.flatMap Text.splitArguments) :=
      permit_eq_ok_iff.2 ⟨hm, rfl, harity, hcycle⟩
    rw [opened, hpermit]
    rfl

lemma opened_inline_eq_ok_iff {op : Op} {args : List Text} {o : Opened} :
    opened known limits active (.inline op args) = .ok o ↔
      args.flatMap Text.splitArguments = [] ∧ o = ⟨⟨[], []⟩, [op], active, op.origin⟩ := by
  rw [opened]
  split
  · next hempty =>
    rw [Except.ok.injEq, eq_comm]
    exact (and_iff_right (List.isEmpty_iff.1 hempty)).symm
  · next hempty =>
    constructor
    · intro h
      cases h
    · rintro ⟨hnil, -⟩
      exact absurd (List.isEmpty_iff.2 hnil) hempty

/-- The code of a macro depends neither on who asks nor on how its arguments are grouped. -/
lemma code_named_congr {budget : Nat} {name : Text} {args args' : List Text} {site site' : Option Origin}
    (hargs : args.flatMap Text.splitArguments = args'.flatMap Text.splitArguments) {start : Address} {c : Code}
    (h : code known limits budget active (.named name args site) start = .ok c) :
    code known limits budget active (.named name args' site') start = .ok c := by
  cases budget with
  | zero => exact absurd h code_zero_ne_ok
  | succ budget =>
    obtain ⟨o, body, ho, hbody, hc⟩ := code_succ_eq_ok_iff.1 h
    obtain ⟨m, hm, harity, hcycle, rfl⟩ := opened_named_eq_ok_iff.1 ho
    rw [hargs] at harity hcycle hbody
    exact code_succ_eq_ok_iff.2 ⟨_, body, opened_named_eq_ok_iff.2 ⟨m, hm, harity, hcycle, rfl⟩, hbody, hc⟩

end Budget
end Flatten
end MacroAsm
