import MacroAsm.Proofs.Flatten
import MacroAsm.Proofs.Growth

/-!
# Expansion is flattening

The store changes while a macro is expanded. Names keep their meaning all the same, so what is expanded is the code
that flattening gives for the macros known.

Two readings of this are wanted. With the macros known in the end every success is a flattening, whatever the macros
are called. With the macros known in the beginning failures match too, provided that no declared macro and no callee
has a name like those made for template arguments. So the relation between both sides takes the macros known and the
names that are asked for as parameters.

* `Engine.Refines known asked active x p r`: `x` gives what `p` gives, up to `r`, and fails as it does;
* `Engine.expand_mirrors`: expansion refines flattening, within any number of frames.
-/

namespace MacroAsm

/-- The macros that an operation asks for by name. -/
def OpKind.callees : OpKind → List Text
  | call callee _ | codeSize callee _ => [callee]
  | _ => []

/-- The same class of cause at the same origin. -/
def Fault.Alike (f g : Fault) : Prop := f.kind = g.kind ∧ f.origin = g.origin

lemma Fault.Alike.refl (f : Fault) : f.Alike f := ⟨rfl, rfl⟩

@[simp] lemma Frame.toList_name_of (name : Text) (args : List Text) : (Frame.of name args).name.toList = name := by
  simp [Frame.of]

namespace Engine

/-- The names asked for cover the plain ones and the callees of the macros that they stand for. -/
structure Covers (known : Store) (asked : Text → Prop) : Prop where
  numbered : known.Numbered
  plain : ∀ name : Text, name.isPlain = true → asked name
  callees : ∀ name m, asked name → known.find? name = some m → ∀ op ∈ m.ops, ∀ c ∈ op.kind.callees, asked c

/-- What holds of the store on the way: it declares the macros known, and has those that are being expanded. -/
structure Ready (known : Store) (active : List Frame) (s : Store) : Prop where
  numbered : s.Numbered
  macros : s.macros = known.macros
  active : ∀ f ∈ active, s.contains f.name.toList = true

/-- What the store finds under a name asked for is known. -/
def Sees (known : Store) (asked : Text → Prop) (s : Store) : Prop :=
  ∀ name m, asked name → s.find? name = some m → known.find? name = some m

/-- Neither names asked for nor declared ones look like those made for template arguments. -/
structure Tame (known : Store) (asked : Text → Prop) : Prop where
  asked : ∀ name : Text, asked name → name.isPlain = true
  declared : ∀ name : Text, known.macros.contains name = true → name.isPlain = true

/-- From every store on the way, what `x` gives is what `p` gives, up to `r`, if in the end the macros found are known;
and where names are tame, `x` fails only as `p` does. -/
structure Refines {α β : Type} (known : Store) (asked : Text → Prop) (active : List Frame) (x : Engine α)
    (p : Except Fault β) (r : α → β → Prop) : Prop where
  ok : ∀ s a s', Ready known active s → x.runOn s = (.ok a, s') → Sees known asked s' → ∃ b, p = .ok b ∧ r a b
  error : ∀ s f s', Ready known active s → x.runOn s = (.error f, s') → Tame known asked →
    ∃ f', p = .error f' ∧ f.Alike f'

section Basic

variable {known : Store} {asked : Text → Prop} {active : List Frame} {s s' : Store}

lemma contains_of_reaches (h : s.Reaches s') {name : Text} (hc : s.contains name = true) :
    s'.contains name = true := by
  obtain ⟨m, hm⟩ := Option.isSome_iff_exists.1 hc
  exact Option.isSome_iff_exists.2 ⟨m, h.find?_eq_some hm⟩

lemma Ready.reaches (hs : Ready known active s) (h : s.Reaches s') : Ready known active s' where
  numbered := hs.numbered.reaches h
  macros := h.macros.trans hs.macros
  active := fun f hf => contains_of_reaches h (hs.active f hf)

lemma Ready.cons (hs : Ready known active s) {f : Frame} (hf : s.contains f.name.toList = true) :
    Ready known (f :: active) s where
  numbered := hs.numbered
  macros := hs.macros
  active := by
    intro g hg
    rcases List.mem_cons.1 hg with rfl | hg
    · exact hf
    · exact hs.active g hg

/-- A plain name means the same in the beginning, on the way and in the end. -/
lemma Ready.find?_of_isPlain (hs : Ready known active s) (hk : known.Numbered) {name : Text}
    (h : name.isPlain = true) : s.find? name = known.find? name := by
  rw [hs.numbered.find?_of_isPlain h, hk.find?_of_isPlain h, hs.macros]

lemma Sees.of_reaches (h' : Sees known asked s') (h : s.Reaches s') : Sees known asked s :=
  fun name m hname hm => h' name m hname (h.find?_eq_some hm)

lemma Tame.sees (ht : Tame known asked) (hk : known.Numbered) (hs : Ready known active s) : Sees known asked s := by
  intro name m hname hm
  rw [← hs.find?_of_isPlain hk (ht.asked name hname)]
  exact hm

end Basic

/-! ## the relation and its rules -/

namespace Refines

variable {known : Store} {asked : Text → Prop} {active : List Frame} {α β γ δ : Type}

lemma pure {r : α → β → Prop} {a : α} {b : β} (h : r a b) :
    Refines known asked active (pure a) (.ok b) r where
  ok := by
    rintro s a' s' - hrun -
    cases hrun
    exact ⟨b, rfl, h⟩
  error := by
    rintro s f s' - hrun -
    cases hrun

lemma fail {r : α → β → Prop} {cause cause' : Cause} (h : cause.kind = cause'.kind) (o : Origin) :
    Refines known asked active (fail cause o) (Flatten.refuse cause' o) r where
  ok := by
    rintro s a s' - hrun -
    cases hrun
  error := by
    rintro s f s' - hrun -
    cases hrun
    exact ⟨_, rfl, h, rfl⟩

/-- One computation, then another, possibly within more frames. -/
lemma bind {r : α → β → Prop} {r' : γ → δ → Prop} {x : Engine α} {p : Except Fault β} {f : α → Engine γ}
    {g : β → Except Fault δ} (inside : α → List Frame) (hk : known.Numbered) (hx : Refines known asked active x p r)
    (hready : ∀ s a s', Ready known active s → x.runOn s = (.ok a, s') → Ready known (inside a) s')
    (hg : ∀ a, Grows (f a)) (hf : ∀ a b, r a b → Refines known asked (inside a) (f a) (g b) r') :
    Refines known asked active (x >>= f) (p >>= g) r' where
  ok := by
    intro s c s₂ hs hrun hsees
    obtain ⟨a, s₁, ha, hc⟩ := runOn_bind_ok.1 hrun
    have hs₁ := hready s a s₁ hs ha
    have hsees₁ : Sees known asked s₁ := hsees.of_reaches ((hg a).of_runOn hc)
    obtain ⟨b, rfl, hr⟩ := hx.ok s a s₁ hs ha hsees₁
    exact (hf a b hr).ok s₁ c s₂ hs₁ hc hsees
  error := by
    intro s e s₂ hs hrun htame
    rcases runOn_bind_error.1 hrun with he | ⟨a, s₁, ha, he⟩
    · obtain ⟨e', rfl, halike⟩ := hx.error s e s₂ hs he htame
      exact ⟨e', rfl, halike⟩
    · have hs₁ := hready s a s₁ hs ha
      obtain ⟨b, rfl, hr⟩ := hx.ok s a s₁ hs ha (htame.sees hk hs₁)
      exact (hf a b hr).error s₁ e s₂ hs₁ he htame

/-- One computation, then another, within the same frames. -/
lemma seq {r : α → β → Prop} {r' : γ → δ → Prop} {x : Engine α} {p : Except Fault β} {f : α → Engine γ}
    {g : β → Except Fault δ} (hk : known.Numbered) (hx : Refines known asked active x p r) (hgx : Grows x)
    (hg : ∀ a, Grows (f a)) (hf : ∀ a b, r a b → Refines known asked active (f a) (g b) r') :
    Refines known asked active (x >>= f) (p >>= g) r' :=
  hx.bind (fun _ => active) hk (fun _ _ _ hs hrun => hs.reaches (hgx.of_runOn hrun)) hg hf

/-- The store is read for what a plain name means. -/
lemma lookup {r : α → β → Prop} {f : Store → Engine α} {p : Except Fault β} (hk : known.Numbered) {name : Text}
    (hname : name.isPlain = true)
    (hf : ∀ s : Store, s.find? name = known.find? name → Refines known asked active (f s) p r) :
    Refines known asked active (get >>= f) p r where
  ok := fun s a s' hs hrun => (hf s (hs.find?_of_isPlain hk hname)).ok s a s' hs hrun
  error := fun s e s' hs hrun => (hf s (hs.find?_of_isPlain hk hname)).error s e s' hs hrun

end Refines

/-- The expansion of a code, whose offsets fit. -/
def Expands (start : Address) (e : Expansion) (c : Code) : Prop :=
  e = Leaves.expansion start c.leaves ∧ Leaves.Fits start c.leaves

lemma expands_leaf (start : Address) (l : Leaf) (o : Origin) : Expands start (ofLeaf start o l) (.leaf l o) :=
  ⟨(expansion_leaf start l o).symm, fits_leaf start l o⟩

lemma Expands.size_eq {start : Address} {e : Expansion} {c : Code} (h : Expands start e c) : e.size = c.size := by
  rw [h.1, Leaves.size_expansion, Code.size_leaves]

/-! ## the operations of a frame -/

/-- How macros are expanded inside a frame refines how they are flattened there, be they named or made for a template
argument. -/
structure Mirrors (known : Store) (asked : Text → Prop) (active : List Frame) (inner : Request → Engine Expansion)
    (flat : Flatten.Inner) : Prop where
  grows : ∀ q, Grows (inner q)
  named : ∀ q, asked q.name →
    Refines known asked active (inner q) (flat (.named q.name q.args q.site) q.start) (Expands q.start)
  inline : ∀ (arg : Text) (kind : OpKind) (op : Op) (args : List Text) (start : Address), kind.callees = [] →
    Refines known asked active (addInline arg kind op >>= fun name => inner ⟨name, start, args, some op.origin⟩)
      (flat (.inline { op with kind := kind } args) start) (Expands start)

section Body

variable {known : Store} {asked : Text → Prop} {active : List Frame} {inner : Request → Engine Expansion}
  {flat : Flatten.Inner} (hc : Covers known asked) (hi : Mirrors known asked active inner flat)

include hc hi

lemma codeSize_refines {callee : Text} (h : asked callee) (args : List Text) (site : Origin) :
    Refines known asked active (codeSize inner callee args site) (Flatten.codeSize flat callee args site) Eq := by
  refine (hi.named ⟨callee, 0, args, some site⟩ h).seq hc.numbered (hi.grows _) (fun _ => grows_pure _) fun e c he => ?_
  exact .pure (congrArg Numeral.wrapCount he.size_eq)

lemma constant_refines {m : Macro} (hm : ∀ op ∈ m.ops, ∀ c ∈ op.kind.callees, asked c) (site : Origin) :
    Refines known asked active (constant inner site m) (Flatten.constant flat site m) Eq := by
  unfold constant Flatten.constant
  revert hm
  rcases m.ops with _ | ⟨⟨kind, index, o⟩, _ | ⟨op, ops⟩⟩
  · exact fun _ => .fail rfl site
  · intro hm
    cases kind with
    | push byte data => exact .pure rfl
    | codeSize callee args =>
      exact codeSize_refines hc hi (hm _ (List.mem_singleton_self _) callee (List.mem_singleton_self _)) args o
    | _ => exact .fail rfl site
  · intro _
    cases kind <;> exact .fail rfl site

lemma atomValue_refines {t : Text} (ht : t.isPlain = true) (site : Origin) :
    Refines known asked active (atomValue inner site t) (Flatten.atomValue known flat site t) Eq := by
  unfold atomValue Flatten.atomValue
  split
  · exact .fail rfl site
  · cases Numeral.value? t with
    | some n => exact .pure rfl
    | none =>
      refine Refines.lookup hc.numbered ht fun s hs => ?_
      rw [hs]
      cases hm : known.find? t with
      | some m => exact constant_refines hc hi (hc.callees t m (hc.plain t ht) hm) site
      | none => exact .fail rfl site

lemma eval_refines {a : Arith} (ha : a.All fun t => t.isPlain = true) (site : Origin) :
    Refines known asked active (a.eval (atomValue inner site)) (a.eval (Flatten.atomValue known flat site)) Eq := by
  induction a with
  | atom t => exact atomValue_refines hc hi ha site
  | op sign left right ihl ihr =>
    refine (ihl ha.1).seq hc.numbered (congruence_grows.eval inner hi.grows site left)
      (fun _ => (congruence_grows.eval inner hi.grows site right).bind fun _ => grows_pure _) fun x x' hx => ?_
    refine (ihr ha.2).seq hc.numbered (congruence_grows.eval inner hi.grows site right) (fun _ => grows_pure _)
      fun y y' hy => ?_
    rw [hx, hy]
    exact .pure rfl

/-- Both sides take a template argument for the same; it is an operation that asks for no macro, or a name. -/
lemma argumentKind_refines (arg : Text) (site : Origin) :
    Refines known asked active (argumentKind inner arg site) (Flatten.argumentKind known flat arg site)
      fun k k' => k = k' ∧ (∀ kind, k = some kind → kind.callees = []) ∧ (k = none → asked arg) := by
  have hsome : ∀ kind : OpKind, kind.callees = [] → (some kind = some kind) ∧
      (∀ kind', some kind = some kind' → kind'.callees = []) ∧ (some kind = none → asked arg) := by
    intro kind hkind
    refine ⟨rfl, ?_, by simp⟩
    rintro kind' ⟨⟩
    exact hkind
  unfold argumentKind Flatten.argumentKind
  by_cases hlit : Text.isLiteral arg = true
  · rw [if_pos hlit, if_pos hlit]
    refine (eval_refines hc hi (Arith.all_isPlain_read _) site).seq hc.numbered
      (congruence_grows.eval inner hi.grows site _) ?_ ?_
    · intro n
      split
      · exact grows_pure _
      · exact grows_fail _ _
    · rintro n _ rfl
      cases hv : OpKind.pushValue? n with
      | some kind =>
        obtain ⟨byte, -, rfl⟩ := Option.map_eq_some_iff.1 hv
        exact .pure (hsome _ rfl)
      | none => exact .fail rfl site
  · have hplain : arg.isPlain = true := Text.isPlain_of_not_isLiteral (Bool.not_eq_true _ ▸ hlit)
    rw [if_neg hlit, if_neg hlit]
    split
    · cases StackOffset.opcodeOf arg with
      | ok b => exact .pure (hsome _ rfl)
      | error cause => exact .fail rfl site
    · cases Opcode.ofMnemonic? arg with
      | some b => exact .pure (hsome _ rfl)
      | none =>
        refine Refines.lookup hc.numbered hplain fun s hs => ?_
        have hcontains : s.contains arg = known.contains arg := congrArg Option.isSome hs
        rw [hcontains]
        split
        · exact .pure ⟨rfl, by simp, fun _ => hc.plain arg hplain⟩
        · cases Text.stripBrackets? arg with
          | some inside => exact .pure (hsome _ rfl)
          | none =>
            dsimp only
            split
            · exact .pure (hsome _ rfl)
            · exact .fail rfl site

lemma layoutOp_refines {op : Op} (hop : ∀ c ∈ op.kind.callees, asked c) (b : Bindings) (start : Address) :
    Refines known asked active (layoutOp inner b start op) (Flatten.opCode known flat b start op) (Expands start) := by
  unfold layoutOp Flatten.opCode
  revert hop
  cases op.kind with
  | opcode byte => exact fun _ => .pure (expands_leaf start (.opcode byte) op.origin)
  | labelDef label => exact fun _ => .pure (expands_leaf start (.labelDef label) op.origin)
  | labelRef label => exact fun _ => .pure (expands_leaf start (.labelRef label) op.origin)
  | tableStart table => exact fun _ => .pure (expands_leaf start (.tableRef table) op.origin)
  | push byte data =>
    intro _
    dsimp only
    split
    · exact .pure (expands_leaf start (.push byte data) op.origin)
    · exact .fail rfl op.origin
  | call callee args =>
    intro hop
    exact hi.named ⟨callee, start, args.map b.substitute, some op.origin⟩ (hop callee (List.mem_singleton_self _))
  | codeSize callee args =>
    intro hop
    refine (codeSize_refines hc hi (hop callee (List.mem_singleton_self _)) _ op.origin).seq hc.numbered
      (congruence_grows.codeSize inner hi.grows callee _ op.origin) ?_ ?_
    · intro n
      dsimp only
      split
      · exact grows_pure _
      · exact grows_fail _ _
    · rintro n _ rfl
      dsimp only
      cases Opcode.pushOf? (Bytes.ofNat n).length with
      | some byte => exact .pure (expands_leaf start (.push byte (Bytes.ofNat n)) op.origin)
      | none => exact .fail rfl op.origin
  | template text =>
    intro _
    -- what the argument stands for is found out first, and then made a macro if it is none
    have hassoc : ∀ (arg : Text) (args : List Text),
        (resolveArgument inner arg op >>= fun name => inner ⟨name, start, args, some op.origin⟩) =
          (argumentKind inner arg op.origin >>= fun k => k.elim (inner ⟨arg, start, args, some op.origin⟩)
            fun kind => addInline arg kind op >>= fun name => inner ⟨name, start, args, some op.origin⟩) := by
      intro arg args
      rw [resolveArgument, bind_assoc]
      refine bind_congr fun k => ?_
      cases k <;> simp
    show Refines known asked active (resolveArgument inner _ op >>= fun name => inner ⟨name, start, _, _⟩) _ _
    rw [hassoc]
    refine (argumentKind_refines hc hi _ op.origin).seq hc.numbered
      (congruence_grows.argumentKind inner hi.grows _ op.origin) ?_ ?_
    · intro k
      cases k with
      | some kind => exact (grows_addInline _ kind op).bind fun _ => hi.grows _
      | none => exact hi.grows _
    · rintro k _ ⟨rfl, hkind, hname⟩
      cases k with
      | some kind => exact hi.inline _ kind op _ start (hkind kind rfl)
      | none => exact hi.named ⟨_, start, _, some op.origin⟩ (hname rfl)

/-- Operations that stand `done` bytes behind the start of their frame. -/
lemma layout_refines {ops : List Op} (hops : ∀ op ∈ ops, ∀ c ∈ op.kind.callees, asked c) (b : Bindings)
    (start : Address) (done : Nat) :
    Refines known asked active (layout inner b start done ops) (Flatten.opsCode known flat b (start + done) ops)
      fun e c => e = Leaves.expansion start (c.leaves.map (Placed.shift done)) ∧
        Leaves.Fits (start + done) c.leaves := by
  induction ops generalizing done with
  | nil => exact .pure ⟨rfl, by simp [Leaves.Fits, Code.leaves]⟩
  | cons op ops ih =>
    have hop := hops op (List.mem_cons_self ..)
    have hops' : ∀ op ∈ ops, ∀ c ∈ op.kind.callees, asked c := fun op' h => hops op' (List.mem_cons_of_mem _ h)
    refine (layoutOp_refines hc hi hop b (start + done)).seq hc.numbered
      (congruence_grows.layoutOp inner hi.grows b _ op)
      (fun _ => (congruence_grows.layout inner hi.grows b start ops _).bind fun _ => grows_pure _) ?_
    rintro first c hfirst
    have hsize := hfirst.size_eq
    obtain ⟨rfl, hfit⟩ := hfirst
    have hih := ih hops' (done + c.size)
    rw [← Address.add_add] at hih
    rw [hsize]
    refine hih.seq hc.numbered (congruence_grows.layout inner hi.grows b start ops _) (fun _ => grows_pure _) ?_
    rintro rest d ⟨rfl, hfit'⟩
    refine .pure ⟨?_, Flatten.fits_seq.2 ⟨hfit, hfit'⟩⟩
    rw [Code.map_shift_leaves_seq, Leaves.expansion_append, Leaves.shift_expansion]

lemma expandBody_refines {m : Macro} (hm : ∀ op ∈ m.ops, ∀ c ∈ op.kind.callees, asked c) (args : List Text)
    (start : Address) :
    Refines known asked active (expandBody inner m args start)
      (Flatten.opsCode known flat ⟨m.params, args⟩ start m.ops >>= Flatten.close start) (Expands start) := by
  have hlayout := layout_refines hc hi hm ⟨m.params, args⟩ start 0
  rw [start.add_zero] at hlayout
  refine hlayout.seq hc.numbered
    (congruence_grows.layout inner hi.grows _ start m.ops 0) (fun _ => grows_lift _) ?_
  rintro laid body ⟨rfl, hfit⟩
  have hzero : body.leaves.map (Placed.shift 0) = body.leaves := by simp [funext Placed.shift_zero]
  rw [hzero]
  rcases Code.resolve_cases body hfit with ⟨hf, hok⟩ | ⟨hf, v, o, -, hexcess, herr⟩
  · rw [hok, Flatten.close_eq_ok_iff.2 ⟨rfl, hf⟩]
    exact .pure ⟨rfl, hf⟩
  · have hclose : Flatten.close start body = .error (.located (.offsetTooLarge v) o) := by
      rw [Flatten.close, hexcess]
    rw [herr, hclose]
    exact .fail rfl o

end Body

/-! ## frames -/

/-- The frames of a flattening are those of an expansion but for some that no plain name can match. -/
structure Tracks (active tracked : List Frame) : Prop where
  mem : ∀ f ∈ tracked, f ∈ active
  plain : ∀ f ∈ active, Text.isPlain f.name.toList = true → f ∈ tracked

lemma Tracks.cons {active tracked : List Frame} (h : Tracks active tracked) (f : Frame) :
    Tracks (f :: active) (f :: tracked) where
  mem := by
    intro g hg
    rcases List.mem_cons.1 hg with rfl | hg
    · exact List.mem_cons_self ..
    · exact List.mem_cons_of_mem _ (h.mem g hg)
  plain := by
    intro g hg hplain
    rcases List.mem_cons.1 hg with rfl | hg
    · exact List.mem_cons_self ..
    · exact List.mem_cons_of_mem _ (h.plain g hg hplain)

lemma Tracks.cons_inline {active tracked : List Frame} (h : Tracks active tracked) {f : Frame}
    (hf : Text.isPlain f.name.toList = false) : Tracks (f :: active) tracked where
  mem := fun g hg => List.mem_cons_of_mem _ (h.mem g hg)
  plain := by
    intro g hg hplain
    rcases List.mem_cons.1 hg with rfl | hg
    · rw [hf] at hplain
      cases hplain
    · exact h.plain g hg hplain

section Frames

variable {known : Store} {asked : Text → Prop} {active tracked : List Frame} {limits : Limits}

lemma enter_refines (hk : known.Numbered) (ht : Tracks active tracked) {q : Request} (hq : asked q.name) :
    Refines known asked active (enter limits active q)
      (Flatten.opened known limits tracked (.named q.name q.args q.site)) fun x o =>
        known.find? q.name = some x.1 ∧
          o = ⟨⟨x.1.params, x.2⟩, x.1.ops, .of q.name x.2 :: tracked, q.site.getD x.1.origin⟩ where
  ok := by
    rintro s ⟨m, args⟩ s' hs hrun hsees
    obtain ⟨hpermit, rfl⟩ := Prod.mk.inj hrun
    obtain ⟨hm, hargs, harity, hcycle⟩ := permit_eq_ok_iff.1 hpermit
    have hknown := hsees q.name m hq hm
    have hflat : permit limits known tracked ⟨q.name, 0, q.args, q.site⟩ = .ok (m, args) :=
      permit_eq_ok_iff.2 ⟨hknown, hargs, harity, fun h => hcycle ⟨h.1, ht.mem _ h.2⟩⟩
    refine ⟨_, ?_, hknown, rfl⟩
    rw [Flatten.opened, hflat]
    rfl
  error := by
    intro s f s' hs hrun htame
    obtain ⟨hpermit, rfl⟩ := Prod.mk.inj hrun
    have hplain := htame.asked q.name hq
    have hactive : ∀ args, active.contains (Frame.of q.name args) = tracked.contains (Frame.of q.name args) := by
      intro args
      rw [Bool.eq_iff_iff, List.contains_iff_mem, List.contains_iff_mem]
      exact ⟨fun h => ht.plain _ h (by rw [Frame.toList_name_of]; exact hplain), ht.mem _⟩
    suffices h : ∃ f', permit limits known tracked ⟨q.name, 0, q.args, q.site⟩ = .error f' ∧ f.Alike f' by
      obtain ⟨f', hf', halike⟩ := h
      refine ⟨f', ?_, halike⟩
      rw [Flatten.opened, hf']
      rfl
    unfold permit at hpermit ⊢
    rw [hs.find?_of_isPlain hk hplain] at hpermit
    dsimp only at hpermit ⊢
    cases hm : known.find? q.name with
    | none =>
      rw [hm] at hpermit
      cases hpermit
      exact ⟨_, rfl, .refl _⟩
    | some m =>
      rw [hm] at hpermit
      dsimp only at hpermit ⊢
      rw [hactive] at hpermit
      split at hpermit
      · next harity =>
        cases hpermit
        rw [if_pos harity]
        exact ⟨_, rfl, .refl _⟩
      · next harity =>
        rw [if_neg harity]
        split at hpermit
        · next hcycle =>
          cases hpermit
          rw [if_pos hcycle]
          exact ⟨_, rfl, rfl, rfl⟩
        · cases hpermit

/-- A macro that has just been made for a template argument can be entered, but takes no arguments. -/
lemma permit_withInline {s : Store} (hs : Ready known active s) {arg : Text}
    (hnew : s.contains (inlineName arg s.inlineCount) = false) (kind : OpKind) (op : Op) (start : Address)
    (args : List Text) :
    permit limits (s.withInline arg kind op) active ⟨inlineName arg s.inlineCount, start, args, some op.origin⟩ =
      if (args.flatMap Text.splitArguments).isEmpty then
        .ok (inlineMacro (inlineName arg s.inlineCount) arg kind op, [])
      else .error (.located (.argumentCount (inlineName arg s.inlineCount) 0
        (args.flatMap Text.splitArguments).length) op.origin) := by
  -- a frame of this name would have been in the store before
  have hfresh : ∀ args, Frame.of (inlineName arg s.inlineCount) args ∉ active := by
    intro args hmem
    have hfound := hs.active _ hmem
    rw [Frame.toList_name_of, hnew] at hfound
    cases hfound
  split
  · next hempty =>
    have hnil : args.flatMap Text.splitArguments = [] := List.isEmpty_iff.1 hempty
    exact permit_eq_ok_iff.2 ⟨Store.find?_withInline hnew kind op, hnil.symm, rfl, fun h => hfresh [] h.2⟩
  · next hempty =>
    have hlength : ((inlineMacro (inlineName arg s.inlineCount) arg kind op).params.length !=
        (args.flatMap Text.splitArguments).length) = true := by
      cases h : args.flatMap Text.splitArguments with
      | nil => simp [h] at hempty
      | cons a as => rfl
    unfold permit
    rw [Store.find?_withInline hnew kind op]
    dsimp only
    rw [if_pos hlength]
    rfl

lemma withInline_step {s : Store} {arg : Text} (hnew : s.contains (inlineName arg s.inlineCount) = false)
    (kind : OpKind) (op : Op) : s.Step (s.withInline arg kind op) := by
  refine ⟨arg, kind, op, ?_⟩
  rw [runOn_addInline, hnew]
  rfl

/-- A template argument is made a macro, which is entered. -/
lemma runOn_addInline_enter {s : Store} (hs : Ready known active s) {arg : Text}
    (hnew : s.contains (inlineName arg s.inlineCount) = false) (kind : OpKind) (op : Op) (start : Address)
    (args : List Text) (f : Text → Macro × List Text → Engine Expansion) :
    (addInline arg kind op >>= fun name =>
      enter limits active ⟨name, start, args, some op.origin⟩ >>= f name).runOn s =
    if (args.flatMap Text.splitArguments).isEmpty then
      (f (inlineName arg s.inlineCount) (inlineMacro (inlineName arg s.inlineCount) arg kind op, [])).runOn
        (s.withInline arg kind op)
    else (.error (.located (.argumentCount (inlineName arg s.inlineCount) 0
      (args.flatMap Text.splitArguments).length) op.origin), s.withInline arg kind op) := by
  have hadd : (addInline arg kind op : Engine Text).runOn s =
      (.ok (inlineName arg s.inlineCount), s.withInline arg kind op) := by
    rw [runOn_addInline, hnew]
    rfl
  have henter : (enter limits active ⟨inlineName arg s.inlineCount, start, args, some op.origin⟩ :
      Engine (Macro × List Text)).runOn (s.withInline arg kind op) = (permit limits (s.withInline arg kind op) active
        ⟨inlineName arg s.inlineCount, start, args, some op.origin⟩, s.withInline arg kind op) := rfl
  rw [runOn_bind, hadd]
  dsimp only
  rw [runOn_bind, henter, permit_withInline hs hnew]
  by_cases hempty : (args.flatMap Text.splitArguments).isEmpty = true
  · rw [if_pos hempty, if_pos hempty]
  · rw [if_neg hempty, if_neg hempty]

lemma addInline_enter_refines {f : Text → Macro × List Text → Engine Expansion}
    {g : Flatten.Opened → Except Fault Code} {r : Expansion → Code → Prop} {arg : Text} {kind : OpKind} {op : Op}
    {start : Address} {args : List Text}
    (hf : ∀ name : Text, name.isPlain = false →
      Refines known asked (.of name [] :: active) (f name (inlineMacro name arg kind op, []))
        (g ⟨⟨[], []⟩, [{ op with kind := kind }], tracked, op.origin⟩) r) :
    Refines known asked active
      (addInline arg kind op >>= fun name => enter limits active ⟨name, start, args, some op.origin⟩ >>= f name)
      (Flatten.opened known limits tracked (.inline { op with kind := kind } args) >>= g) r := by
  have hready : ∀ s, Ready known active s → s.contains (inlineName arg s.inlineCount) = false →
      Ready known (.of (inlineName arg s.inlineCount) [] :: active) (s.withInline arg kind op) := by
    intro s hs hnew
    refine (hs.reaches (.single (withInline_step hnew kind op))).cons ?_
    rw [Frame.toList_name_of, Store.contains, Store.find?_withInline hnew]
    rfl
  have hbody := fun n => hf (inlineName arg n) (not_isPlain_inlineName arg n)
  rw [Flatten.opened]
  constructor
  · intro s e s' hs hrun hsees
    cases hnew : s.contains (inlineName arg s.inlineCount) with
    | true =>
      rw [runOn_bind, runOn_addInline, hnew] at hrun
      cases hrun
    | false =>
      rw [runOn_addInline_enter hs hnew] at hrun
      split at hrun
      · next hempty =>
        rw [if_pos hempty]
        exact (hbody s.inlineCount).ok _ e s' (hready s hs hnew) hrun hsees
      · cases hrun
  · intro s e s' hs hrun htame
    have hnew : s.contains (inlineName arg s.inlineCount) = false := by
      rw [hs.numbered.contains_inlineName, hs.macros, ← Bool.not_eq_true]
      intro hcontains
      have hplain := htame.declared _ hcontains
      rw [not_isPlain_inlineName] at hplain
      cases hplain
    rw [runOn_addInline_enter hs hnew] at hrun
    split at hrun
    · next hempty =>
      rw [if_pos hempty]
      exact (hbody s.inlineCount).error _ e s' (hready s hs hnew) hrun htame
    · next hempty =>
      rw [if_neg hempty]
      cases hrun
      exact ⟨_, rfl, rfl, rfl⟩

end Frames

/-- **Expansion refines flattening**, within any number of frames. -/
theorem expand_mirrors {known : Store} {asked : Text → Prop} (hc : Covers known asked) (limits : Limits)
    (budget : Nat) : ∀ active tracked : List Frame, Tracks active tracked →
      Mirrors known asked active (expand limits budget active) (Flatten.code known limits budget tracked) := by
  induction budget with
  | zero =>
    intro active tracked ht
    refine ⟨expand_grows limits 0 active, ?_, ?_⟩
    · intro q hq
      refine (enter_refines hc.numbered ht hq).seq hc.numbered (congruence_grows.enter limits active q)
        (fun _ => grows_fail _ _) ?_
      rintro ⟨m, args⟩ o ⟨-, rfl⟩
      exact .fail rfl _
    · intro arg kind op args start _
      refine addInline_enter_refines fun name _ => .fail ?_ op.origin
      rfl
  | succ budget ih =>
    intro active tracked ht
    refine ⟨expand_grows limits (budget + 1) active, ?_, ?_⟩
    · intro q hq
      refine (enter_refines hc.numbered ht hq).bind (fun x => .of q.name x.2 :: active) hc.numbered ?_ ?_ ?_
      · rintro s ⟨m, args⟩ s' hs hrun
        obtain ⟨hpermit, rfl⟩ := Prod.mk.inj hrun
        refine hs.cons ?_
        rw [Frame.toList_name_of, Store.contains, (permit_eq_ok_iff.1 hpermit).1]
        rfl
      · rintro ⟨m, args⟩
        exact expandBody_grows (expand_grows limits budget _) m args q.start
      · rintro ⟨m, args⟩ o ⟨hm, rfl⟩
        exact expandBody_refines hc (ih _ _ (ht.cons _)) (hc.callees q.name m hq hm) args q.start
    · intro arg kind op args start hkind
      refine addInline_enter_refines fun name hname => ?_
      have htracks : Tracks (.of name [] :: active) tracked := by
        refine ht.cons_inline ?_
        rw [Frame.toList_name_of]
        exact hname
      refine expandBody_refines hc (ih _ _ htracks) ?_ [] start
      intro op' hop' c hcallee
      rw [List.mem_singleton.1 hop', hkind] at hcallee
      cases hcallee

/-- **What is expanded is the code that flattening gives for the macros known in the end**, whatever they are called. -/
theorem expand_flattens {s s' : Store} (hs : s.Numbered) {limits : Limits} {budget : Nat} {active : List Frame}
    (hactive : ∀ f ∈ active, s.contains f.name.toList = true) {q : Request} {e : Expansion}
    (h : (expand limits budget active q).runOn s = (.ok e, s')) :
    ∃ c, Flatten.code s' limits budget active (.named q.name q.args q.site) q.start = .ok c ∧ Expands q.start e c := by
  have hgrows := (expand_grows limits budget active q).of_runOn h
  have hcovers : Covers s' fun _ => True := ⟨hs.reaches hgrows, fun _ _ => trivial, fun _ _ _ _ _ _ _ _ => trivial⟩
  have hmirrors := expand_mirrors hcovers limits budget active active ⟨fun _ h => h, fun _ h _ => h⟩
  exact (hmirrors.named q trivial).ok s e s' ⟨hs, hgrows.macros.symm, hactive⟩ h fun _ _ _ hm => hm

end Engine
end MacroAsm
