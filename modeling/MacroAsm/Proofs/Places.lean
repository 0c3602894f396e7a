import MacroAsm.Proofs.Bare
import MacroAsm.Proofs.Growth
import MacroAsm.Report

/-!
# Places do not show in the code

Every operation, macro, table and reference carries the place where it was written. Expanding and linking hand these
places on, to the bytes and to what is said of failures, and never look at them: what they give without any places is
what they give with them, the places taken away. So two sources with one text are assembled to the same code.

* `Store.bare`, `Expansion.bare`, `Request.bare`: the same without places;
* `Engine.Erases e x y`: without places, `y` gives what `x` gives;
* `Engine.expand_erases`: expansion without places; `Linked.concur_link`: linking without places;
* `Report.SameCode`: reports that differ in places only; `Report.ofSources_sameCode`: sources with one text.
-/

namespace MacroAsm

/-! ## stores and expansions without places -/

/-- The macros known so far, without places. -/
def Store.bare (s : Store) : Store := ⟨s.macros.bare, s.inlines.map Macro.bare, s.inlineCount⟩

lemma Store.find?_bare (s : Store) (name : Text) : s.bare.find? name = (s.find? name).map Macro.bare := by
  rw [find?_eq, find?_eq, Option.map_or]
  exact congrArg₂ Option.or (MacroTable.find?_bare ..) (List.find?_map ..)

lemma Store.contains_bare (s : Store) (name : Text) : s.bare.contains name = s.contains name := by
  rw [contains, find?_bare, Option.isSome_map, contains]

/-- The reference without its place. -/
def LabelRef.bare (r : LabelRef) : LabelRef := { r with origin := .unknown }

/-- The reference without its place. -/
def TableRef.bare (r : TableRef) : TableRef := { r with origin := .unknown }

/-- What is asked, by nobody in particular. -/
def Request.bare (q : Request) : Request := { q with site := q.site.map fun _ => .unknown }

namespace Expansion

/-- The stretch of code without the places of its bytes and references. -/
def bare (e : Expansion) : Expansion :=
  { e with
    origins := e.origins.map fun _ => .unknown
    unmatched := e.unmatched.map LabelRef.bare
    tableRefs := e.tableRefs.map TableRef.bare }

lemma bare_ofBytes (bs : Bytes) (o : Origin) : (ofBytes bs o).bare = ofBytes bs .unknown := by
  simp only [bare, ofBytes, List.map_replicate, List.map_nil]

lemma bare_shift (k : Nat) (e : Expansion) : (e.shift k).bare = e.bare.shift k := by
  simp only [bare, shift, List.map_map]
  rfl

lemma bare_append (a b : Expansion) : (a ++ b).bare = a.bare ++ b.bare := by
  change Expansion.bare (a.append b) = a.bare.append b.bare
  simp only [bare, Expansion.append, List.map_append]

end Expansion

lemma Image.concur_patchFor (i : Image) (o o' : Origin) (offset value : Nat) :
    Concur Fault.kind Eq (i.patchFor o offset value) (i.patchFor o' offset value) := by
  unfold patchFor
  rcases (patch offset value).run i with ⟨_ | _, _⟩
  · exact .error rfl
  · exact .ok rfl

namespace Expansion

lemma concur_resolveRefs (labels : List (Text × Address)) (refs : List LabelRef) (i : Image) :
    Concur Fault.kind (fun a b => (a.1.map LabelRef.bare, a.2) = b) (resolveRefs labels refs i)
      (resolveRefs labels (refs.map LabelRef.bare) i) := by
  induction refs generalizing i with
  | nil => exact .ok rfl
  | cons r refs ih =>
    rw [List.map_cons, resolveRefs, resolveRefs]
    have hlabel : r.bare.label = r.label := rfl
    rw [hlabel]
    cases labelOffset? labels r.label with
    | none =>
      refine (ih i).bind fun a b hb => .ok ?_
      rw [← hb]
      rfl
    | some target =>
      refine (i.concur_patchFor r.origin .unknown r.offset target.toNat).bind fun i' _ hi' => ?_
      cases hi'
      exact ih i'

lemma concur_resolve (e : Expansion) :
    Concur Fault.kind (fun a b => a.bare = b) e.resolve e.bare.resolve := by
  refine (concur_resolveRefs e.labels e.unmatched e.image).bind fun a b hb => .ok ?_
  rw [← hb]
  rfl

end Expansion

lemma Store.concur_insertInline (s : Store) (m : Macro) :
    Concur Fault.kind (fun a b => a.bare = b) (s.insertInline m) (s.bare.insertInline m.bare) := by
  unfold insertInline
  have hcontains : s.bare.contains m.bare.name = s.contains m.name := s.contains_bare m.name
  rw [hcontains]
  split
  · exact .error rfl
  · exact .ok rfl

lemma concur_permit (limits : Limits) (s : Store) (active : List Frame) (q : Request) :
    Concur Fault.kind (fun a b => Prod.map Macro.bare id a = b) (permit limits s active q)
      (permit limits s.bare active q.bare) := by
  unfold permit
  have hfind : s.bare.find? q.bare.name = (s.find? q.name).map Macro.bare := Store.find?_bare ..
  rw [hfind]
  cases s.find? q.name with
  | none => exact .error rfl
  | some m =>
    change Concur _ _ (if _ then _ else _) (if _ then _ else _)
    have hparams : m.bare.params = m.params := rfl
    have hargs : q.bare.args = q.args := rfl
    have hname : q.bare.name = q.name := rfl
    rw [hparams, hargs, hname]
    split
    · exact .error rfl
    · split
      · exact .error rfl
      · exact .ok rfl

/-! ## computations without places -/

namespace Engine

/-- From a store without places, `y` gives what `x` gives from the store with them, with its places taken away by `e`,
and leaves the store that `x` leaves; or both fail for causes of one kind. -/
def Erases {α : Type} (e : α → α) (x y : Engine α) : Prop :=
  ∀ s, Concur Fault.kind (fun a b => e a = b) (x.runOn s).1 (y.runOn s.bare).1 ∧
    (x.runOn s).2.bare = (y.runOn s.bare).2

namespace Erases

variable {α β : Type} {e : α → α}

lemma pure {a b : α} (h : e a = b) : Erases e (pure a) (pure b) := fun _ => ⟨.ok h, rfl⟩

lemma fail (cause : Cause) (o o' : Origin) : Erases e (fail cause o) (fail cause o') := fun _ => ⟨.error rfl, rfl⟩

lemma lift {x y : Except Fault α} (h : Concur Fault.kind (fun a b => e a = b) x y) : Erases e (liftM x) (liftM y) :=
  fun _ => ⟨h, rfl⟩

lemma get : Erases Store.bare get get := fun _ => ⟨.ok rfl, rfl⟩

lemma set (s : Store) : Erases id (set s) (set s.bare) := fun _ => ⟨.ok rfl, rfl⟩

lemma bind {e' : β → β} {x y : Engine α} {f g : α → Engine β} (hx : Erases e x y)
    (hf : ∀ a, Erases e' (f a) (g (e a))) : Erases e' (x >>= f) (y >>= g) := by
  intro s
  have hs := hx s
  rw [runOn_bind, runOn_bind]
  generalize x.runOn s = outcome at hs ⊢
  generalize y.runOn s.bare = outcome' at hs ⊢
  obtain ⟨a, s₁⟩ := outcome
  obtain ⟨b, s₂⟩ := outcome'
  obtain ⟨hout, rfl⟩ := hs
  cases hout with
  | ok h =>
    subst h
    exact hf _ s₁
  | error h => exact ⟨.error h, rfl⟩

end Erases

lemma addInline_erases (arg : Text) (kind : OpKind) (op : Op) :
    Erases id (addInline arg kind op) (addInline arg kind op.bare) := by
  refine Erases.get.bind fun s => (Erases.set _).bind fun _ => ?_
  refine (Erases.lift (e := Store.bare) (Store.concur_insertInline _ _)).bind fun s' => (Erases.set s').bind fun _ =>
    .pure rfl

variable {inner inner' : Request → Engine Expansion} (hi : ∀ q, Erases Expansion.bare (inner q) (inner' q.bare))

include hi

lemma codeSize_erases (callee : Text) (args : List Text) (site : Origin) :
    Erases id (codeSize inner callee args site) (codeSize inner' callee args .unknown) :=
  (hi _).bind fun _ => .pure rfl

lemma constant_erases (site : Origin) (m : Macro) :
    Erases id (constant inner site m) (constant inner' .unknown m.bare) := by
  obtain ⟨name, takes, returns, params, ops, body, origin⟩ := m
  cases ops with
  | nil => exact .fail _ _ _
  | cons op rest =>
    obtain ⟨kind, index, o⟩ := op
    cases rest with
    | nil =>
      cases kind with
      | push byte data => exact .pure rfl
      | codeSize callee args => exact codeSize_erases hi callee args o
      | opcode | labelDef | labelRef | call | template | tableStart => exact .fail _ _ _
    | cons op' rest => cases kind <;> exact .fail _ _ _

lemma atomValue_erases (site : Origin) (t : Text) :
    Erases id (atomValue inner site t) (atomValue inner' .unknown t) := by
  unfold atomValue
  split
  · exact .fail _ _ _
  · split
    · exact .pure rfl
    · refine Erases.get.bind fun s => ?_
      rw [Store.find?_bare]
      cases s.find? t with
      | none => exact .fail _ _ _
      | some m => exact constant_erases hi site m

lemma eval_erases (site : Origin) (a : Arith) :
    Erases id (a.eval (atomValue inner site)) (a.eval (atomValue inner' .unknown)) := by
  induction a with
  | atom t => exact atomValue_erases hi site t
  | op sign left right ihl ihr => exact ihl.bind fun _ => ihr.bind fun _ => .pure rfl

lemma argumentKind_erases (arg : Text) (site : Origin) :
    Erases id (argumentKind inner arg site) (argumentKind inner' arg .unknown) := by
  unfold argumentKind
  split
  · refine (eval_erases hi site _).bind fun n => ?_
    rw [id]
    cases OpKind.pushValue? n with
    | none => exact .fail _ _ _
    | some kind => exact .pure rfl
  · split
    · cases StackOffset.opcodeOf arg with
      | ok byte => exact .pure rfl
      | error cause => exact .fail _ _ _
    · cases Opcode.ofMnemonic? arg with
      | some byte => exact .pure rfl
      | none =>
        refine Erases.get.bind fun s => ?_
        rw [Store.contains_bare]
        split
        · exact .pure rfl
        · cases Text.stripBrackets? arg with
          | some inside => exact .pure rfl
          | none =>
            dsimp only
            split
            · exact .pure rfl
            · exact .fail _ _ _

lemma resolveArgument_erases (arg : Text) (op : Op) :
    Erases id (resolveArgument inner arg op) (resolveArgument inner' arg op.bare) := by
  refine (argumentKind_erases hi arg op.origin).bind fun kind => ?_
  cases kind with
  | some kind => exact addInline_erases arg kind op
  | none => exact .pure rfl

lemma layoutOp_erases (b : Bindings) (start : Address) (op : Op) :
    Erases Expansion.bare (layoutOp inner b start op) (layoutOp inner' b start op.bare) := by
  obtain ⟨kind, index, o⟩ := op
  cases kind with
  | opcode byte => exact .pure (Expansion.bare_ofBytes [byte] o)
  | push byte data =>
    change Erases _ (if _ then _ else _) (if _ then _ else _)
    split
    · exact .pure (Expansion.bare_ofBytes (byte :: data) o)
    · exact .fail _ _ _
  | labelDef label => exact .pure rfl
  | labelRef label => exact .pure rfl
  | tableStart table => exact .pure rfl
  | call callee args => exact hi ⟨callee, start, args.map b.substitute, some o⟩
  | template text =>
    have htarget := resolveArgument_erases hi (argumentTarget (b.substitute text)).1 ⟨.template text, index, o⟩
    refine htarget.bind fun name => ?_
    exact hi ⟨name, start, (argumentTarget (b.substitute text)).2, some o⟩
  | codeSize callee args =>
    refine (codeSize_erases hi callee (args.map b.substitute) o).bind fun n => ?_
    dsimp only [id]
    cases Opcode.pushOf? (Bytes.ofNat n).length with
    | some byte => exact .pure (Expansion.bare_ofBytes (byte :: Bytes.ofNat n) o)
    | none => exact .fail _ _ _

lemma layout_erases (b : Bindings) (start : Address) (ops : List Op) (done : Nat) :
    Erases Expansion.bare (layout inner b start done ops) (layout inner' b start done (ops.map Op.bare)) := by
  induction ops generalizing done with
  | nil => exact .pure rfl
  | cons op ops ih =>
    refine (layoutOp_erases hi b _ op).bind fun first => (ih _).bind fun rest => .pure ?_
    rw [Expansion.bare_append, Expansion.bare_shift]

lemma expandBody_erases (m : Macro) (args : List Text) (start : Address) :
    Erases Expansion.bare (expandBody inner m args start) (expandBody inner' m.bare args start) :=
  (layout_erases hi _ start m.ops 0).bind fun laid => .lift laid.concur_resolve

omit hi

lemma enter_erases (limits : Limits) (active : List Frame) (q : Request) :
    Erases (Prod.map Macro.bare id) (enter limits active q) (enter limits active q.bare) :=
  Erases.get.bind fun s => .lift (concur_permit limits s active q)

/-- **Expansion without places** gives what it gives with them. -/
theorem expand_erases (limits : Limits) (budget : Nat) (active : List Frame) (q : Request) :
    Erases Expansion.bare (expand limits budget active q) (expand limits budget active q.bare) := by
  induction budget generalizing active q with
  | zero => exact (enter_erases limits active q).bind fun _ => .fail _ _ _
  | succ budget ih =>
    refine (enter_erases limits active q).bind fun x => ?_
    exact expandBody_erases (ih _) x.1 x.2 q.start

end Engine
namespace Processor

lemma concur_closed (root : Text) (e : Expansion) :
    Concur Failure.kind (fun a b => a.bare = b) (closed root e) (closed root e.bare) := by
  unfold closed
  have hunmatched : e.bare.unmatched.isEmpty = e.unmatched.isEmpty := List.isEmpty_map
  rw [hunmatched]
  split
  · exact .ok rfl
  · exact .error rfl

lemma concur_process (limits : Limits) (root : Text) (start : Address) (s : Store) :
    Concur Failure.kind (fun a b => a.bare = b) (process limits root start s).1
      (process limits root start s.bare).1 := by
  have hexpand := (Engine.expand_erases limits limits.maxDepth [] ⟨root, start, [], none⟩ s).1
  unfold process
  change Concur Fault.kind _ ((expand limits ⟨root, start, [], none⟩).run s).1
    ((expand limits ⟨root, start, [], none⟩).run s.bare).1 at hexpand
  generalize (expand limits ⟨root, start, [], none⟩).run s = outcome at hexpand ⊢
  generalize (expand limits ⟨root, start, [], none⟩).run s.bare = outcome' at hexpand ⊢
  obtain ⟨a, s₁⟩ := outcome
  obtain ⟨b, s₂⟩ := outcome'
  cases hexpand with
  | ok h =>
    cases h
    exact concur_closed root _
  | error h => exact .error h

end Processor

/-! ## linking without places -/

namespace Linked

/-- Linked programs that differ in places only. -/
structure SameCode (a b : Linked) : Prop where
  bytes : a.bytes = b.bytes
  labels : a.labels = b.labels
  tables : a.tables = b.tables
  origins : a.origins.length = b.origins.length

lemma concur_entry (root : Expansion) (t : Table) (width : Nat) (offset : Address) (label : Text) :
    Concur Fault.kind (fun a b => a.1 = b.1) (entry root t width offset label)
      (entry root.bare t.bare width offset label) := by
  unfold entry
  have hlabels : root.bare.labels = root.labels := rfl
  rw [hlabels]
  cases Expansion.labelOffset? root.labels label with
  | none => exact .ok rfl
  | some target =>
    dsimp only
    split
    · exact .error rfl
    · exact .ok rfl

lemma concur_entries (root : Expansion) (t : Table) (width : Nat) (offset : Address) (labels : List Text) :
    Concur Fault.kind (fun a b => a.1 = b.1) (entries root t width offset labels)
      (entries root.bare t.bare width offset labels) := by
  induction labels generalizing offset with
  | nil => exact .ok rfl
  | cons label labels ih =>
    refine (concur_entry root t width offset label).bind fun a b hab => ?_
    exact (ih (offset + width)).bind fun c d hcd => .ok (congrArg₂ (· ++ ·) hab hcd)

lemma concur_payload (root : Expansion) (t : Table) (offset : Address) :
    Concur Fault.kind (fun a b => a.1 = b.1) (payload root t offset) (payload root.bare t.bare offset) := by
  unfold payload
  have hpayload : t.bare.payload = t.payload := rfl
  rw [hpayload]
  cases t.payload with
  | code bytes => exact .ok rfl
  | jumps labels packed => exact concur_entries root t (entryWidth packed) offset labels

lemma concur_appendix (root : Expansion) (offset : Address) (ts : TableSet) :
    Concur Fault.kind (fun a b => a.bytes = b.bytes ∧ a.tables = b.tables ∧ a.origins.length = b.origins.length)
      (appendix root offset ts) (appendix root.bare offset ts.bare) := by
  induction ts generalizing offset with
  | nil => exact .ok ⟨rfl, rfl, rfl⟩
  | cons t ts ih =>
    refine (concur_payload root t offset).bind fun a b hab => ?_
    obtain ⟨bytes, warnings⟩ := a
    obtain ⟨_, warnings'⟩ := b
    cases hab
    refine (ih (offset + bytes.length)).bind fun c d hcd => .ok ⟨congrArg₂ (· ++ ·) rfl hcd.1, ?_, ?_⟩
    · exact congrArg ((t.name, offset) :: ·) hcd.2.1
    · simp only [List.length_append, List.length_replicate, hcd.2.2]

lemma bare_separator (ts : TableSet) : (separator ts).bare = separator ts.bare := by
  cases ts with
  | nil => rfl
  | cons t ts => exact Expansion.bare_ofBytes [Opcode.stop] t.origin

lemma concur_patchRefs (start : Address) (offsets : List (Text × Address)) (i : Image) (refs : List TableRef) :
    Concur Fault.kind Eq (patchRefs start offsets i refs) (patchRefs start offsets i (refs.map TableRef.bare)) := by
  induction refs generalizing i with
  | nil => exact .ok rfl
  | cons r refs ih =>
    have hfirst : Concur Fault.kind Eq (patchRef start offsets i r) (patchRef start offsets i r.bare) := by
      unfold patchRef
      have htable : r.bare.table = r.table := rfl
      have hoffset : r.bare.offset = r.offset := rfl
      rw [htable, hoffset]
      split
      · exact .error rfl
      · split
        · exact .error rfl
        · exact i.concur_patchFor ..
    refine hfirst.bind fun i' _ hi' => ?_
    cases hi'
    exact ih i'

lemma concur_checkPatched (start : Address) (origins origins' : List Origin) (i : Image) :
    Concur Fault.kind Eq (checkPatched start origins i) (checkPatched start origins' i) := by
  unfold checkPatched
  split
  · exact .ok rfl
  · exact .error rfl

/-- **Linking without places** gives the same code. -/
theorem concur_link (root : Expansion) (tables : TableSet) (start : Address) :
    Concur Fault.kind SameCode (link root tables start) (link root.bare tables.bare start) := by
  have hsep : (separator tables.bare).size = (separator tables).size := by
    rw [← bare_separator]
    rfl
  unfold link
  dsimp only
  rw [hsep]
  refine (concur_appendix root _ tables).bind fun app app' ⟨hbytes, htables, horigins⟩ => ?_
  rw [← htables]
  refine (concur_patchRefs start app.tables root.image root.tableRefs).bind fun patched _ hpatched => ?_
  cases hpatched
  refine (concur_checkPatched start root.origins root.bare.origins patched).bind fun _ _ _ => .ok ⟨?_, rfl, rfl, ?_⟩
  · dsimp only
    rw [← bare_separator, hbytes]
    rfl
  · dsimp only
    rw [← bare_separator]
    simp only [List.length_append, Expansion.bare, List.length_map, horigins]

end Linked

/-! ## reports without places -/

namespace Report

/-- Reports of one code; the source maps have the same length. -/
structure SameCode (a b : Report) : Prop where
  bytes : a.bytes = b.bytes
  labels : a.labels = b.labels
  tables : a.tables = b.tables
  takes : a.takes = b.takes
  returns : a.returns = b.returns
  origins : a.origins.length = b.origins.length

lemma SameCode.of_common {a b c : Report} (ha : a.SameCode c) (hb : b.SameCode c) : a.SameCode b where
  bytes := ha.bytes.trans hb.bytes.symm
  labels := ha.labels.trans hb.labels.symm
  tables := ha.tables.trans hb.tables.symm
  takes := ha.takes.trans hb.takes.symm
  returns := ha.returns.trans hb.returns.symm
  origins := ha.origins.trans hb.origins.symm

/-- The report of a root macro of a program. -/
def ofProgram (options : Options) (root : Text) (p : Program) (warnings : List Diagnostic) : Except Failure Report := do
  let e ← (Processor.process { maxDepth := options.maxDepth } root options.start { macros := p.macros }).1
  let linked ← explained (Linked.link e p.tables options.start)
  return ofLinked root (p.macros.find? root) options.start linked warnings

lemma ofSources_eq (options : Options) (root : Text) (files : Sources) (warnings : List Diagnostic) :
    ofSources options root files warnings =
      explained (Program.read files) >>= fun p => ofProgram options root p warnings := rfl

lemma concur_explained {α β : Type} {r : α → β → Prop} {x : Except Fault α} {y : Except Fault β}
    (h : Concur Fault.kind r x y) : Concur Failure.kind r (explained x) (explained y) := by
  cases h with
  | ok h => exact .ok h
  | error h => exact .error h

/-- A program without places has a report of the same code. -/
lemma concur_ofProgram (options : Options) (root : Text) (p : Program) (w w' : List Diagnostic) :
    Concur Failure.kind SameCode (ofProgram options root p w) (ofProgram options root p.bare w') := by
  refine (Processor.concur_process _ root options.start { macros := p.macros }).bind fun e _ he => ?_
  cases he
  refine (concur_explained (Linked.concur_link e p.tables options.start)).bind fun l l' hl => .ok ?_
  have hroot : p.bare.macros.find? root = (p.macros.find? root).map Macro.bare := MacroTable.find?_bare ..
  refine ⟨hl.bytes, congrArg (·.mergeSort labelLe) hl.labels, hl.tables, ?_, ?_, hl.origins⟩
  · dsimp only [ofLinked]
    rw [hroot, Option.map_map]
    rfl
  · dsimp only [ofLinked]
    rw [hroot, Option.map_map]
    rfl

/-- **Places do not show in the code.** Sources with one text, however it is divided into files and whatever these are
called, are assembled to the same code with source maps of the same length, or fail for causes of one kind. -/
theorem ofSources_sameCode {s s' : Sources} (h : s.text = s'.text) (options : Options) (root : Text)
    (w w' : List Diagnostic) :
    Concur Failure.kind SameCode (ofSources options root s w) (ofSources options root s' w') := by
  rw [ofSources_eq, ofSources_eq]
  refine (concur_explained (Program.concur_read h)).bind fun p p' hp => ?_
  have hcode := concur_ofProgram options root p w []
  have hcode' := concur_ofProgram options root p' w' []
  rw [hp] at hcode
  exact hcode.of_common hcode' fun _ _ _ => SameCode.of_common

end Report

namespace Sample

/-- A table, a macro that asks for its offset, and a macro with a parameter. -/
def whole : Sources := [⟨"whole".toList, "table T \x7b0x0102\x7d
#define macro M = takes(0) returns(1) \x7ba: a __tablestart(T) D<a>()\x7d
<x>#define macro D = takes(0) returns(0) \x7b<x>\x7d".toList⟩]

/-- The same text, divided inside a word, with empty files before and between. -/
def pieces : Sources :=
  [⟨"empty".toList, []⟩, ⟨"left".toList, whole.text.take 21⟩, ⟨"none".toList, []⟩, ⟨"right".toList, whole.text.drop 21⟩]

/-- The label, the references to it and to the table, and behind a zero byte the table. -/
def wholeCode : Bytes := [0x5b, 0x61, 0, 0, 0x61, 0, 11, 0x61, 0, 0, 0, 1, 2]

end Sample

theorem Report.ofSources_sameCode_pieces :
    Sample.whole.text = Sample.pieces.text ∧
      (Report.ofSources {} "M".toList Sample.whole []).toOption.map (·.bytes) = some Sample.wholeCode ∧
      (Report.ofSources {} "M".toList Sample.whole []).toOption.map (·.origins) ≠
        (Report.ofSources {} "M".toList Sample.pieces []).toOption.map (·.origins) ∧
      Concur Failure.kind Report.SameCode (Report.ofSources {} "M".toList Sample.whole [])
        (Report.ofSources {} "M".toList Sample.pieces []) := by
  have htext : Sample.whole.text = Sample.pieces.text := by decide +kernel
  exact ⟨htext, by decide +kernel, by decide +kernel, Report.ofSources_sameCode htext {} "M".toList [] []⟩

end MacroAsm
