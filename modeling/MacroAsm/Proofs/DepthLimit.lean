import MacroAsm.Proofs.ProgramNames
import MacroAsm.Run

/-!
# The depth limit

The limit on the number of frames is only ever looked at to refuse one more. So a run that was not refused for its depth
goes the same way under any higher limit. The same number bounds how deep includes nest, and with the same effect.

* `Fault.TooDeep f`: a macro was refused for its depth;
* `Engine.Unless P x y`: `y` does what `x` does, unless `x` fails with a fault that satisfies `P`;
* `Engine.expand_unless_tooDeep`: expansion under two limits;
* `Loader.Keeps x y`: where `x` loads something, `y` loads the same; `Loader.load_keeps`: loading under two limits.
-/

namespace MacroAsm

/-- A macro was refused because as many frames as the limit allows are active. -/
def Fault.TooDeep (f : Fault) : Prop := ∃ limit name, f.cause = .tooDeep limit name

/-! ## expansion -/

namespace Engine

/-- From any store, `x` fails with a fault that satisfies `P`, or `y` gives what `x` gives and leaves the same store. -/
def Unless {α : Type} (P : Fault → Prop) (x y : Engine α) : Prop :=
  ∀ s, (∃ f s', x.runOn s = (.error f, s') ∧ P f) ∨ y.runOn s = x.runOn s

section Unless

variable {α β : Type} {P : Fault → Prop}

lemma Unless.refl (x : Engine α) : Unless P x x := fun _ => Or.inr rfl

lemma Unless.bind {x y : Engine α} {f g : α → Engine β} (hx : Unless P x y) (hf : ∀ a, Unless P (f a) (g a)) :
    Unless P (x >>= f) (y >>= g) := by
  intro s
  rcases hx s with ⟨e, s', hfail, he⟩ | heq
  · exact Or.inl ⟨e, s', runOn_bind_error.2 (Or.inl hfail), he⟩
  · rw [runOn_bind, runOn_bind, heq]
    rcases x.runOn s with ⟨r, s'⟩
    cases r with
    | error e => exact Or.inr rfl
    | ok a => exact hf a s'

end Unless

lemma congruence_unless (P : Fault → Prop) : Congruence fun (α : Type) (x y : Engine α) => Unless P x y where
  pure := fun _ => .refl _
  fail := fun _ _ _ => .refl _
  lift := fun _ _ => .refl _
  get := .refl _
  addInline := fun _ _ _ => .refl _
  bind := Unless.bind

lemma expandBody_unless {P : Fault → Prop} {inner inner' : Request → Engine Expansion}
    (hi : ∀ q, Unless P (inner q) (inner' q)) (m : Macro) (args : List Text) (start : Address) :
    Unless P (expandBody inner m args start) (expandBody inner' m args start) :=
  ((congruence_unless P).layout inner' hi _ start m.ops 0).bind fun _ => .refl _

/-- **A higher limit changes nothing but refusals for the depth.** -/
theorem expand_unless_tooDeep (limits : Limits) (d d' budget : Nat) :
    ∀ (more : Nat) (active : List Frame) (q : Request),
      Unless Fault.TooDeep (expand { limits with maxDepth := d } budget active q)
        (expand { limits with maxDepth := d' } (budget + more) active q) := by
  induction budget with
  | zero =>
    intro more active q s
    -- both begin by entering the macro; from there on, the first run can only be refused
    have hfirst : ∃ k : Macro × List Text → Engine Expansion,
        expand { limits with maxDepth := d' } (0 + more) active q = enter limits active q >>= k := by
      cases more with
      | zero => exact ⟨_, rfl⟩
      | succ more =>
        rw [Nat.zero_add]
        exact ⟨_, rfl⟩
    obtain ⟨k, hk⟩ := hfirst
    have hrefused : expand { limits with maxDepth := d } 0 active q =
        enter limits active q >>= fun x => fail (.tooDeep d q.name) (q.site.getD x.1.origin) := rfl
    rw [hk, hrefused, runOn_bind, runOn_bind]
    rcases (enter limits active q : Engine _).runOn s with ⟨r, s'⟩
    cases r with
    | error e => exact Or.inr rfl
    | ok x => exact Or.inl ⟨_, s', rfl, d, q.name, rfl⟩
  | succ budget ih =>
    intro more active q
    rw [Nat.succ_add]
    refine Unless.bind (.refl (enter limits active q)) fun x => ?_
    exact expandBody_unless (ih more _) x.1 x.2 q.start

end Engine

/-- From outside, with no frame active. -/
lemma Processor.expand_unless_tooDeep (limits : Limits) {d d' : Nat} (h : d ≤ d') (q : Request) :
    Engine.Unless Fault.TooDeep (expand { limits with maxDepth := d } q) (expand { limits with maxDepth := d' } q) := by
  obtain ⟨more, rfl⟩ := Nat.exists_eq_add_of_le h
  exact Engine.expand_unless_tooDeep limits d (d + more) d more [] q

/-! ## loading -/

/-- What a sequence of two computations on a world gives is given by the second. -/
lemma run_bind_ok {σ ε α β : Type} {x : ExceptT ε (StateM σ) α} {f : α → ExceptT ε (StateM σ) β} {w w'' : σ} {b : β} :
    (x >>= f).run w = (.ok b, w'') ↔ ∃ a w', x.run w = (.ok a, w') ∧ (f a).run w' = (.ok b, w'') := by
  show (match x.run w with | (r, w') => ExceptT.bindCont f r w') = _ ↔ _
  rcases x.run w with ⟨r, w'⟩
  cases r with
  | error e =>
    constructor
    · intro h
      cases h
    · rintro ⟨a, w₁, h, -⟩
      cases h
  | ok a =>
    constructor
    · intro h
      exact ⟨a, w', rfl, h⟩
    · rintro ⟨a', w₁, h, h'⟩
      cases h
      exact h'

namespace Loader

variable {σ α β : Type}

/-- Where `x` loads something, `y` loads the same. -/
def Keeps (x y : Loader (StateM σ) α) : Prop :=
  ∀ l w r w', (x.run l).run w = (.ok r, w') → (y.run l).run w = (.ok r, w')

lemma Keeps.refl (x : Loader (StateM σ) α) : Keeps x x := fun _ _ _ _ h => h

lemma keeps_throw (f : Fault) (y : Loader (StateM σ) α) : Keeps (throw f) y := by
  intro l w r w' h
  cases h

lemma Keeps.bind {x y : Loader (StateM σ) α} {f g : α → Loader (StateM σ) β} (hx : Keeps x y)
    (hf : ∀ a, Keeps (f a) (g a)) : Keeps (x >>= f) (y >>= g) := by
  intro l w r w' h
  obtain ⟨⟨a, l₁⟩, w₁, hfirst, hrest⟩ := run_bind_ok.1 h
  exact run_bind_ok.2 ⟨(a, l₁), w₁, hx l w _ w₁ hfirst, hf a l₁ w₁ r w' hrest⟩

lemma follow_keeps (disk : Disk (StateM σ)) (rules : IncludeRules) (d : Nat)
    {inner inner' : Text → Option Origin → Loader (StateM σ) Unit} (hi : ∀ p o, Keeps (inner p o) (inner' p o))
    (dir : Text) (ds : List Directive) :
    Keeps (follow disk rules inner dir ds) (follow disk { rules with maxDepth := d } inner' dir ds) := by
  induction ds with
  | nil => exact .refl _
  | cons directive ds ih =>
    refine .bind (.refl (locate disk rules dir directive)) fun path => ?_
    refine .bind (.refl (ask (disk.canonical path))) fun key => .bind (.refl get) fun s => ?_
    dsimp only
    split
    · exact .bind (.refl _) fun _ => ih
    · exact .bind (.refl _) fun _ => .bind (hi path _) fun _ => ih

/-- **What is loaded under a limit is loaded under any higher one.** -/
theorem load_keeps (disk : Disk (StateM σ)) (rules : IncludeRules) (d more budget : Nat) :
    ∀ (path : Text) (site : Option Origin),
      Keeps (load disk rules budget path site) (load disk { rules with maxDepth := d } (budget + more) path site) := by
  induction budget with
  | zero => exact fun path site => keeps_throw _ _
  | succ budget ih =>
    intro path site
    rw [Nat.succ_add]
    refine .bind (.refl (ask (disk.read path))) fun outcome => ?_
    cases outcome with
    | error e => exact keeps_throw _ _
    | ok text =>
      refine .bind (.refl (liftM (Prepared.ofText path text))) fun p => ?_
      exact .bind (follow_keeps disk rules d ih _ p.directives) fun _ => .refl _

end Loader

lemma Sources.load_keeps {σ : Type} (disk : Disk (StateM σ)) (rules : IncludeRules) {d : Nat} (h : rules.maxDepth ≤ d)
    {root : Text} {w w' : σ} {loaded : Loaded} (hload : (Sources.load disk rules root).run w = (.ok loaded, w')) :
    (Sources.load disk { rules with maxDepth := d } root).run w = (.ok loaded, w') := by
  obtain ⟨more, rfl⟩ := Nat.exists_eq_add_of_le h
  have hkeeps := Loader.load_keeps disk rules (rules.maxDepth + more) more (rules.maxDepth + 1) root none
  rw [Nat.add_right_comm] at hkeeps
  have hkey : ∀ (rules : IncludeRules), (Sources.load disk rules root).run w =
      ((((Loader.load disk rules (rules.maxDepth + 1) root none).run
          { seen := [((disk.canonical root).run w).1] }).run ((disk.canonical root).run w).2).1.map fun r => r.2.loaded,
        (((Loader.load disk rules (rules.maxDepth + 1) root none).run
          { seen := [((disk.canonical root).run w).1] }).run ((disk.canonical root).run w).2).2) := fun _ => rfl
  rw [hkey] at hload ⊢
  rcases hrun : ((Loader.load disk rules (rules.maxDepth + 1) root none).run
    { seen := [((disk.canonical root).run w).1] }).run ((disk.canonical root).run w).2 with ⟨outcome, w₁⟩
  rw [hrun] at hload
  cases outcome with
  | error f => cases hload
  | ok r =>
    rw [hkeeps _ _ _ _ hrun]
    exact hload

/-! ## assembling -/

/-- A process that succeeds does so under any higher limit, with the same expansion and the same store. -/
lemma Processor.process_deeper (limits : Limits) {d d' : Nat} (h : d ≤ d') {root : Text} {start : Address}
    {s s' : Store} {e : Expansion} (hok : process { limits with maxDepth := d } root start s = (.ok e, s')) :
    process { limits with maxDepth := d' } root start s = (.ok e, s') := by
  have hrun : ∀ limits, process limits root start s = match (expand limits ⟨root, start, [], none⟩).runOn s with
    | (.ok e, s') => (closed root e, s')
    | (.error f, s') => (.error (Failure.ofFault f), s') := fun _ => rfl
  rcases Processor.expand_unless_tooDeep limits h ⟨root, start, [], none⟩ s with ⟨f, s₁, hfail, -⟩ | hsame
  · rw [hrun, hfail] at hok
    cases hok
  · rw [hrun, hsame, ← hrun, hok]

namespace Report

/-- A report of some sources is their report under any higher limit. -/
lemma ofSources_deeper {options : Options} {d : Nat} (h : options.maxDepth ≤ d) {root : Text} {files : Sources}
    {warnings : List Diagnostic} {r : Report} (hok : ofSources options root files warnings = .ok r) :
    ofSources { options with maxDepth := d } root files warnings = .ok r := by
  obtain ⟨p, hp, hok⟩ := ok_of_bind hok
  obtain ⟨e, he, hok⟩ := ok_of_bind hok
  have he' := Processor.process_deeper { maxDepth := d } h (Prod.ext he rfl)
  unfold ofSources
  rw [hp]
  show ((Processor.process { maxDepth := d } root options.start { macros := p.macros }).1 >>= _) = _
  rw [he']
  exact hok

/-- A report of a file is its report under any higher limit, and leaves the files the same. -/
lemma ofFile_deeper {σ : Type} {disk : Disk (StateM σ)} (options : Options) {d : Nat} (h : options.maxDepth ≤ d)
    {root path : Text} {w w' : σ} {r : Report} (hok : (ofFile disk options root path).run w = (.ok r, w')) :
    (ofFile disk { options with maxDepth := d } root path).run w = (.ok r, w') := by
  have hrun : ∀ options : Options, (ofFile disk options root path).run w =
      ((explained ((Sources.load disk ⟨options.includePaths, options.maxDepth⟩ path).run w).1 >>= fun l =>
        ofSources options root l.files l.warnings),
        ((Sources.load disk ⟨options.includePaths, options.maxDepth⟩ path).run w).2) := fun _ => rfl
  rw [hrun] at hok ⊢
  obtain ⟨hreport, hworld⟩ := Prod.mk.inj hok
  obtain ⟨l, hl, hreport⟩ := ok_of_bind hreport
  have hloaded : ((Sources.load disk ⟨options.includePaths, options.maxDepth⟩ path).run w).1 = .ok l := by
    cases hx : ((Sources.load disk ⟨options.includePaths, options.maxDepth⟩ path).run w).1 with
    | error f =>
      rw [hx] at hl
      cases hl
    | ok l' =>
      rw [hx] at hl
      cases hl
      rfl
  have hdeeper := Sources.load_keeps disk ⟨options.includePaths, options.maxDepth⟩ h (Prod.ext hloaded hworld)
  rw [hdeeper]
  exact Prod.ext (ofSources_deeper h hreport) rfl

end Report

/-- What has been assembled is assembled under any higher limit, and the same files are written. -/
lemma Run.assemble_deeper {σ : Type} {ws : Workspace (StateM σ)} {c : Config} {d : Nat} (h : c.maxDepth ≤ d) {w w' : σ}
    {r : Report} (hok : (assemble ws c).run w = (.ok r, w')) :
    (assemble ws { c with maxDepth := d }).run w = (.ok r, w') := by
  obtain ⟨report, w₁, hreport, hrest⟩ := run_bind_ok.1 hok
  exact run_bind_ok.2 ⟨report, w₁, Report.ofFile_deeper c.options h hreport, hrest⟩

/-- **Raising the limit changes nothing but refusals.** Where an expansion does not fail for its depth, a higher limit
gives the same expansion or the same fault, and leaves the same macros. So a program that has been assembled is
assembled to the same bytes, and the same files are written. -/
theorem expand_of_deeper (limits : Limits) {d d' : Nat} (h : d ≤ d') :
    (∀ (q : Request) (s : Store),
      (∀ f, ((Processor.expand { limits with maxDepth := d } q).runOn s).1 = .error f → ¬ f.TooDeep) →
      (Processor.expand { limits with maxDepth := d' } q).runOn s =
        (Processor.expand { limits with maxDepth := d } q).runOn s) ∧
    ∀ {σ : Type} (ws : Workspace (StateM σ)) (c : Config) (w w' : σ) (r : Report),
      (Run.assemble ws { c with maxDepth := d }).run w = (.ok r, w') →
      (Run.assemble ws { c with maxDepth := d' }).run w = (.ok r, w') := by
  refine ⟨fun q s hf => ?_, fun ws c w w' r hok => Run.assemble_deeper (c := { c with maxDepth := d }) h hok⟩
  rcases Processor.expand_unless_tooDeep limits h q s with ⟨f, s', hrun, hdeep⟩ | hsame
  · exact absurd hdeep (hf f (congrArg Prod.fst hrun))
  · exact hsame

namespace Sample

/-- A file that includes `twice`. -/
def files : FileTree where
  files := [(⟨0, ["main".toList]⟩, Text.toBytes "#include \"twice\"".toList),
    (⟨0, ["twice".toList]⟩, twice.text.toBytes)]

/-- `M` of that file, at the offset 16, within a number of frames. -/
def config (depth : Nat) : Config where
  input := "main".toList
  rootMacro := "M".toList
  includePaths := []
  maxDepth := depth
  start := 16
  hexFile := none
  binFile := some "out".toList
  sourceMapFile := none
  quiet := false
  format := .text
  sink := .stderr
  emitWarnings := true
  warningsAsErrors := false

end Sample

/-- `M` needs four frames: with three it is refused, with more it comes to the same. -/
theorem expand_of_deeper_main :
    (∃ f, ((Processor.expand { maxDepth := 3 } Sample.main).runOn Sample.program.macros.fresh).1 = .error f ∧
      f.TooDeep) ∧
    (∃ e s', (Processor.expand { maxDepth := 4 } Sample.main).runOn Sample.program.macros.fresh = (.ok e, s') ∧
      e.bytes = Sample.code ∧
      (Processor.expand { maxDepth := 256 } Sample.main).runOn Sample.program.macros.fresh = (.ok e, s')) ∧
    ∃ r tree, (Run.assemble FileTree.workspace (Sample.config 4)).run Sample.files = (.ok r, tree) ∧
      r.bytes = Sample.code ∧
      (Run.assemble FileTree.workspace (Sample.config 256)).run Sample.files = (.ok r, tree) := by
  have hle : 4 ≤ 256 := by decide
  have hdeeper := expand_of_deeper {} hle
  have hruns :
      (((Processor.expand { maxDepth := 3 } Sample.main).runOn
        Sample.program.macros.fresh).1.map Expansion.size).mapError Fault.cause =
          .error (.tooDeep 3 "inline-a-0".toList) ∧
      ((Processor.expand { maxDepth := 4 } Sample.main).runOn
        Sample.program.macros.fresh).1.toOption.map Expansion.bytes = some Sample.code := by
    decide +kernel
  refine ⟨?_, ?_, ?_⟩
  · cases hrun : ((Processor.expand { maxDepth := 3 } Sample.main).runOn Sample.program.macros.fresh).1 with
    | ok e =>
      rw [hrun] at hruns
      cases hruns.1
    | error f =>
      rw [hrun] at hruns
      exact ⟨f, rfl, 3, _, Except.error.inj hruns.1⟩
  · obtain ⟨e, s', he, hcode⟩ := Engine.exists_of_runOn hruns.2
    refine ⟨e, s', he, hcode, ?_⟩
    rw [← he]
    refine hdeeper.1 Sample.main _ fun f hf => ?_
    rw [he] at hf
    cases hf
  · have hbytes : ((Run.assemble FileTree.workspace (Sample.config 4)).run Sample.files).1.toOption.map Report.bytes =
        some Sample.code := by
      decide +kernel
    obtain ⟨r, hr, hcode⟩ := exists_ok_of_map hbytes
    have hrun : (Run.assemble FileTree.workspace (Sample.config 4)).run Sample.files = (.ok r, _) := Prod.ext hr rfl
    exact ⟨r, _, hrun, hcode, hdeeper.2 FileTree.workspace (Sample.config 4) Sample.files _ r hrun⟩

end MacroAsm
