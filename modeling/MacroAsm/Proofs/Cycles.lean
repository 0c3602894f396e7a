import MacroAsm.Proofs.ProgramNames

/-!
# Refusing cycles refuses nothing that ends

A macro that is entered again with the same arguments, while it is active, would do the same again, and so never end.
This is the argument on flattening: take the least number of frames within which a frame of a macro ends; inside it,
less is left, so the same frame cannot end again there.

* `Flatten.Ends known limits n f`: the frame `f` ends within `n` further frames if no cycle is refused;
* `Flatten.code_guarded`: where no active frame ends, refusing cycles changes nothing;
* `expand_without_guard`: the same of expansion in a program.
-/

namespace MacroAsm

lemma Frame.of_inj {name name' : Text} {args args' : List Text} (h : Frame.of name args = Frame.of name' args') :
    name = name' ∧ args = args' := by
  obtain ⟨hname, hargs⟩ := Frame.mk.inj h
  refine ⟨by simpa using congrArg String.toList hname, ?_⟩
  have hinj : Function.Injective String.ofList := fun a b hab => by simpa using congrArg String.toList hab
  exact List.map_injective_iff.2 hinj hargs

namespace Flatten

variable {known : Store} {limits : Limits} {active : List Frame}

/-- Where cycles are not refused, the frames that are active do not matter. -/
lemma code_active (hfree : limits.refuseCycles = false) (active' : List Frame) (budget : Nat) :
    Lifts (code known limits budget active) (code known limits budget active') := by
  induction budget generalizing active active' with
  | zero =>
    intro callee start c h
    exact absurd h code_zero_ne_ok
  | succ budget ih =>
    refine lifts_succ fun callee o ho => ?_
    cases callee with
    | named name args site =>
      obtain ⟨m, hm, harity, -, rfl⟩ := opened_named_eq_ok_iff.1 ho
      refine ⟨_, opened_named_eq_ok_iff.2 ⟨m, hm, harity, ?_, rfl⟩, rfl, rfl, ih _⟩
      rintro ⟨hguard, -⟩
      rw [hfree] at hguard
      cases hguard
    | inline op args =>
      obtain ⟨hargs, rfl⟩ := opened_inline_eq_ok_iff.1 ho
      exact ⟨_, opened_inline_eq_ok_iff.2 ⟨hargs, rfl⟩, rfl, rfl, ih _⟩

/-- A frame ends within some further frames. -/
def Ends (known : Store) (limits : Limits) (budget : Nat) (f : Frame) : Prop :=
  ∃ name args site start c, Frame.of name (args.flatMap Text.splitArguments) = f ∧
    code known limits budget [] (.named name args site) start = .ok c

lemma Ends.mono {budget budget' : Nat} (hle : budget ≤ budget') {f : Frame} (h : Ends known limits budget f) :
    Ends known limits budget' f := by
  obtain ⟨name, args, site, start, c, hf, hc⟩ := h
  obtain ⟨hfit, hlift⟩ := code_lift hle _ start c hc
  exact ⟨name, args, site, start, c, hf, hlift start hfit⟩

/-- A macro whose frame ends within fewer frames has its code within them. -/
lemma code_of_ends {budget budget' : Nat} {name : Text} {args : List Text} {site : Option Origin} {start : Address}
    {c : Code} (h : code known limits budget' [] (.named name args site) start = .ok c)
    (hends : Ends known limits budget (.of name (args.flatMap Text.splitArguments))) :
    code known limits budget [] (.named name args site) start = .ok c := by
  obtain ⟨name', args', site', start', c', hframe, hc'⟩ := hends
  obtain ⟨rfl, hargs⟩ := Frame.of_inj hframe
  have hsame : code known limits budget [] (.named name' args site) start' = .ok c' := code_named_congr hargs hc'
  have heq : c' = c := code_unique hsame h
  subst heq
  obtain ⟨hfit, -⟩ := code_lift (Nat.le_refl budget') _ start c' h
  exact (code_lift (Nat.le_refl budget) _ start' c' hsame).2 start hfit

/-- **Where no active frame ends, refusing cycles changes nothing.** -/
theorem code_guarded {free : Limits} (hfree : free.refuseCycles = false) {budget : Nat} {callee : Callee}
    {start : Address} {c : Code} (h : code known free budget [] callee start = .ok c)
    (hactive : ∀ f ∈ active, ¬ Ends known free budget f) : code known limits budget active callee start = .ok c := by
  induction budget generalizing active callee start c with
  | zero => exact absurd h code_zero_ne_ok
  | succ budget ih =>
    have hbelow : ∀ f ∈ active, ¬ Ends known free budget f := fun f hf hends =>
      hactive f hf (hends.mono (Nat.le_succ budget))
    -- inside a frame that does not end within what is left, both sides agree
    have hinside : ∀ opened inside : List Frame, (∀ f ∈ inside, ¬ Ends known free budget f) →
        Lifts (code known free budget opened) (code known limits budget inside) := by
      intro opened inside hnot callee' start' c' hc'
      obtain ⟨hfit, hlift⟩ := code_active hfree [] budget callee' start' c' hc'
      exact ⟨hfit, fun start'' hfit'' => ih (hlift start'' hfit'') hnot⟩
    obtain ⟨o, body, ho, hbody, rfl, hfit⟩ := code_succ_eq_ok_iff.1 h
    cases callee with
    | named name args site =>
      by_cases hends : Ends known free budget (.of name (args.flatMap Text.splitArguments))
      · -- the frame ends within less than there is: nothing is lost by going on with that
        have hless := ih (code_of_ends h hends) hbelow
        exact (code_lift (Nat.le_succ budget) _ start _ hless).2 start hfit
      · have hnew : Frame.of name (args.flatMap Text.splitArguments) ∉ active := fun hmem =>
          hactive _ hmem ⟨name, args, site, start, _, rfl, h⟩
        obtain ⟨m, hm, harity, -, rfl⟩ := opened_named_eq_ok_iff.1 ho
        refine code_succ_eq_ok_iff.2
          ⟨_, body, opened_named_eq_ok_iff.2 ⟨m, hm, harity, fun hguard => hnew hguard.2, rfl⟩, ?_, rfl, hfit⟩
        refine (opsCode_lift (hinside _ _ ?_) hbody).2 start (Code.fits_of_frame hfit)
        intro f hf
        rcases List.mem_cons.1 hf with rfl | hf
        · exact hends
        · exact hbelow f hf
    | inline op args =>
      obtain ⟨hargs, rfl⟩ := opened_inline_eq_ok_iff.1 ho
      refine code_succ_eq_ok_iff.2 ⟨_, body, opened_inline_eq_ok_iff.2 ⟨hargs, rfl⟩, ?_, rfl, hfit⟩
      exact (opsCode_lift (hinside _ _ hbelow) hbody).2 start (Code.fits_of_frame hfit)

end Flatten

/-- **Refusing cycles refuses nothing that ends.** In a program, if a macro expands when only the depth is bounded, then
it expands to the same when a macro may not be entered again while it is active. -/
theorem expand_without_guard {sources : Sources} {p : Program} (hp : Program.read sources = .ok p) {s : Store}
    (hs : p.macros.fresh.Reaches s) {maxDepth : Nat} {q : Request} (hq : '-' ∉ q.name) {e : Expansion}
    (h : ((Processor.expand ⟨maxDepth, false⟩ q).runOn s).1 = .ok e) :
    ((Processor.expand ⟨maxDepth, true⟩ q).runOn s).1 = .ok e := by
  have hworded := Program.read_worded hp
  have hplain := Text.isPlain_of_no_hyphen hq
  obtain ⟨c, hc, he⟩ := (Engine.expand_fresh_eq_ok_iff hworded hs (by simp) hplain).1 h
  have hguarded : Flatten.code p.macros.fresh ⟨maxDepth, true⟩ maxDepth [] (.named q.name q.args q.site) q.start =
      .ok c := Flatten.code_guarded rfl hc (by simp)
  exact (Engine.expand_fresh_eq_ok_iff hworded hs (by simp) hplain).2 ⟨c, hguarded, he⟩

/-- `D` is entered inside `D`, with another argument. -/
theorem expand_without_guard_main :
    Program.read Sample.twice = .ok Sample.program ∧ '-' ∉ Sample.main.name ∧
      ∃ e, ((Processor.expand ⟨4, false⟩ Sample.main).runOn Sample.program.macros.fresh).1 = .ok e ∧
        e.bytes = Sample.code ∧
        ((Processor.expand ⟨4, true⟩ Sample.main).runOn Sample.program.macros.fresh).1 = .ok e := by
  have hrun : ((Processor.expand ⟨4, false⟩ Sample.main).runOn Sample.program.macros.fresh).1.toOption.map
      Expansion.bytes = some Sample.code := by
    decide +kernel
  obtain ⟨e, he, hbytes⟩ := exists_ok_of_map hrun
  have hname : '-' ∉ Sample.main.name := by decide
  exact ⟨Sample.read_twice, hname, e, he, hbytes, expand_without_guard Sample.read_twice .refl hname he⟩

end MacroAsm
