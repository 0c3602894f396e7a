import Mathlib.Logic.Relation
import MacroAsm.Proofs.Congruence
import MacroAsm.Proofs.InlineNames
import MacroAsm.Proofs.Unfold

/-!
# How the store grows

Whatever is expanded, measured or evaluated, in success or failure, the store only gains macros made for template
arguments, one at a time.

* `Store.Step s s'`: such a macro is asked for once; `Store.Reaches`: any number of times;
* `Engine.Grows x`: a run of `x` takes a store to one that it reaches; `Engine.expand_grows`;
* `Store.Numbered`: the macros made so far have numbers below the counter;
* `Store.Reaches.find?_of_isPlain`, `Store.Reaches.find?_eq_some`: what growth does not change.
-/

namespace MacroAsm

namespace Store

/-- A store with one more macro made for a template argument of `op`. -/
def withInline (s : Store) (arg : Text) (kind : OpKind) (op : Op) : Store :=
  { s with
    inlines := Engine.inlineMacro (Engine.inlineName arg s.inlineCount) arg kind op :: s.inlines
    inlineCount := s.inlineCount + 1 }

/-- A macro is asked for a template argument, and made or refused. -/
def Step (s s' : Store) : Prop := ∃ arg kind op, ((Engine.addInline arg kind op : Engine Text).runOn s).2 = s'

/-- Macros are asked for one after the other. -/
def Reaches : Store → Store → Prop := Relation.ReflTransGen Step

end Store

namespace Engine

/-- A macro is made unless another one has its name; its number is used up either way. -/
lemma runOn_addInline (arg : Text) (kind : OpKind) (op : Op) (s : Store) :
    (addInline arg kind op : Engine Text).runOn s =
      if s.contains (inlineName arg s.inlineCount) then
        (.error (.located (.duplicateMacro (inlineName arg s.inlineCount)) op.origin),
          { s with inlineCount := s.inlineCount + 1 })
      else (.ok (inlineName arg s.inlineCount), s.withInline arg kind op) := by
  have hrun : (addInline arg kind op : Engine Text).runOn s =
      ((liftM (Store.insertInline { s with inlineCount := s.inlineCount + 1 }
        (inlineMacro (inlineName arg s.inlineCount) arg kind op)) : Engine Store) >>= fun s' =>
          (set s' >>= fun _ => pure (inlineName arg s.inlineCount))).runOn
        { s with inlineCount := s.inlineCount + 1 } := rfl
  rw [hrun, runOn_bind, runOn_lift, Store.insertInline]
  by_cases h : s.contains (inlineName arg s.inlineCount) = true
  · rw [if_pos h, if_pos (by exact h)]
    rfl
  · rw [if_neg h, if_neg (by exact h)]
    rfl

end Engine

namespace Store

/-- What one step can do. -/
lemma Step.cases {s s' : Store} (h : Step s s') :
    (∃ arg, s.contains (Engine.inlineName arg s.inlineCount) = true ∧
        s' = { s with inlineCount := s.inlineCount + 1 }) ∨
      ∃ arg kind op, s.contains (Engine.inlineName arg s.inlineCount) = false ∧
        s' = s.withInline arg kind op := by
  obtain ⟨arg, kind, op, rfl⟩ := h
  rw [Engine.runOn_addInline]
  by_cases hc : s.contains (Engine.inlineName arg s.inlineCount) = true
  · rw [if_pos hc]
    exact Or.inl ⟨arg, hc, rfl⟩
  · rw [if_neg hc]
    exact Or.inr ⟨arg, kind, op, Bool.not_eq_true _ ▸ hc, rfl⟩

lemma Step.macros {s s' : Store} (h : Step s s') : s'.macros = s.macros := by
  rcases h.cases with ⟨-, -, rfl⟩ | ⟨arg, kind, op, -, rfl⟩ <;> rfl

lemma Reaches.macros {s s' : Store} (h : s.Reaches s') : s'.macros = s.macros := by
  induction h with
  | refl => rfl
  | tail _ hstep ih => rw [hstep.macros, ih]

/-! ## numbers -/

/-- The macros made for template arguments have numbers below the counter. -/
def Numbered (s : Store) : Prop :=
  ∀ m ∈ s.inlines, ∃ arg n, m.name = Engine.inlineName arg n ∧ n < s.inlineCount

lemma Numbered.step {s s' : Store} (hs : s.Numbered) (h : Step s s') : s'.Numbered := by
  have hold : ∀ m ∈ s.inlines, ∃ arg n, m.name = Engine.inlineName arg n ∧ n < s.inlineCount + 1 := by
    intro m hm
    obtain ⟨arg, n, hname, hn⟩ := hs m hm
    exact ⟨arg, n, hname, Nat.lt_succ_of_lt hn⟩
  rcases h.cases with ⟨-, -, rfl⟩ | ⟨arg, kind, op, -, rfl⟩
  · exact hold
  · intro m hm
    rcases List.mem_cons.1 hm with rfl | hm
    · exact ⟨arg, s.inlineCount, rfl, Nat.lt_succ_self _⟩
    · exact hold m hm

lemma Numbered.reaches {s s' : Store} (hs : s.Numbered) (h : s.Reaches s') : s'.Numbered := by
  induction h with
  | refl => exact hs
  | tail _ hstep ih => exact ih.step hstep

lemma numbered_declared (macros : MacroTable) : Numbered { macros := macros } := by
  intro m hm
  cases hm

/-! ## lookup -/

section Lookup

variable {s s' : Store}

lemma find?_eq (s : Store) (name : Text) :
    s.find? name = (s.macros.find? name).or (s.inlines.find? fun m => m.name == name) := by
  unfold find?
  cases s.macros.find? name <;> rfl

/-- A macro made for a template argument is not found by a plain name. -/
lemma Numbered.find?_of_isPlain (hs : s.Numbered) {name : Text} (h : name.isPlain = true) :
    s.find? name = s.macros.find? name := by
  have hnone : (s.inlines.find? fun m => m.name == name) = none := by
    refine List.find?_eq_none.2 fun m hm heq => ?_
    obtain ⟨arg, n, hname, -⟩ := hs m hm
    have hplain := Engine.not_isPlain_inlineName arg n
    rw [← hname, eq_of_beq heq, h] at hplain
    cases hplain
  rw [find?_eq, hnone, Option.or_none]

lemma Numbered.inlineName_not_mem (hs : s.Numbered) (arg : Text) :
    Engine.inlineName arg s.inlineCount ∉ s.inlines.map Macro.name := by
  intro hmem
  obtain ⟨m, hm, hname⟩ := List.mem_map.1 hmem
  obtain ⟨arg', n, hname', hn⟩ := hs m hm
  have hnumber := Engine.inlineName_inj (hname'.symm.trans hname)
  omega

/-- The name of the next macro made for a template argument can be taken by a declared macro only. -/
lemma Numbered.contains_inlineName (hs : s.Numbered) (arg : Text) :
    s.contains (Engine.inlineName arg s.inlineCount) = s.macros.contains (Engine.inlineName arg s.inlineCount) := by
  have hnone : (s.inlines.find? fun m => m.name == Engine.inlineName arg s.inlineCount) = none := by
    refine List.find?_eq_none.2 fun m hm heq => hs.inlineName_not_mem arg ?_
    rw [← eq_of_beq heq]
    exact List.mem_map_of_mem hm
  rw [contains, find?_eq, hnone, Option.or_none]
  rfl

lemma contains_eq_false_iff {name : Text} : s.contains name = false ↔ s.find? name = none := by
  rw [contains, Option.isSome_eq_false_iff, Option.isNone_iff_eq_none]

/-- A macro that has just been made is found by its name. -/
lemma find?_withInline {arg : Text} (h : s.contains (Engine.inlineName arg s.inlineCount) = false) (kind : OpKind)
    (op : Op) : (s.withInline arg kind op).find? (Engine.inlineName arg s.inlineCount) =
      some (Engine.inlineMacro (Engine.inlineName arg s.inlineCount) arg kind op) := by
  rw [contains_eq_false_iff, find?_eq, Option.or_eq_none_iff] at h
  rw [find?_eq]
  show (s.macros.find? _).or _ = _
  rw [h.1]
  simp [withInline, Engine.inlineMacro]

lemma Step.find?_eq_some (h : Step s s') {name : Text} {m : Macro} (hm : s.find? name = some m) :
    s'.find? name = some m := by
  rcases h.cases with ⟨-, -, rfl⟩ | ⟨arg, kind, op, hnew, rfl⟩
  · exact hm
  · have hne : ¬ (Engine.inlineName arg s.inlineCount == name) = true := by
      intro heq
      rw [← eq_of_beq heq, contains_eq_false_iff.1 hnew] at hm
      cases hm
    rw [find?_eq] at hm ⊢
    have hskip : (s.withInline arg kind op).inlines.find? (fun m => m.name == name) =
        s.inlines.find? fun m => m.name == name := List.find?_cons_of_neg hne
    rw [hskip]
    exact hm

/-- **A name that stands for a macro keeps its meaning.** -/
theorem Reaches.find?_eq_some (h : s.Reaches s') {name : Text} {m : Macro} (hm : s.find? name = some m) :
    s'.find? name = some m := by
  induction h with
  | refl => exact hm
  | tail _ hstep ih => exact hstep.find?_eq_some ih

/-- **A plain name means what it did before.** -/
theorem Reaches.find?_of_isPlain (h : s.Reaches s') (hs : s.Numbered) {name : Text} (hp : name.isPlain = true) :
    s'.find? name = s.find? name := by
  rw [hs.find?_of_isPlain hp, (hs.reaches h).find?_of_isPlain hp, h.macros]

end Lookup
end Store

/-! ## computations -/

namespace Engine

/-- Whether it succeeds or fails, a computation takes a store to one that it reaches. -/
def Grows {α : Type} (x : Engine α) : Prop := ∀ s : Store, s.Reaches (x.runOn s).2

section Grows

variable {α β : Type}

lemma Grows.of_runOn {x : Engine α} (h : Grows x) {s s' : Store} {r : Except Fault α} (hrun : x.runOn s = (r, s')) :
    s.Reaches s' := by
  have := h s
  rw [hrun] at this
  exact this

lemma grows_pure (a : α) : Grows (pure a : Engine α) := fun _ => .refl

lemma grows_fail (cause : Cause) (o : Origin) : Grows (fail cause o : Engine α) := fun _ => .refl

lemma grows_lift (x : Except Fault α) : Grows (liftM x : Engine α) := fun _ => .refl

lemma grows_get : Grows (get : Engine Store) := fun _ => .refl

lemma grows_addInline (arg : Text) (kind : OpKind) (op : Op) : Grows (addInline arg kind op : Engine Text) :=
  fun _ => .single ⟨arg, kind, op, rfl⟩

lemma Grows.bind {x : Engine α} {f : α → Engine β} (hx : Grows x) (hf : ∀ a, Grows (f a)) : Grows (x >>= f) := by
  intro s
  have hfirst := hx s
  rw [runOn_bind]
  revert hfirst
  rcases x.runOn s with ⟨r, s₁⟩
  intro hfirst
  cases r with
  | error e => exact hfirst
  | ok a => exact Relation.ReflTransGen.trans hfirst (hf a s₁)

end Grows

lemma congruence_grows : Congruence fun (α : Type) (x : Engine α) (_ : Engine α) => Grows x where
  pure := grows_pure
  fail := fun cause o _ => grows_fail cause o
  lift := fun x _ => grows_lift x
  get := grows_get
  addInline := grows_addInline
  bind := Grows.bind

lemma expandBody_grows {inner : Request → Engine Expansion} (hi : ∀ q, Grows (inner q)) (m : Macro) (args : List Text)
    (start : Address) : Grows (expandBody inner m args start) :=
  (congruence_grows.layout inner hi _ start m.ops 0).bind fun _ => grows_lift _

/-- **Expansion only adds macros made for template arguments**, also when it fails. -/
theorem expand_grows (limits : Limits) (budget : Nat) : ∀ (active : List Frame) (q : Request),
    Grows (expand limits budget active q) := by
  induction budget with
  | zero =>
    intro active q
    exact (congruence_grows.enter limits active q).bind fun _ => grows_fail _ _
  | succ budget ih =>
    intro active q
    exact (congruence_grows.enter limits active q).bind fun x => expandBody_grows (ih _) x.1 x.2 q.start

end Engine
end MacroAsm
