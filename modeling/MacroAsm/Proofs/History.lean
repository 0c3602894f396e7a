import MacroAsm.Proofs.ProgramNames
import MacroAsm.Proofs.Session

/-!
# Earlier operations do not show

A processor may have expanded, measured and evaluated anything before, in success or failure. What stays of it are
macros made for template arguments. No frame stays active, the declared macros keep their meaning, and a macro expands
as it would have at first.

* `Operation`: what may be asked of a processor; `Store.perform`, `Session.perform`: what it leaves;
* `Store.Extends t s`: what may have been added to the declared macros; `Store.extends_of_reaches`;
* `Engine.Agree`: the same expansion, or failures of one kind at one place.
-/

namespace MacroAsm

/-- What may be asked of a processor from outside. -/
inductive Operation where
  | expand (q : Request)
  | process (root : Text) (start : Address)
  | codeSize (callee : Text) (args : List Text) (site : Origin)
  | evaluate (t : Text) (site : Origin)
  deriving DecidableEq

/-- The store that an operation leaves, in success or failure. -/
def Store.perform (limits : Limits) (s : Store) : Operation → Store
  | .expand q => ((Processor.expand limits q).runOn s).2
  | .process root start => (Processor.process limits root start s).2
  | .codeSize callee args site => ((Processor.codeSize limits callee args site).runOn s).2
  | .evaluate t site => ((Processor.evaluate limits t site).runOn s).2

namespace Session

/-- The session that an operation leaves, in success or failure. -/
def perform (limits : Limits) (σ : Session) : Operation → Session
  | .expand q => (runOn (expand limits (limits.maxDepth + 1) q) σ).2
  | .process root start => (runOn (expand limits (limits.maxDepth + 1) ⟨root, start, [], none⟩) σ).2
  | .codeSize callee args site => (runOn (Engine.codeSize (expand limits (limits.maxDepth + 1)) callee args site) σ).2
  | .evaluate t site => (runOn (Engine.evaluate (expand limits (limits.maxDepth + 1)) t site) σ).2

end Session

lemma Processor.process_store (limits : Limits) (root : Text) (start : Address) (s : Store) :
    (process limits root start s).2 = ((expand limits ⟨root, start, [], none⟩).runOn s).2 := by
  show (match (expand limits ⟨root, start, [], none⟩).runOn s with
    | (.ok e, s') => (closed root e, s')
    | (.error f, s') => (.error (Failure.ofFault f), s')).2 = _
  rcases (expand limits ⟨root, start, [], none⟩).runOn s with ⟨r, s'⟩
  cases r <;> rfl

/-! ## frames -/

namespace Session

/-- An operation that finds no frame active leaves none. -/
lemma perform_eq (limits : Limits) (s : Store) (op : Operation) :
    perform limits ⟨s, []⟩ op = ⟨s.perform limits op, []⟩ := by
  have htop := expand_mimics_processor limits
  cases op with
  | expand q => exact congrArg Prod.snd (htop q s)
  | process root start =>
    rw [Store.perform, Processor.process_store]
    exact congrArg Prod.snd (htop _ s)
  | codeSize callee args site => exact congrArg Prod.snd ((congruence_mimics []).codeSize _ htop callee args site s)
  | evaluate t site => exact congrArg Prod.snd ((congruence_mimics []).eval _ htop site _ s)

/-- **No frame stays active**, whatever is asked. -/
theorem foldl_perform (limits : Limits) (history : List Operation) (s : Store) :
    history.foldl (perform limits) ⟨s, []⟩ = ⟨history.foldl (Store.perform limits) s, []⟩ := by
  induction history generalizing s with
  | nil => rfl
  | cons op history ih => rw [List.foldl_cons, List.foldl_cons, perform_eq, ih]

end Session

/-! ## the store -/

namespace Store

lemma reaches_perform (limits : Limits) (s : Store) (op : Operation) : s.Reaches (s.perform limits op) := by
  have hgrows : ∀ q, Engine.Grows (Processor.expand limits q) := Engine.expand_grows limits limits.maxDepth []
  cases op with
  | expand q => exact hgrows q s
  | process root start =>
    rw [perform, Processor.process_store]
    exact hgrows _ s
  | codeSize callee args site =>
    exact Engine.congruence_grows.codeSize (Processor.expand limits) hgrows callee args site s
  | evaluate t site => exact Engine.congruence_grows.eval (Processor.expand limits) hgrows site _ s

lemma reaches_foldl_perform (limits : Limits) (history : List Operation) (s : Store) :
    s.Reaches (history.foldl (perform limits) s) := by
  induction history generalizing s with
  | nil => exact .refl
  | cons op history ih => exact (reaches_perform limits s op).trans (ih _)

/-- What may have been added to declared macros: one macro for every number used up, under a name that begins with
`inline-` and that nothing else has. -/
structure Extends (t : MacroTable) (s : Store) : Prop where
  macros : s.macros = t
  declared : ∀ name m, t.find? name = some m → s.find? name = some m
  begins : ∀ m ∈ s.inlines, "inline-".toList <+: m.name
  apart : ∀ m ∈ s.inlines, t.find? m.name = none
  counted : s.inlines.length = s.inlineCount
  distinct : (s.inlines.map Macro.name).Nodup

end Store

/-- No declared macro has a name made for a template argument. -/
lemma MacroTable.Worded.find?_inlineName {t : MacroTable} (ht : t.Worded) (arg : Text) (n : Nat) :
    t.find? (Engine.inlineName arg n) = none := by
  cases h : t.find? (Engine.inlineName arg n) with
  | none => rfl
  | some m =>
    obtain ⟨hmem, hname⟩ := mem_of_find? h
    have hplain := Text.isPlain_of_isWord (ht.name m hmem)
    rw [hname, Engine.not_isPlain_inlineName] at hplain
    cases hplain

namespace Store

section Extension

variable {t : MacroTable} {s s' : Store}

/-- In a program no number is used up in vain. -/
lemma Step.made (h : Step s s') (hs : s.Numbered) (ht : s.macros.Worded) :
    ∃ arg kind op, s' = s.withInline arg kind op := by
  rcases h.cases with ⟨arg, htaken, -⟩ | ⟨arg, kind, op, -, rfl⟩
  · rw [hs.contains_inlineName, MacroTable.contains, ht.find?_inlineName] at htaken
    cases htaken
  · exact ⟨arg, kind, op, rfl⟩

/-- The macros made are as many as numbers are used up, and no two have the same name. -/
lemma made_of_reaches (ht : t.Worded) (h : t.fresh.Reaches s) :
    s.inlines.length = s.inlineCount ∧ (s.inlines.map Macro.name).Nodup := by
  induction h with
  | refl => exact ⟨rfl, List.nodup_nil⟩
  | @tail s₁ s₂ hpath hstep ih =>
    obtain ⟨hlen, hnodup⟩ := ih
    have hworded : s₁.macros.Worded := by
      rw [Reaches.macros hpath]
      exact ht
    have hnumbered := (numbered_declared t).reaches hpath
    obtain ⟨arg, kind, op, rfl⟩ := hstep.made hnumbered hworded
    refine ⟨congrArg Nat.succ hlen, ?_⟩
    exact List.nodup_cons.2 ⟨hnumbered.inlineName_not_mem arg, hnodup⟩

/-- **Whatever happens in a program, its macros stay and only numbered ones are added.** -/
theorem extends_of_reaches (ht : t.Worded) (h : t.fresh.Reaches s) : Extends t s := by
  have hnumbered := (numbered_declared t).reaches h
  obtain ⟨hlen, hnodup⟩ := made_of_reaches ht h
  refine ⟨h.macros, ?_, ?_, ?_, hlen, hnodup⟩
  · intro name m hm
    refine h.find?_eq_some ?_
    rw [MacroTable.find?_fresh, hm]
  · intro m hm
    obtain ⟨arg, n, hname, -⟩ := hnumbered m hm
    rw [hname]
    exact Engine.begins_inlineName arg n
  · intro m hm
    obtain ⟨arg, n, hname, -⟩ := hnumbered m hm
    rw [hname, ht.find?_inlineName]

end Extension
end Store

/-! ## outcomes -/

lemma Fault.Alike.of_common {f g f' : Fault} (hf : f.Alike f') (hg : g.Alike f') : f.Alike g :=
  ⟨hf.1.trans hg.1.symm, hf.2.trans hg.2.symm⟩

namespace Engine

/-- The same expansion, or failures of one kind with one origin. -/
inductive Agree : Except Fault Expansion → Except Fault Expansion → Prop
  | ok (e : Expansion) : Agree (.ok e) (.ok e)
  | error {f g : Fault} (h : f.Alike g) : Agree (.error f) (.error g)

/-- Two stores of one program cannot be told apart by an expansion: both do what flattening says. -/
lemma agree_of_reaches {t : MacroTable} (ht : t.Worded) {s s' : Store} (hs : t.fresh.Reaches s)
    (hs' : t.fresh.Reaches s') (limits : Limits) {q : Request} (hq : q.name.isPlain = true) :
    Agree ((Processor.expand limits q).runOn s).1 ((Processor.expand limits q).runOn s').1 := by
  have hnone : ∀ (s : Store), ∀ f ∈ ([] : List Frame), s.contains f.name.toList = true := by simp
  cases h : ((Processor.expand limits q).runOn s).1 with
  | ok e =>
    obtain ⟨c, hc, he⟩ := expand_fresh_ok ht hs (hnone s) hq (Prod.ext h rfl)
    have h' : ((Processor.expand limits q).runOn s').1 = .ok e :=
      (expand_fresh_eq_ok_iff ht hs' (hnone s') hq).2 ⟨c, hc, he⟩
    rw [h']
    exact .ok e
  | error f =>
    obtain ⟨f₁, hf₁, halike⟩ := expand_fresh_error ht hs (hnone s) hq (Prod.ext h rfl)
    cases h' : ((Processor.expand limits q).runOn s').1 with
    | ok e =>
      obtain ⟨c, hc, -⟩ := expand_fresh_ok ht hs' (hnone s') hq (Prod.ext h' rfl)
      rw [hf₁] at hc
      cases hc
    | error g =>
      obtain ⟨g₁, hg₁, halike'⟩ := expand_fresh_error ht hs' (hnone s') hq (Prod.ext h' rfl)
      rw [hf₁] at hg₁
      cases hg₁
      exact .error (halike.of_common halike')

end Engine

/-- `M` is expanded; a `D` fails behind a macro made for its argument; the value of `M` is asked for, which is none. -/
def Sample.history : List Operation :=
  [.expand main, .codeSize "D".toList ["<!>".toList] ⟨"twice", 1, "D<<!>>()"⟩, .evaluate "M".toList ⟨"twice", 1, "M"⟩]

/-- **Earlier operations do not show.** After any operations on a program that has been read, no frame is active, the
declared macros are what they were and only numbered ones have been added; and whatever is expanded then gives what it
gives at first. -/
theorem expand_after_history {sources : Sources} {p : Program} (hp : Program.read sources = .ok p) (limits : Limits)
    (history : List Operation) :
    history.foldl (Session.perform limits) ⟨p.macros.fresh, []⟩ =
        ⟨history.foldl (Store.perform limits) p.macros.fresh, []⟩ ∧
      Store.Extends p.macros (history.foldl (Store.perform limits) p.macros.fresh) ∧
      ∀ q : Request, '-' ∉ q.name →
        Engine.Agree ((Processor.expand limits q).runOn (history.foldl (Store.perform limits) p.macros.fresh)).1
          ((Processor.expand limits q).runOn p.macros.fresh).1 := by
  have hworded := Program.read_worded hp
  have hreaches := Store.reaches_foldl_perform limits history p.macros.fresh
  refine ⟨Session.foldl_perform limits history _, Store.extends_of_reaches hworded hreaches, ?_⟩
  intro q hq
  exact Engine.agree_of_reaches hworded hreaches .refl limits (Text.isPlain_of_no_hyphen hq)

/-- Nine macros have been made, and `M` expands as at first. -/
theorem expand_after_history_main :
    Program.read Sample.twice = .ok Sample.program ∧ '-' ∉ Sample.main.name ∧
      (Sample.history.foldl (Store.perform {}) Sample.program.macros.fresh).inlineCount = 9 ∧
      Sample.history.foldl (Session.perform {}) ⟨Sample.program.macros.fresh, []⟩ =
        ⟨Sample.history.foldl (Store.perform {}) Sample.program.macros.fresh, []⟩ ∧
      Store.Extends Sample.program.macros (Sample.history.foldl (Store.perform {}) Sample.program.macros.fresh) ∧
      ∃ e, ((Processor.expand {} Sample.main).runOn Sample.program.macros.fresh).1 = .ok e ∧ e.bytes = Sample.code ∧
        Engine.Agree
          ((Processor.expand {} Sample.main).runOn
            (Sample.history.foldl (Store.perform {}) Sample.program.macros.fresh)).1 (.ok e) := by
  have hname : '-' ∉ Sample.main.name := by decide
  have hcount : (Sample.history.foldl (Store.perform {}) Sample.program.macros.fresh).inlineCount = 9 := by
    decide +kernel
  obtain ⟨hframes, hextends, hagree⟩ := expand_after_history Sample.read_twice {} Sample.history
  obtain ⟨e, he, hbytes⟩ := exists_ok_of_map Sample.bytes_main
  have hsame := hagree Sample.main hname
  have he' : ((Processor.expand {} Sample.main).runOn Sample.program.macros.fresh).1 = .ok e := he
  rw [he'] at hsame
  exact ⟨Sample.read_twice, hname, hcount, hframes, hextends, e, he', hbytes, hsame⟩

end MacroAsm
