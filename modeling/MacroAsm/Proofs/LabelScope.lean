import Mathlib.Data.List.Nodup
import MacroAsm.Proofs.Unfold

/-!
# Which label a reference stands for

A label reference belongs to the macro whose body holds it. It stands for a label of that macro's code; failing that,
of its caller's code, and so on up to the root. In the code that decides, the last definition counts.

* `Code.defs`: the labels that a code defines, in the order of their bytes;
* `Region.Defines c f label o`: within the bytes of the frame `f` of `c`, the label is defined at `o`;
* `Region.mem_defs_iff`: what a frame defines on its own is what its bytes define in the whole code;
* `expand_resolves_labels`: the operand of every label reference, and where the references without a label are kept.
-/

namespace MacroAsm

open Expansion (labelOffset?)

/-! ## definitions in the order of their bytes -/

/-- The labels that a code defines, with their offsets, in order. -/
def Code.defs (c : Code) : List (Text × Nat) := Leaves.defs c.leaves

lemma mem_defs {L : List Placed} {d : Text × Nat} :
    d ∈ Leaves.defs L ↔ ∃ p ∈ L, p.leaf = .labelDef d.1 ∧ p.offset = d.2 := by
  simp only [Leaves.defs, List.mem_filterMap, Placed.def?_eq_some]

/-- Of the definitions of a label in ascending order, the last has the greatest offset. -/
theorem lastOffset?_eq_some_iff {ds : List (Text × Nat)} (hs : ds.Pairwise fun a b => a.2 < b.2) {label : Text}
    {o : Nat} : lastOffset? ds label = some o ↔ (label, o) ∈ ds ∧ ∀ o', (label, o') ∈ ds → o' ≤ o := by
  induction ds generalizing o with
  | nil => simp [lastOffset?, labelOffset?]
  | cons d ds ih =>
    obtain ⟨hd, hs⟩ := List.pairwise_cons.1 hs
    rw [← List.singleton_append, lastOffset?_append]
    cases hr : lastOffset? ds label with
    | some r =>
      -- a later definition counts, and every earlier offset is smaller
      obtain ⟨hm, hmax⟩ := (ih hs).1 hr
      rw [Option.some_or, Option.some.injEq, List.singleton_append]
      constructor
      · rintro rfl
        refine ⟨List.mem_cons_of_mem _ hm, fun o' ho' => ?_⟩
        rcases List.mem_cons.1 ho' with rfl | ho'
        · exact Nat.le_of_lt (hd _ hm)
        · exact hmax o' ho'
      · rintro ⟨ho, hle⟩
        refine Nat.le_antisymm (hle r (List.mem_cons_of_mem _ hm)) ?_
        rcases List.mem_cons.1 ho with rfl | ho
        · exact Nat.le_of_lt (hd _ hm)
        · exact hmax o ho
    | none =>
      have hnone : ∀ o', (label, o') ∉ ds := by
        intro o' ho'
        have := lastOffset?_isSome.2 ⟨o', ho'⟩
        rw [hr] at this
        cases this
      rw [Option.none_or, List.singleton_append]
      constructor
      · intro h
        have hmem : (label, o) ∈ [d] := mem_of_labelOffset? h
        rw [List.mem_singleton] at hmem
        refine ⟨hmem ▸ List.mem_cons_self, fun o' ho' => ?_⟩
        rcases List.mem_cons.1 ho' with ho' | ho'
        · rw [← hmem, Prod.mk.injEq] at ho'
          exact Nat.le_of_eq ho'.2
        · exact absurd ho' (hnone o')
      · rintro ⟨ho, -⟩
        rcases List.mem_cons.1 ho with rfl | ho
        · simp [lastOffset?, labelOffset?]
        · exact absurd ho (hnone o)

theorem Leaves.Laid.defs_pairwise {k : Nat} {L : List Placed} (h : Laid k L) :
    (defs L).Pairwise fun a b => a.2 < b.2 := by
  unfold defs
  rw [List.pairwise_filterMap]
  refine h.pairwise.imp fun {p q} hpq a ha b hb => ?_
  have hp := (Placed.def?_eq_some.1 ha).2
  have hq := (Placed.def?_eq_some.1 hb).2
  have hpos := p.leaf.size_pos
  omega

lemma Leaves.Laid.defs_lt {L : List Placed} (h : Laid 0 L) {d : Text × Nat} (hd : d ∈ defs L) : d.2 < size L := by
  obtain ⟨p, hp, -, hoff⟩ := mem_defs.1 hd
  have := (h.bounds hp).2
  have hpos := p.leaf.size_pos
  omega

/-! ## frames -/

namespace Code

lemma defs_seq (a b : Code) : (seq a b).defs = a.defs ++ b.defs.map fun d => (d.1, a.size + d.2) := by
  unfold defs
  rw [leaves, Leaves.defs_append, Leaves.defs_map_shift]

lemma defs_frame (body : Code) : (frame body).defs = body.defs :=
  Leaves.defs_map_within _ body.leaves

lemma defs_lt {c : Code} {d : Text × Nat} (hd : d ∈ c.defs) : d.2 < c.size := by
  rw [← size_leaves]
  exact c.laid.defs_lt hd

end Code

namespace Region

/-- Within the bytes of the frame `f` of `c`, a label is defined at `o`. -/
def Defines (c : Code) (f : Region) (label : Text) (o : Nat) : Prop :=
  (label, o) ∈ c.defs ∧ f.start ≤ o ∧ o < f.start + f.body.size

/-- `o` is the last place within the bytes of the frame `f` of `c` at which a label is defined. -/
def DefinesLast (c : Code) (f : Region) (label : Text) (o : Nat) : Prop :=
  f.Defines c label o ∧ ∀ o', f.Defines c label o' → o' ≤ o

lemma defs_eq (f : Region) : f.defs = f.body.defs.map fun d => (d.1, f.start + d.2) := rfl

lemma defs_pairwise (f : Region) : f.defs.Pairwise fun a b => a.2 < b.2 := by
  rw [defs_eq, List.pairwise_map]
  exact f.body.laid.defs_pairwise.imp fun h => Nat.add_lt_add_left h f.start

/-- **A frame around a leaf lies within the code, and what it defines on its own is what its bytes define there.** -/
theorem mem_defs_iff {c : Code} {p : Placed} (hp : p ∈ c.leaves) {f : Region} (hf : f ∈ p.frames) :
    f.start + f.body.size ≤ c.size ∧
      ∀ d, d ∈ f.defs ↔ d ∈ c.defs ∧ f.start ≤ d.2 ∧ d.2 < f.start + f.body.size := by
  induction c generalizing p f with
  | empty => cases hp
  | leaf l o =>
    rw [Code.leaves, List.mem_singleton] at hp
    subst hp
    cases hf
  | seq a b iha ihb =>
    simp only [Code.defs_seq, Code.size, List.mem_append, List.mem_map]
    rcases List.mem_append.1 hp with hp | hp
    · -- a frame of the first part: nothing of the second lies in it
      obtain ⟨hsize, hdefs⟩ := iha hp hf
      refine ⟨by omega, fun d => ?_⟩
      rw [hdefs]
      constructor
      · rintro ⟨hd, hlo, hhi⟩
        exact ⟨Or.inl hd, hlo, hhi⟩
      · rintro ⟨hd | ⟨d', -, rfl⟩, hlo, hhi⟩
        · exact ⟨hd, hlo, hhi⟩
        · simp only at hhi
          omega
    · -- a frame of the second part, moved with it: nothing of the first lies in it
      obtain ⟨p', hp', rfl⟩ := List.mem_map.1 hp
      obtain ⟨f', hf', rfl⟩ := List.mem_map.1 hf
      obtain ⟨hsize, hdefs⟩ := ihb hp' hf'
      refine ⟨by simp only [shift]; omega, fun d => ?_⟩
      rw [defs_shift, List.mem_map]
      simp only [shift]
      constructor
      · rintro ⟨d', hd', rfl⟩
        obtain ⟨hd, hlo, hhi⟩ := (hdefs d').1 hd'
        exact ⟨Or.inr ⟨d', hd, rfl⟩, by simp only; omega, by simp only; omega⟩
      · rintro ⟨hd | ⟨d', hd', rfl⟩, hlo, hhi⟩
        · have := Code.defs_lt hd
          omega
        · simp only at hlo hhi
          exact ⟨d', (hdefs d').2 ⟨hd', by omega, by omega⟩, rfl⟩
  | frame body ih =>
    obtain ⟨p', hp', rfl⟩ := List.mem_map.1 hp
    rw [Code.defs_frame]
    rcases List.mem_append.1 hf with hf | hf
    · exact ih hp' hf
    · rw [List.mem_singleton] at hf
      subst hf
      refine ⟨by simp [Code.size], fun d => ?_⟩
      rw [defs_eq]
      constructor
      · intro hd
        obtain ⟨d', hd', rfl⟩ := List.mem_map.1 hd
        have := Code.defs_lt hd'
        exact ⟨by simpa using hd', by simp, by simpa using this⟩
      · rintro ⟨hd, -, -⟩
        exact List.mem_map.2 ⟨d, hd, by simp⟩

section Frame

variable {c : Code} {p : Placed} {f : Region} {label : Text} {o : Nat}

lemma lastOffset?_eq_some (hp : p ∈ c.leaves) (hf : f ∈ p.frames) :
    lastOffset? f.defs label = some o ↔ f.DefinesLast c label o := by
  rw [lastOffset?_eq_some_iff f.defs_pairwise]
  simp only [(mem_defs_iff hp hf).2]
  rfl

lemma lastOffset?_eq_none (hp : p ∈ c.leaves) (hf : f ∈ p.frames) :
    lastOffset? f.defs label = none ↔ ∀ o, ¬ f.Defines c label o := by
  rw [← Option.not_isSome_iff_eq_none, lastOffset?_isSome, not_exists]
  simp only [(mem_defs_iff hp hf).2]
  rfl

end Frame
end Region

namespace Placed

variable {c : Code} {p : Placed} {label : Text}

/-- The innermost frame that defines the label decides, by its last definition. -/
lemma target?_of_innermost (hp : p ∈ c.leaves) (hleaf : p.leaf = .labelRef label) {inner outer : List Region}
    {f : Region} (hframes : p.frames = inner ++ f :: outer) (hinner : ∀ g ∈ inner, ∀ o, ¬ g.Defines c label o)
    {o : Nat} (hf : f.DefinesLast c label o) : p.target? = some o := by
  have hmem : ∀ g ∈ inner ++ [f], g ∈ p.frames := by
    intro g hg
    rw [hframes, List.append_cons]
    exact List.mem_append_left _ hg
  have hnone : inner.findSome? (fun g => lastOffset? g.defs label) = none := by
    refine List.findSome?_eq_none_iff.2 fun g hg => ?_
    exact (Region.lastOffset?_eq_none hp (hmem g (List.mem_append_left _ hg))).2 (hinner g hg)
  have hlast : lastOffset? f.defs label = some o := (Region.lastOffset?_eq_some hp (hmem f (by simp))).2 hf
  simp [target?, hleaf, hframes, List.findSome?_append, hnone, hlast]

lemma target?_of_undefined (hp : p ∈ c.leaves) (hleaf : p.leaf = .labelRef label)
    (h : ∀ f ∈ p.frames, ∀ o, ¬ f.Defines c label o) : p.target? = none := by
  simp only [target?, hleaf]
  exact List.findSome?_eq_none_iff.2 fun f hf => (Region.lastOffset?_eq_none hp hf).2 (h f hf)

/-- A resolved reference stands for the place of a definition of its label. -/
lemma exists_labelDef_of_target? (hp : p ∈ c.leaves) (hleaf : p.leaf = .labelRef label) {o : Nat}
    (ho : p.target? = some o) : ∃ y ∈ c.leaves, y.leaf = .labelDef label ∧ y.offset = o := by
  simp only [target?, hleaf] at ho
  obtain ⟨f, hf, hlast⟩ := List.exists_of_findSome?_eq_some ho
  exact mem_defs.1 ((Region.lastOffset?_eq_some hp hf).1 hlast).1.1

lemma target?_lt (hp : p ∈ c.leaves) {o : Nat} (ho : p.target? = some o) : o < c.size := by
  cases hleaf : p.leaf
  case labelRef label =>
    obtain ⟨y, hy, hdef, hoff⟩ := exists_labelDef_of_target? hp hleaf ho
    exact Code.defs_lt (d := (label, o)) (mem_defs.2 ⟨y, hy, hdef, hoff⟩)
  all_goals simp [target?, hleaf] at ho

end Placed

/-- What fits at an offset fits at an earlier one, if the words suffice. -/
lemma Leaves.fits_of_le {start start' : Address} (hle : start.toNat ≤ start'.toNat) {c : Code}
    (hwords : start'.toNat + c.size ≤ Numeral.countLimit) (h : Fits start' c.leaves) : Fits start c.leaves := by
  intro p hp t ht
  have hlt := Placed.target?_lt hp ht
  have hfit := h p hp t ht
  rw [Address.toNat_add_of_lt (by omega)] at hfit ⊢
  omega

namespace Leaves

lemma mem_openRefs {L : List Placed} {r : LabelRef} :
    r ∈ openRefs L ↔ ∃ p ∈ L, p.leaf = .labelRef r.label ∧ p.target? = none ∧ p.offset = r.offset ∧
      p.origin = r.origin := by
  simp only [openRefs, List.mem_filterMap, Placed.openRef?_eq_some]

lemma Laid.openRefs_pairwise {k : Nat} {L : List Placed} (h : Laid k L) :
    (openRefs L).Pairwise fun a b => a.offset < b.offset := by
  unfold openRefs
  rw [List.pairwise_filterMap]
  refine h.pairwise.imp fun {p q} hpq a ha b hb => ?_
  obtain ⟨-, -, hp, -⟩ := Placed.openRef?_eq_some.1 ha
  obtain ⟨-, -, hq, -⟩ := Placed.openRef?_eq_some.1 hb
  have hpos := p.leaf.size_pos
  omega

/-- Leaves at one offset are one leaf. -/
lemma Laid.eq_of_offset {k : Nat} {L : List Placed} (h : Laid k L) {p p' : Placed} (hp : p ∈ L) (hp' : p' ∈ L)
    (ho : p.offset = p'.offset) : p = p' := by
  induction L generalizing k with
  | nil => cases hp
  | cons q L ih =>
    have hpos := q.leaf.size_pos
    have hq := h.1
    rcases List.mem_cons.1 hp with rfl | hpL <;> rcases List.mem_cons.1 hp' with rfl | hpL'
    · rfl
    · have := (h.2.bounds hpL').1
      omega
    · have := (h.2.bounds hpL).1
      omega
    · exact ih h.2 hpL hpL'

end Leaves

/-! ## expansions -/

/-- How the label references of a code stand in its expansion at `start`. -/
structure LabelsResolved (start : Address) (c : Code) (e : Expansion) : Prop where
  /-- the code accounts for every byte -/
  whole : e.bytes.length = c.size
  /-- a reference with a frame around it that defines the label: the innermost such frame decides, by its last
  definition, and the reference is closed -/
  innermost : ∀ p ∈ c.leaves, ∀ label, p.leaf = .labelRef label →
    ∀ inner f outer, p.frames = inner ++ f :: outer → (∀ g ∈ inner, ∀ o, ¬ g.Defines c label o) →
      (∃ o, f.Defines c label o) →
      ∃ o, f.DefinesLast c label o ∧ (start + o).toNat ≤ maxOffset ∧
        (e.bytes.drop p.offset).take 3 = Opcode.push2 :: Bytes.ofOffset (start + o).toNat ∧
        ⟨label, p.offset, p.origin⟩ ∉ e.unmatched
  /-- a reference without such a frame: its operand is zero and it is kept once, as it stands -/
  undefined : ∀ p ∈ c.leaves, ∀ label, p.leaf = .labelRef label → (∀ f ∈ p.frames, ∀ o, ¬ f.Defines c label o) →
    (e.bytes.drop p.offset).take 3 = [Opcode.push2, 0, 0] ∧ e.unmatched.count ⟨label, p.offset, p.origin⟩ = 1
  /-- a definition is a jump destination -/
  jumpDest : ∀ d ∈ c.defs, e.bytes[d.2]? = some Opcode.jumpDest
  /-- the labels that can be seen are the last definitions in the code itself -/
  visible : ∀ label o, labelOffset? e.labels label = some o ↔
    ∃ r, o = start + r ∧ (label, r) ∈ c.defs ∧ ∀ r', (label, r') ∈ c.defs → r' ≤ r

lemma take_labelRef {c : Code} {p : Placed} (hp : p ∈ c.leaves) {label : Text} (hleaf : p.leaf = .labelRef label)
    (start : Address) : ((Leaves.expansion start c.leaves).bytes.drop p.offset).take 3 =
      Opcode.push2 :: operand (p.target?.map (start + ·)) := by
  have := c.laid.bytes_at hp noTables start
  simp only [hleaf, Leaf.size, Placed.bytes, Placed.value?] at this
  exact this

theorem labelsResolved_expansion {c : Code} {start : Address} (hfit : Leaves.Fits start c.leaves) :
    LabelsResolved start c (Leaves.expansion start c.leaves) where
  whole := (Leaves.length_bytes noTables start c.leaves).trans c.size_leaves
  innermost p hp label hleaf inner f outer hframes hinner hdef := by
    have hf : f ∈ p.frames := by
      rw [hframes]
      simp
    obtain ⟨o, hlast⟩ : ∃ o, lastOffset? f.defs label = some o := by
      rw [← Option.isSome_iff_exists, Option.isSome_iff_ne_none, Ne, Region.lastOffset?_eq_none hp hf]
      obtain ⟨o, ho⟩ := hdef
      exact fun hall => hall o ho
    rw [Region.lastOffset?_eq_some hp hf] at hlast
    have ht := Placed.target?_of_innermost hp hleaf hframes hinner hlast
    refine ⟨o, hlast, hfit p hp o ht, ?_, ?_⟩
    · rw [take_labelRef hp hleaf, ht]
      rfl
    · intro hmem
      obtain ⟨p', hp', -, hnone, hoff, -⟩ := Leaves.mem_openRefs.1 hmem
      rw [c.laid.eq_of_offset hp' hp hoff, ht] at hnone
      cases hnone
  undefined p hp label hleaf hundef := by
    have ht := Placed.target?_of_undefined hp hleaf hundef
    refine ⟨by rw [take_labelRef hp hleaf, ht]; rfl, ?_⟩
    have hnodup : (Leaves.openRefs c.leaves).Nodup :=
      c.laid.openRefs_pairwise.imp fun {a b} hab heq => by
        rw [heq] at hab
        exact Nat.lt_irrefl _ hab
    exact List.count_eq_one_of_mem hnodup (Leaves.mem_openRefs.2 ⟨p, hp, hleaf, ht, rfl, rfl⟩)
  jumpDest d hd := by
    obtain ⟨p, hp, hleaf, hoff⟩ := mem_defs.1 hd
    have := c.laid.getElem?_bytes hp noTables start p.leaf.size_pos
    simp only [hoff, hleaf, Placed.bytes, Nat.add_zero] at this
    exact this
  visible label o := by
    show labelOffset? (Leaves.labels start c.leaves) label = some o ↔ _
    rw [Leaves.labelOffset?_labels, Option.map_eq_some_iff]
    refine exists_congr fun r => ?_
    rw [lastOffset?_eq_some_iff c.laid.defs_pairwise, and_comm, eq_comm]
    rfl

/-- Code that is only measured leaves a push of its size and no label. -/
lemma unfoldOp_codeSize {inner : Request → Engine Expansion} {child : Text → List Text → Option Origin → Engine Code}
    {b : Bindings} {op : Op} {callee : Text} {args : List Text} (hop : op.kind = .codeSize callee args)
    {s s' : Store} {c : Code} (h : (Engine.unfoldOp inner child b op).runOn s = (.ok c, s')) :
    ∃ byte data, c = .leaf (.push byte data) op.origin := by
  simp only [Engine.unfoldOp, hop, Engine.runOn_bind_ok] at h
  obtain ⟨size, s₁, -, h⟩ := h
  split at h
  · next byte _ =>
    obtain ⟨h, -⟩ := Prod.mk.inj h
    exact ⟨byte, Bytes.ofNat size, (Except.ok.inj h).symm⟩
  · cases h

/-- **Label references are resolved innermost frame first.** Whatever a macro expands to is the expansion of the code
that it unfolds to, with every label reference resolved in the innermost frame around it that defines the label, by the
last definition there; without one it stays open. An operation that measures a macro adds a push and nothing else to
that code, so the labels of the macro are seen by no reference. -/
theorem expand_resolves_labels {limits : Limits} {budget : Nat} {active : List Frame} {q : Request} {s s' : Store}
    {e : Expansion} (h : (Engine.expand limits budget active q).runOn s = (.ok e, s')) :
    (∃ c, (Engine.unfold limits budget active q.name q.args q.site).runOn s = (.ok c, s') ∧
      LabelsResolved q.start c e) ∧
    ∀ inner child b op callee args s c s', op.kind = .codeSize callee args →
      (Engine.unfoldOp inner child b op).runOn s = (.ok c, s') →
      ∃ byte data, c = .leaf (.push byte data) op.origin := by
  obtain ⟨c, hc, hfit, rfl⟩ := Engine.expand_ok_iff.1 h
  exact ⟨⟨c, hc, labelsResolved_expansion hfit⟩, fun _ _ _ _ _ _ _ _ _ hop h => unfoldOp_codeSize hop h⟩

/-! ## a program -/

namespace Sample

def origin : Origin := ⟨"sample", 1, ""⟩

def defn (name : String) (params : List String) (kinds : List OpKind) : Macro where
  name := name.toList
  takes := 0
  returns := 0
  params := params.map String.toList
  ops := kinds.map fun kind => ⟨kind, 0, origin⟩
  body := []
  origin := origin

def target : Text := "target".toList

/-- `GOTO` refers to a label that it does not define, `LOOP` calls it and defines one, `HOP` takes a label, `MAIN` uses
them all and defines the label again, `PART` also refers to a label that nothing defines. -/
def store : Store where
  macros := ⟨[
    defn "GOTO" [] [.labelRef target, .opcode 0x56],
    defn "LOOP" [] [.labelDef target, .call "GOTO".toList []],
    defn "HOP" ["to"] [.template "to".toList, .opcode 0x57],
    defn "MAIN" [] [.call "GOTO".toList [], .call "LOOP".toList [], .labelDef target, .call "HOP".toList [target],
      .codeSize "LOOP".toList [], .tableStart "T".toList],
    defn "PART" [] [.call "MAIN".toList [], .labelRef "missing".toList]]⟩

/-- `PART` at the offset 16. -/
def part : Request := ⟨"PART".toList, 16, [], none⟩

end Sample

/-- `GOTO` on its own jumps to the last `target` of `MAIN`, inside `LOOP` to that of `LOOP`. -/
theorem expand_resolves_labels_part :
    ∃ e s' c, (Engine.expand {} 256 [] Sample.part).runOn Sample.store = (.ok e, s') ∧
      e.bytes = [0x61, 0, 0x19, 0x56, 0x5b, 0x61, 0, 0x14, 0x56, 0x5b, 0x61, 0, 0x19, 0x57, 0x60, 5, 0x61, 0, 0,
        0x61, 0, 0] ∧
      (Engine.unfold {} 256 [] Sample.part.name [] none).runOn Sample.store = (.ok c, s') ∧ LabelsResolved 16 c e := by
  have hrun : ((Engine.expand {} 256 [] Sample.part).runOn Sample.store).1.toOption.map Expansion.bytes =
      some [0x61, 0, 0x19, 0x56, 0x5b, 0x61, 0, 0x14, 0x56, 0x5b, 0x61, 0, 0x19, 0x57, 0x60, 5, 0x61, 0, 0,
        0x61, 0, 0] := by
    decide +kernel
  obtain ⟨e, s', h, hb⟩ := Engine.exists_of_runOn hrun
  obtain ⟨⟨c, hc, hr⟩, -⟩ := expand_resolves_labels h
  exact ⟨e, s', c, h, hb, hc, hr⟩

end MacroAsm
