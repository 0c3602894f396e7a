import MacroAsm.Proofs.Attribution
import MacroAsm.Proofs.Placeholders

/-!
# Labels that are nowhere

A label reference that its own macro cannot resolve is handed up to the caller, and so on to the root. What the root is
left with, and reports, are the references whose label is defined nowhere in the whole program.

* `Flat.labelRefs`: the label references among some leaves, in the order of their bytes;
* `Flat.missing`: those whose label is defined by no leaf;
* `Code.openRefs_frame`: these are the references that a frame leaves open;
* `Reported`: the answer of the processor, given the leaves of the program;
* `process_reports_missing`: the processor answers so.
-/

namespace MacroAsm

/-! ## references among leaves -/

namespace Flat

/-- The label references; the first leaf stands at `k`. -/
def labelRefs : Nat → List (Leaf × Origin) → List LabelRef
  | _, [] => []
  | k, (l, o) :: L =>
    match l with
    | .labelRef label => ⟨label, k, o⟩ :: labelRefs (k + 3) L
    | _ => labelRefs (k + l.encoding.length) L

/-- A leaf defines the label. -/
def Defined (L : List (Leaf × Origin)) (label : Text) : Prop := ∃ x ∈ L, x.1 = .labelDef label

instance (L : List (Leaf × Origin)) (label : Text) : Decidable (Defined L label) :=
  inferInstanceAs (Decidable (∃ x ∈ L, x.1 = .labelDef label))

/-- The label references whose label is defined by no leaf. -/
def missing (L : List (Leaf × Origin)) : List LabelRef := (labelRefs 0 L).filter fun r => ¬ Defined L r.label

end Flat

/-- A label reference, resolved or not. -/
def Placed.labelRef? (p : Placed) : Option LabelRef :=
  match p.leaf with
  | .labelRef label => some ⟨label, p.offset, p.origin⟩
  | _ => none

lemma Leaves.Laid.labelRefs_eq {k : Nat} {L : List Placed} (h : Laid k L) :
    L.filterMap Placed.labelRef? = Flat.labelRefs k (L.map Placed.flat) := by
  induction L generalizing k with
  | nil => rfl
  | cons p L ih =>
    obtain ⟨l, o, off, frames⟩ := p
    obtain ⟨rfl, hL⟩ := h
    have ih := ih hL
    cases l with
    | labelRef label => exact congrArg (⟨label, off, o⟩ :: ·) ih
    | opcode _ | push _ _ | labelDef _ | tableRef _ => exact ih

namespace Code

lemma mem_defs_iff_defined {c : Code} {label : Text} : (∃ o, (label, o) ∈ c.defs) ↔ Flat.Defined c.flat label := by
  rw [flat_eq]
  constructor
  · rintro ⟨o, ho⟩
    obtain ⟨p, hp, hleaf, -⟩ := mem_defs.1 ho
    exact ⟨p.flat, List.mem_map_of_mem hp, hleaf⟩
  · rintro ⟨x, hx, hleaf⟩
    obtain ⟨p, hp, rfl⟩ := List.mem_map.1 hx
    exact ⟨_, mem_defs.2 ⟨p, hp, hleaf, rfl⟩⟩

/-- **A reference in a frame is open if the frame defines its label nowhere**, however deep the reference lies. -/
theorem target?_eq_none_iff (body : Code) {p : Placed} (hp : p ∈ (frame body).leaves) {label : Text}
    (hleaf : p.leaf = .labelRef label) : p.target? = none ↔ ¬ Flat.Defined (frame body).flat label := by
  rw [← mem_defs_iff_defined]
  constructor
  · rintro hnone ⟨o, ho⟩
    have hopen : ⟨label, p.offset, p.origin⟩ ∈ Leaves.openRefs (frame body).leaves :=
      Leaves.mem_openRefs.2 ⟨p, hp, hleaf, hnone, rfl, rfl⟩
    exact closed_frame body hopen ho rfl
  · intro hnot
    -- no frame within defines what the frame itself does not
    exact Placed.target?_of_undefined hp hleaf fun f _ o hf => hnot ⟨o, hf.1⟩

/-- **A frame leaves open the references whose label is defined nowhere in it.** -/
theorem openRefs_frame (body : Code) : Leaves.openRefs (frame body).leaves = Flat.missing (frame body).flat := by
  have hrefs := (frame body).laid.labelRefs_eq
  rw [← flat_eq] at hrefs
  rw [Flat.missing, ← hrefs, List.filter_filterMap]
  refine List.filterMap_congr fun p hp => ?_
  unfold Placed.openRef? Placed.labelRef?
  cases hleaf : p.leaf with
  | labelRef label =>
    simp only [Option.filter_some, Option.isNone_iff_eq_none, decide_eq_true_eq, target?_eq_none_iff body hp hleaf]
  | opcode _ | push _ _ | labelDef _ | tableRef _ => rfl

end Code

/-! ## what is reported -/

/-- A diagnostic that points at a label reference. -/
structure LabelRef.Shown (r : LabelRef) (d : Diagnostic) : Prop where
  severity : d.severity = .error
  kind : d.kind = .unmatchedLabel
  message : d.message = "unknown jump label".toList ++ ": ".toList ++ r.label
  origin : d.fault.origin = some r.origin
  place : d.line = r.origin.line ∧ d.file = some r.origin.file.toList ∧ d.source = some r.origin.text.toList

/-- The answer `r` of a processor for a root macro that expands to `e`, with the leaves `L`. -/
structure Reported (root : Text) (L : List (Leaf × Origin)) (e : Expansion) (r : Except Failure Expansion) : Prop where
  /-- the expansion is the answer if every label that is referred to is defined -/
  accepted : r = .ok e ↔ ∀ ref ∈ Flat.labelRefs 0 L, Flat.Defined L ref.label
  /-- otherwise each reference to a label that is nowhere is shown, and the message lists their labels -/
  refused : (¬ ∀ ref ∈ Flat.labelRefs 0 L, Flat.Defined L ref.label) → ∃ f, r = .error f ∧ f.kind = .unmatchedLabel ∧
    f.fault.message = "originating macro ".toList ++ root ++ ", unknown jump labels, cannot compile".toList ++
      ": ".toList ++ Text.join ", ".toList ((Flat.missing L).map (·.label)) ∧
    List.Forall₂ LabelRef.Shown (Flat.missing L) f.diagnostics
  /-- these are the references that the expansion keeps, in the order of their bytes -/
  ordered : e.unmatched = Flat.missing L ∧ (Flat.missing L).Pairwise fun a b => a.offset < b.offset

lemma shown_unmatchedDiagnostic (r : LabelRef) : r.Shown (Processor.unmatchedDiagnostic r) :=
  ⟨rfl, rfl, rfl, rfl, rfl, rfl, rfl⟩

lemma Flat.missing_eq_nil_iff {L : List (Leaf × Origin)} :
    Flat.missing L = [] ↔ ∀ r ∈ Flat.labelRefs 0 L, Flat.Defined L r.label := by
  rw [Flat.missing, List.filter_eq_nil_iff]
  simp only [decide_eq_true_eq, Classical.not_not]

/-- What a callee flattens to is a frame. -/
lemma Flatten.exists_frame_of_code {known : Store} {limits : Limits} {budget : Nat} {active : List Frame}
    {callee : Callee} {start : Address} {c : Code} (h : code known limits budget active callee start = .ok c) :
    ∃ body, c = .frame body := by
  cases budget with
  | zero => exact absurd h code_zero_ne_ok
  | succ budget =>
    obtain ⟨o, body, -, -, hc, -⟩ := code_succ_eq_ok_iff.1 h
    exact ⟨body, hc⟩

/-- What the processor makes of an expansion. -/
lemma Processor.process_of_expand {limits : Limits} {root : Text} {start : Address} {s s' : Store} {e : Expansion}
    (h : (Processor.expand limits ⟨root, start, [], none⟩).runOn s = (.ok e, s')) :
    Processor.process limits root start s = (Processor.closed root e, s') := by
  have hrun : (Processor.expand limits ⟨root, start, [], none⟩).run s = (.ok e, s') := h
  rw [process, hrun]

/-- The answer for a whole frame. -/
lemma reported_closed (root : Text) (body : Code) (start : Address) :
    Reported root (Code.frame body).flat (Leaves.expansion start (Code.frame body).leaves)
      (Processor.closed root (Leaves.expansion start (Code.frame body).leaves)) := by
  have hunmatched : (Leaves.expansion start (Code.frame body).leaves).unmatched = Flat.missing (Code.frame body).flat :=
    body.openRefs_frame
  have hordered := (Code.frame body).laid.openRefs_pairwise
  rw [body.openRefs_frame] at hordered
  rw [Processor.closed, hunmatched]
  by_cases hnil : Flat.missing (Code.frame body).flat = []
  · have hall := Flat.missing_eq_nil_iff.1 hnil
    rw [hnil, List.isEmpty_nil, if_pos rfl]
    exact ⟨iff_of_true rfl hall, fun hnot => absurd hall hnot, hunmatched, hordered⟩
  · have hnot := fun hall => hnil (Flat.missing_eq_nil_iff.2 hall)
    rw [if_neg (by simpa using hnil)]
    refine ⟨iff_of_false (fun h => by cases h) hnot, fun _ => ⟨_, rfl, rfl, rfl, ?_⟩, hunmatched, hordered⟩
    exact List.forall₂_map_right_iff.2 (List.forall₂_same.2 fun r _ => shown_unmatchedDiagnostic r)

/-- **Labels that are nowhere are reported exactly.** If the root macro expands, to the leaves of its code, then it is
processed to its expansion if every label that is referred to in these leaves is defined in them. Otherwise each
reference whose label is defined in none of them is reported, once, in the order of their bytes, with the origin of the
operation that it comes from. -/
theorem process_reports_missing {t : MacroTable} {s s' : Store} (hs : t.fresh.Reaches s) {limits : Limits} {root : Text}
    {start : Address} {e : Expansion} (h : (Processor.expand limits ⟨root, start, [], none⟩).runOn s = (.ok e, s')) :
    ∃ c, Flatten.code s' limits limits.maxDepth [] (.named root [] none) start = .ok c ∧ LaidOut start c.flat e ∧
      (∀ x ∈ c.flat, Flatten.Emitted s' x) ∧ Reported root c.flat e (Processor.process limits root start s).1 := by
  obtain ⟨c, hc, rfl, hfit⟩ := Engine.expand_flattens ((Store.numbered_declared t).reaches hs)
    (fun f hf => absurd hf List.not_mem_nil) h
  refine ⟨c, hc, laidOut_expansion hfit, Flatten.code_emitted.1 _ _ _ _ _ hc, ?_⟩
  rw [Processor.process_of_expand h]
  obtain ⟨body, rfl⟩ := Flatten.exists_frame_of_code hc
  exact reported_closed root body start

/-! ## a program with labels that are nowhere -/

namespace Sample

/-- `IN` refers to `there`, which is nowhere, and to a label of its own; `OUT` calls it twice, and refers to `gone`. -/
def lost : MacroTable := ⟨[
  defn "IN" [] [.labelRef "there".toList, .labelRef target, .labelDef target],
  defn "OUT" [] [.labelRef "gone".toList, .call "IN".toList [], .labelRef target, .call "IN".toList []]]⟩

/-- The references of `OUT` without a label: `gone`, and `there` once for each call. -/
def lostRefs : List LabelRef := [⟨"gone".toList, 0, origin⟩, ⟨"there".toList, 3, origin⟩, ⟨"there".toList, 13, origin⟩]

end Sample

theorem process_reports_missing_lost :
    ∃ (e : Expansion) (s' : Store) (c : Code) (f : Failure),
      (Processor.expand {} ⟨"OUT".toList, 16, [], none⟩).runOn Sample.lost.fresh = (.ok e, s') ∧
      LaidOut 16 c.flat e ∧ Flat.missing c.flat = Sample.lostRefs ∧
      (Processor.process {} "OUT".toList 16 Sample.lost.fresh).1 = .error f ∧
      f.fault.message = "originating macro ".toList ++ "OUT".toList ++ ", unknown jump labels, cannot compile".toList ++
        ": ".toList ++ Text.join ", ".toList ["gone".toList, "there".toList, "there".toList] ∧
      List.Forall₂ LabelRef.Shown Sample.lostRefs f.diagnostics := by
  have hrun : ((Processor.expand {} ⟨"OUT".toList, 16, [], none⟩).runOn Sample.lost.fresh).1.toOption.map
      Expansion.unmatched = some Sample.lostRefs := by
    decide +kernel
  obtain ⟨e, he, hopen⟩ := exists_ok_of_map hrun
  obtain ⟨c, -, hlaid, -, hreported⟩ := process_reports_missing .refl (Prod.ext he rfl)
  have hmissing : Flat.missing c.flat = Sample.lostRefs := hreported.ordered.1.symm.trans hopen
  have hsome : ¬ ∀ r ∈ Flat.labelRefs 0 c.flat, Flat.Defined c.flat r.label := by
    rw [← Flat.missing_eq_nil_iff, hmissing]
    exact List.cons_ne_nil _ _
  obtain ⟨f, hf, -, hmessage, hshown⟩ := hreported.refused hsome
  rw [hmissing] at hmessage hshown
  exact ⟨e, _, c, f, Prod.ext he rfl, hlaid, hmissing, hf, hmessage, hshown⟩

end MacroAsm
