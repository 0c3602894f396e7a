import MacroAsm.Proofs.Code

/-!
# Writing label references

When a frame ends, the references that are still open in it are written, in order, one placeholder at a time. On the
leaves of the frame this is one step: every leaf gets the frame around it.

* `Image.patchFor_at`: writing the placeholder that follows some bytes;
* `Leaves.resolveRefs_cases`: going through the open references of some leaves;
* `Code.resolve_cases`: a frame resolves to the leaves of `Code.frame`, or some offset does not fit two bytes; then the
  first reference with such an offset is to blame.
-/

namespace MacroAsm

/-- Bytes and open placeholders of some leaves, behind other bytes with placeholders of their own. -/
def Leaves.imageAfter (before : Bytes) (holesBefore : List Nat) (tables : Text → Option Address) (start : Address)
    (L : List Placed) : Image :=
  ⟨(before ++ bytes tables start L).toArray, holesBefore ++ holes tables L⟩

namespace Image

lemma set_operand (before rest : Bytes) (b x y u v : UInt8) :
    ((before ++ b :: x :: y :: rest).set (before.length + 1) u).set (before.length + 2) v =
      before ++ b :: u :: v :: rest := by
  rw [List.set_append_right _ _ (by omega), List.set_append_right _ _ (by omega)]
  simp

/-- Writing the placeholder right behind some bytes. -/
theorem patchFor_at {before : Bytes} {holesBefore : List Nat} (hb : ∀ h ∈ holesBefore, h < before.length)
    (rest : Bytes) (holes : List Nat) (o : Origin) (value : Address) :
    patchFor ⟨(before ++ (Opcode.push2 :: operand none ++ rest)).toArray, holesBefore ++ before.length :: holes⟩ o
      before.length value.toNat =
      if maxOffset < value.toNat then .error (.located (.offsetTooLarge value.toNat) o)
      else .ok ⟨(before ++ (Opcode.push2 :: operand (some value) ++ rest)).toArray, holesBefore ++ holes⟩ := by
  have fresh : before.length ∉ holesBefore := fun h => Nat.lt_irrefl _ (hb _ h)
  have herase : (holesBefore ++ before.length :: holes).erase before.length = holesBefore ++ holes := by
    rw [List.erase_append_right _ fresh, List.erase_cons_head]
  have hguard : (!(holesBefore ++ before.length :: holes).contains before.length ||
      (before ++ (Opcode.push2 :: operand none ++ rest)).toArray[before.length]? != some Opcode.push2) = false := by
    simp
  have hbytes : (((before ++ (Opcode.push2 :: operand none ++ rest)).toArray.setIfInBounds (before.length + 1)
      (UInt8.ofNat (value.toNat / 256))).setIfInBounds (before.length + 2) (UInt8.ofNat (value.toNat % 256))) =
      (before ++ (Opcode.push2 :: operand (some value) ++ rest)).toArray := by
    rw [List.setIfInBounds_toArray, List.setIfInBounds_toArray]
    exact congrArg List.toArray (set_operand before rest _ 0 0 _ _)
  simp only [patchFor_eq, written, hguard, herase, hbytes, Bool.false_eq_true, if_false]

end Image

namespace Placed

lemma openRef?_eq_some {p : Placed} {r : LabelRef} :
    p.openRef? = some r ↔
      p.leaf = .labelRef r.label ∧ p.target? = none ∧ p.offset = r.offset ∧ p.origin = r.origin := by
  obtain ⟨label, offset, origin⟩ := r
  unfold openRef?
  cases p.leaf <;> simp
  tauto

/-- A frame around a leaf changes nothing but open label references. -/
lemma target?_within_of_not_open {p : Placed} (h : p.openRef? = none) (f : Region) :
    (p.within f).target? = p.target? := by
  cases hl : p.leaf
  case labelRef label =>
    have hs : p.target? ≠ none := by
      intro ht
      simp [openRef?, hl, ht] at h
    obtain ⟨t, ht⟩ := Option.ne_none_iff_exists'.1 hs
    rw [target?_within f p hl, ht]
    rfl
  all_goals simp [target?, within, hl]

section Unchanged

variable {p : Placed} {f : Region} (h : (p.within f).target? = p.target?)

include h

lemma value?_within (tables : Text → Option Address) (start : Address) :
    (p.within f).value? tables start = p.value? tables start := by
  unfold value?
  rw [h]
  rfl

lemma bytes_within (tables : Text → Option Address) (start : Address) :
    (p.within f).bytes tables start = p.bytes tables start := by
  unfold bytes
  rw [value?_within h]
  rfl

lemma hole?_within (tables : Text → Option Address) : (p.within f).hole? tables = p.hole? tables := by
  unfold hole?
  rw [value?_within h]
  rfl

lemma openRef?_within : (p.within f).openRef? = p.openRef? := by
  unfold openRef?
  rw [h]
  rfl

end Unchanged

lemma hole?_eq_some {tables : Text → Option Address} {p : Placed} {h : Nat} :
    p.hole? tables = some h ↔ (p.leaf.isRef = true ∧ p.value? tables 0 = none) ∧ p.offset = h := by
  simp [hole?]

lemma hole?_of_openRef? {p : Placed} {r : LabelRef} (h : p.openRef? = some r) (tables : Text → Option Address) :
    p.hole? tables = some p.offset := by
  obtain ⟨hleaf, hnone, -⟩ := openRef?_eq_some.1 h
  exact hole?_eq_some.2 ⟨⟨by rw [hleaf]; rfl, by simp [value?, hleaf, hnone]⟩, rfl⟩

lemma bytes_of_hole? {tables : Text → Option Address} {p : Placed} {h : Nat} (hp : p.hole? tables = some h)
    (start : Address) :
    p.bytes tables start = Opcode.push2 :: operand none := by
  obtain ⟨⟨hr, hv⟩, -⟩ := hole?_eq_some.1 hp
  have hv' : p.value? tables start = none := by
    rw [← Option.isNone_iff_eq_none, value?_isNone tables start 0, hv]
    rfl
  rw [bytes_of_isRef hr, hv']

/-- The fault of a label reference in code that starts at `start` whose offset does not fit two bytes. -/
def excess? (start : Address) (p : Placed) : Option Fault :=
  (p.target?.filter fun t => maxOffset < (start + t).toNat).map fun t =>
    .located (.offsetTooLarge (start + t).toNat) p.origin

lemma excess?_eq_none {start : Address} {p : Placed} :
    p.excess? start = none ↔ ∀ t, p.target? = some t → (start + t).toNat ≤ maxOffset := by
  simp [excess?]

end Placed

namespace Leaves

lemma filterMap_cons_toList {α β : Type} (f : α → Option β) (a : α) (l : List α) :
    (a :: l).filterMap f = (f a).toList ++ l.filterMap f := by
  rw [List.filterMap_eq_flatMap_toList, List.flatMap_cons, ← List.filterMap_eq_flatMap_toList]

lemma openRefs_cons (p : Placed) (L : List Placed) : openRefs (p :: L) = p.openRef?.toList ++ openRefs L :=
  filterMap_cons_toList _ p L

lemma holes_cons (tables : Text → Option Address) (p : Placed) (L : List Placed) :
    holes tables (p :: L) = (p.hole? tables).toList ++ holes tables L :=
  filterMap_cons_toList _ p L

/-- The first leaf counted to what stands before. -/
lemma imageAfter_cons (before : Bytes) (hb : List Nat) (tables : Text → Option Address) (start : Address) (p : Placed)
    (L : List Placed) : imageAfter before hb tables start (p :: L) =
      imageAfter (before ++ p.bytes tables start) (hb ++ (p.hole? tables).toList) tables start L := by
  simp [imageAfter, bytes_cons, holes_cons]

lemma holes_before_lt {before : Bytes} {hb : List Nat} (hlt : ∀ h ∈ hb, h < before.length) {p : Placed}
    (hoff : p.offset = before.length) (tables : Text → Option Address) (start : Address) :
    ∀ h ∈ hb ++ (p.hole? tables).toList, h < (before ++ p.bytes tables start).length := by
  intro h hh
  have hpos := p.leaf.size_pos
  rw [List.length_append, Placed.length_bytes]
  rcases List.mem_append.1 hh with hh | hh
  · have := hlt h hh
    omega
  · have := (Placed.hole?_eq_some.1 (Option.mem_toList.1 hh)).2
    omega

/-- Writing the first leaf, which is an open placeholder. -/
theorem patchFor_imageAfter {before : Bytes} {hb : List Nat} {tables : Text → Option Address} {p : Placed} {h : Nat}
    (hp : p.hole? tables = some h) (hoff : p.offset = before.length) (hlt : ∀ h ∈ hb, h < before.length)
    (start : Address) (L : List Placed) (o : Origin) (value : Address) :
    (imageAfter before hb tables start (p :: L)).patchFor o p.offset value.toNat =
      if maxOffset < value.toNat then .error (.located (.offsetTooLarge value.toNat) o)
      else .ok (imageAfter (before ++ (Opcode.push2 :: operand (some value))) hb tables start L) := by
  have himage : imageAfter before hb tables start (p :: L) =
      ⟨(before ++ (Opcode.push2 :: operand none ++ bytes tables start L)).toArray,
        hb ++ before.length :: holes tables L⟩ := by
    rw [imageAfter, bytes_cons, holes_cons, hp, Placed.bytes_of_hole? hp, ← (Placed.hole?_eq_some.1 hp).2, hoff]
    rfl
  rw [himage, hoff, Image.patchFor_at hlt]
  simp [imageAfter]

/-! ## a frame ends -/

section Resolve

open Expansion (labelOffset? resolveRefs)

variable {start : Address} {f : Region} {labels : List (Text × Address)}
  (hl : ∀ label, labelOffset? labels label = (lastOffset? f.defs label).map (start + ·))

include hl

/-- The first leaf of a frame that ends: if the offset that it gets fits, the rest is left to do behind it. -/
lemma resolveRefs_cons {before : Bytes} {hb : List Nat} (hlt : ∀ h ∈ hb, h < before.length) {p : Placed}
    (hoff : p.offset = before.length) (L : List Placed)
    (hfit : ∀ t, (p.within f).target? = some t → (start + t).toNat ≤ maxOffset) :
    resolveRefs labels (openRefs (p :: L)) (imageAfter before hb noTables start (p :: L)) =
      (resolveRefs labels (openRefs L)
        (imageAfter (before ++ (p.within f).bytes noTables start) (hb ++ ((p.within f).hole? noTables).toList)
          noTables start L)).map fun x => ((p.within f).openRef?.toList ++ x.1, x.2) := by
  rw [openRefs_cons]
  cases ho : p.openRef? with
  | none =>
    -- nothing to write: the frame makes no difference to this leaf
    have same := Placed.target?_within_of_not_open ho f
    rw [Placed.bytes_within same, Placed.hole?_within same, Placed.openRef?_within same, ho, imageAfter_cons]
    show resolveRefs labels (openRefs L) _ = _
    cases resolveRefs labels (openRefs L) _ <;> rfl
  | some r =>
    obtain ⟨hleaf, hnone, hro, -⟩ := Placed.openRef?_eq_some.1 ho
    have htarget : (p.within f).target? = lastOffset? f.defs r.label := by
      rw [Placed.target?_within f p hleaf, hnone, Option.none_or]
    rw [Option.toList_some, List.singleton_append, resolveRefs, hl]
    cases hd : lastOffset? f.defs r.label with
    | none =>
      -- the label is not defined here: the reference stays open
      have same : (p.within f).target? = p.target? := by rw [htarget, hd, hnone]
      rw [Placed.bytes_within same, Placed.hole?_within same, Placed.openRef?_within same, ho, imageAfter_cons]
      simp only [Option.map_none]
      cases resolveRefs labels (openRefs L) _ <;> rfl
    | some t =>
      -- the label is defined here: its offset is written
      rw [hd] at htarget
      have hleaf' : (p.within f).leaf = .labelRef r.label := hleaf
      have hnotOpen : (p.within f).openRef? = none := by
        simp [Placed.openRef?, hleaf', htarget]
      have hbytes : (p.within f).bytes noTables start = Opcode.push2 :: operand (some (start + t)) := by
        simp [Placed.bytes, Placed.value?, hleaf', htarget]
      have hclosed : (p.within f).hole? noTables = none := by
        simp [Placed.hole?, Placed.value?, hleaf', htarget]
      have hwrite := patchFor_imageAfter (Placed.hole?_of_openRef? ho noTables) hoff hlt start L r.origin (start + t)
      rw [if_neg (Nat.not_lt.2 (hfit t htarget))] at hwrite
      rw [hnotOpen, hbytes, hclosed, ← hro, Option.map_some]
      simp only [hwrite, Option.toList_none, List.append_nil, List.nil_append]
      show resolveRefs labels (openRefs L) _ = _
      cases resolveRefs labels (openRefs L) _ <;> rfl

/-- An offset that does not fit stops the first leaf. -/
lemma resolveRefs_cons_large {before : Bytes} {hb : List Nat} (hlt : ∀ h ∈ hb, h < before.length) {p : Placed}
    (hoff : p.offset = before.length) (L : List Placed)
    (hfit : ∀ t, p.target? = some t → (start + t).toNat ≤ maxOffset) {t : Nat} (ht : (p.within f).target? = some t)
    (hlarge : maxOffset < (start + t).toNat) :
    resolveRefs labels (openRefs (p :: L)) (imageAfter before hb noTables start (p :: L)) =
      .error (.located (.offsetTooLarge (start + t).toNat) p.origin) := by
  cases ho : p.openRef? with
  | none =>
    rw [Placed.target?_within_of_not_open ho] at ht
    exact absurd (hfit t ht) (Nat.not_le.2 hlarge)
  | some r =>
    obtain ⟨hleaf, hnone, hro, horigin⟩ := Placed.openRef?_eq_some.1 ho
    rw [Placed.target?_within f p hleaf, hnone, Option.none_or] at ht
    have hwrite := patchFor_imageAfter (Placed.hole?_of_openRef? ho noTables) hoff hlt start L p.origin (start + t)
    rw [if_pos hlarge] at hwrite
    rw [openRefs_cons, ho, Option.toList_some, List.singleton_append, resolveRefs, hl, ht, Option.map_some]
    rw [← hro, ← horigin]
    simp only [hwrite]
    rfl

/-- **Going through the open references of some leaves** puts the frame around each leaf, unless an offset does not
fit. -/
theorem resolveRefs_cases {L : List Placed} {before : Bytes} {hb : List Nat} (hL : Laid before.length L)
    (hlt : ∀ h ∈ hb, h < before.length) (hfit : Fits start L) :
    (Fits start (L.map (Placed.within f)) ∧
      resolveRefs labels (openRefs L) (imageAfter before hb noTables start L) =
        .ok (openRefs (L.map (Placed.within f)), imageAfter before hb noTables start (L.map (Placed.within f)))) ∨
    (¬ Fits start (L.map (Placed.within f)) ∧ ∃ v o, maxOffset < v ∧
      (L.map (Placed.within f)).findSome? (Placed.excess? start) = some (.located (.offsetTooLarge v) o) ∧
      resolveRefs labels (openRefs L) (imageAfter before hb noTables start L) =
        .error (.located (.offsetTooLarge v) o)) := by
  -- on the leaves; what has been gone through is counted to the bytes before
  induction L generalizing before hb with
  | nil => exact Or.inl ⟨by simp [Fits], rfl⟩
  | cons p L ih =>
    have hp : ∀ t, p.target? = some t → (start + t).toNat ≤ maxOffset := hfit p List.mem_cons_self
    by_cases hpf : ∀ t, (p.within f).target? = some t → (start + t).toNat ≤ maxOffset
    · have hL' : Laid (before ++ (p.within f).bytes noTables start).length L := by
        rw [List.length_append, Placed.length_bytes]
        exact hL.2
      have hoff : (p.within f).offset = before.length := hL.1
      have hlt' := holes_before_lt hlt hoff noTables start
      rw [resolveRefs_cons hl hlt hL.1 L hpf, List.map_cons, openRefs_cons, imageAfter_cons _ _ _ _ (p.within f)]
      have hnone := Placed.excess?_eq_none.2 hpf
      rcases ih hL' hlt' fun q hq => hfit q (List.mem_cons_of_mem _ hq) with ⟨hf, hok⟩ | ⟨hf, v, o, hv, hfirst, herr⟩
      · refine Or.inl ⟨?_, by rw [hok]; rfl⟩
        intro q hq
        rcases List.mem_cons.1 hq with rfl | hq
        · exact hpf
        · exact hf q hq
      · refine Or.inr ⟨fun h => hf fun q hq => h q (List.mem_cons_of_mem _ hq), v, o, hv, ?_, by rw [herr]; rfl⟩
        rw [List.findSome?_cons, hnone]
        exact hfirst
    · simp only [not_forall, Nat.not_le] at hpf
      obtain ⟨t, ht, hlarge⟩ := hpf
      refine Or.inr ⟨fun h => ?_, (start + t).toNat, p.origin, hlarge, ?_,
        resolveRefs_cons_large hl hlt hL.1 L hp ht hlarge⟩
      · exact absurd (h _ (List.mem_map_of_mem List.mem_cons_self) t ht) (Nat.not_le.2 hlarge)
      · have hexcess : (p.within f).excess? start = some (.located (.offsetTooLarge (start + t).toNat) p.origin) := by
          rw [Placed.excess?, ht, Option.filter_some, if_pos (decide_eq_true hlarge)]
          rfl
        rw [List.map_cons, List.findSome?_cons, hexcess]

end Resolve

lemma defs_map_within (f : Region) (L : List Placed) : defs (L.map (Placed.within f)) = defs L := by
  unfold defs
  rw [List.filterMap_map]
  rfl

lemma labels_map_within (start : Address) (f : Region) (L : List Placed) :
    labels start (L.map (Placed.within f)) = labels start L := by
  unfold labels
  rw [defs_map_within]

lemma origins_map_within (f : Region) (L : List Placed) : origins (L.map (Placed.within f)) = origins L := by
  unfold origins
  rw [List.flatMap_map]
  rfl

lemma tableRefs_map_within (start : Address) (f : Region) (L : List Placed) :
    tableRefs start (L.map (Placed.within f)) = tableRefs start L := by
  unfold tableRefs
  rw [List.filterMap_map]
  rfl

lemma labelOffset?_labels (start : Address) (L : List Placed) (label : Text) :
    Expansion.labelOffset? (labels start L) label = (lastOffset? (defs L) label).map (start + ·) := by
  rw [labels, labelOffset?_map, labelOffset?_lastOnly]

end Leaves

/-- **The end of a frame.** The labels that a frame defines are written into the references that are open in it, which
gives the expansion of the whole frame, unless an offset does not fit. -/
theorem Code.resolve_cases (body : Code) {start : Address} (hfit : Leaves.Fits start body.leaves) :
    (Leaves.Fits start (frame body).leaves ∧
      (Leaves.expansion start body.leaves).resolve = .ok (Leaves.expansion start (frame body).leaves)) ∨
    (¬ Leaves.Fits start (frame body).leaves ∧ ∃ v o, maxOffset < v ∧
      (frame body).leaves.findSome? (Placed.excess? start) = some (.located (.offsetTooLarge v) o) ∧
      (Leaves.expansion start body.leaves).resolve = .error (.located (.offsetTooLarge v) o)) := by
  have himage : (Leaves.expansion start body.leaves).image = Leaves.imageAfter [] [] noTables start body.leaves := by
    simp [Expansion.image, Leaves.imageAfter, Leaves.expansion]
  unfold Expansion.resolve
  rw [himage]
  have hlabels : ∀ label, Expansion.labelOffset? (Leaves.labels start body.leaves) label =
      (lastOffset? (Region.mk 0 body).defs label).map (start + ·) := by
    rw [Region.defs_zero]
    exact Leaves.labelOffset?_labels start body.leaves
  have hlaid : Leaves.Laid ([] : Bytes).length body.leaves := body.laid
  have hbefore : ∀ h ∈ ([] : List Nat), h < ([] : Bytes).length := by simp
  rcases Leaves.resolveRefs_cases hlabels hlaid hbefore hfit with ⟨hf, hok⟩ | ⟨hf, v, o, hv, hfirst, herr⟩
  · refine Or.inl ⟨hf, ?_⟩
    simp only [Leaves.expansion] at hok ⊢
    rw [hok]
    simp [Expansion.withImage, Leaves.imageAfter, leaves, Leaves.labels_map_within, Leaves.origins_map_within,
      Leaves.tableRefs_map_within, bind, Except.bind, pure, Except.pure]
  · refine Or.inr ⟨hf, v, o, hv, hfirst, ?_⟩
    simp only [Leaves.expansion] at herr ⊢
    rw [herr]
    rfl

end MacroAsm
