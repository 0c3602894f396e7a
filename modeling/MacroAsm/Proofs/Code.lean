import Mathlib.Data.List.Basic
import Mathlib.Tactic.Common
import MacroAsm.Expansion

/-!
# Code before its offsets are known

What a macro expands to has a shape that does not depend on where it stands: leaves one behind the other, grouped by
the frames that hold them. A label reference looks for its label in the frames around it, the innermost first.

* `Code`: the shape; `Code.leaves`: its leaves in order, each with its offset from the start and the frames around it;
* `Placed.target?`: the offset from the start that a label reference stands for, by the frames around it;
* `Leaves.expansion start`: the expansion of some leaves at an absolute offset, which is where the offsets of labels and
  tables become words;
* `Leaves.expansion_append`, `Leaves.shift_expansion`: expansions of joined and of moved leaves;
* `Leaves.Laid`: the leaves follow each other without a gap; `Code.laid`: those of a code do.
-/

namespace MacroAsm

/-- A piece of code that holds no other. -/
inductive Leaf where
  | opcode (byte : Opcode)
  | push (byte : Opcode) (data : Bytes)
  | labelDef (label : Text)
  | labelRef (label : Text)
  | tableRef (table : Text)
  deriving DecidableEq

namespace Leaf

/-- The number of bytes. -/
def size : Leaf → Nat
  | opcode _ | labelDef _ => 1
  | push _ data => data.length + 1
  | labelRef _ | tableRef _ => 3

/-- A two-byte push of an offset. -/
def isRef : Leaf → Bool
  | labelRef _ | tableRef _ => true
  | _ => false

lemma size_pos (l : Leaf) : 0 < l.size := by
  cases l <;> simp [size]

lemma cases_of_isRef {l : Leaf} (h : l.isRef = true) :
    (∃ label, l = .labelRef label) ∨ ∃ table, l = .tableRef table := by
  cases l <;> simp_all [isRef]

lemma size_of_isRef {l : Leaf} (h : l.isRef = true) : l.size = 3 := by
  rcases cases_of_isRef h with ⟨label, rfl⟩ | ⟨table, rfl⟩ <;> rfl

end Leaf

/-- The shape of an expansion: leaves with the frames that hold them. -/
inductive Code where
  | empty
  | leaf (l : Leaf) (o : Origin)
  /-- one behind the other -/
  | seq (a b : Code)
  /-- the code of one macro that was entered -/
  | frame (body : Code)
  deriving DecidableEq

/-- The number of bytes. -/
def Code.size : Code → Nat
  | empty => 0
  | leaf l _ => l.size
  | seq a b => a.size + b.size
  | frame body => body.size

/-- A frame around a leaf and the offset at which it starts. -/
structure Region where
  start : Nat
  body : Code
  deriving DecidableEq

/-- A leaf with its offset and the frames around it, the innermost first. -/
structure Placed where
  leaf : Leaf
  origin : Origin
  offset : Nat
  frames : List Region
  deriving DecidableEq

/-- A frame moved `k` bytes on. -/
def Region.shift (k : Nat) (f : Region) : Region := { f with start := k + f.start }

namespace Placed

/-- A leaf moved `k` bytes on, with the frames around it. -/
def shift (k : Nat) (p : Placed) : Placed :=
  { p with offset := k + p.offset, frames := p.frames.map (Region.shift k) }

/-- A leaf with one more frame around it. -/
def within (f : Region) (p : Placed) : Placed := { p with frames := p.frames ++ [f] }

/-- The label that a leaf defines, with its offset. -/
def def? (p : Placed) : Option (Text × Nat) :=
  match p.leaf with
  | .labelDef label => some (label, p.offset)
  | _ => none

end Placed

/-- The leaves of a code, in order. -/
def Code.leaves : Code → List Placed
  | empty => []
  | leaf l o => [⟨l, o, 0, []⟩]
  | seq a b => a.leaves ++ b.leaves.map (Placed.shift a.size)
  | frame body => body.leaves.map (Placed.within ⟨0, body⟩)

/-- The labels that leaves define, in order. -/
def Leaves.defs (L : List Placed) : List (Text × Nat) := L.filterMap Placed.def?

/-- The labels that a frame defines, with their offsets, in the order of its bytes. -/
def Region.defs (f : Region) : List (Text × Nat) := (Leaves.defs f.body.leaves).map fun d => (d.1, f.start + d.2)

/-- The offset of the last definition of a label. -/
def lastOffset? {α : Type} (defs : List (Text × α)) (label : Text) : Option α :=
  Expansion.labelOffset? defs.reverse label

namespace Placed

/-- The offset that a label reference stands for: the last definition in the innermost frame that has one. -/
def target? (p : Placed) : Option Nat :=
  match p.leaf with
  | .labelRef label => p.frames.findSome? fun f => lastOffset? f.defs label
  | _ => none

/-- The absolute offset that a reference stands for, if it is known. -/
def value? (tables : Text → Option Address) (start : Address) (p : Placed) : Option Address :=
  match p.leaf with
  | .labelRef _ => p.target?.map (start + ·)
  | .tableRef table => tables table
  | _ => none

end Placed

/-- The two bytes of an offset, zeros while it is not known. -/
def operand : Option Address → Bytes
  | some a => Bytes.ofOffset a.toNat
  | none => [0, 0]

@[simp] lemma length_operand (v : Option Address) : (operand v).length = 2 := by
  cases v <;> rfl

namespace Placed

/-- The bytes of a leaf in code that starts at `start`. -/
def bytes (tables : Text → Option Address) (start : Address) (p : Placed) : Bytes :=
  match p.leaf with
  | .opcode byte => [byte]
  | .push byte data => byte :: data
  | .labelDef _ => [Opcode.jumpDest]
  | .labelRef _ | .tableRef _ => Opcode.push2 :: operand (p.value? tables start)

/-- The offset of a reference that is not known. -/
def hole? (tables : Text → Option Address) (p : Placed) : Option Nat :=
  if p.leaf.isRef && (p.value? tables 0).isNone then some p.offset else none

/-- A label reference that no frame around it resolves. -/
def openRef? (p : Placed) : Option LabelRef :=
  match p.leaf with
  | .labelRef label => if p.target?.isNone then some ⟨label, p.offset, p.origin⟩ else none
  | _ => none

/-- A table reference in code that starts at `start`. -/
def tableRef? (start : Address) (p : Placed) : Option TableRef :=
  match p.leaf with
  | .tableRef table => some ⟨table, start + p.offset, p.origin⟩
  | _ => none

@[simp] lemma length_bytes (tables : Text → Option Address) (start : Address) (p : Placed) :
    (p.bytes tables start).length = p.leaf.size := by
  unfold bytes Leaf.size
  cases p.leaf <;> simp

lemma bytes_of_isRef {p : Placed} (h : p.leaf.isRef = true) (tables : Text → Option Address) (start : Address) :
    p.bytes tables start = Opcode.push2 :: operand (p.value? tables start) := by
  unfold bytes
  rcases Leaf.cases_of_isRef h with ⟨label, hl⟩ | ⟨table, hl⟩ <;> rw [hl]

end Placed

/-! ## leaves -/

/-- No table has an offset yet. -/
def noTables : Text → Option Address := fun _ => none

/-- The definitions that count: of two for one label the last. -/
def lastOnly {α : Type} : List (Text × α) → List (Text × α)
  | [] => []
  | d :: ds => if ds.any fun d' => d'.1 == d.1 then lastOnly ds else d :: lastOnly ds

namespace Leaves

/-- The number of bytes of some leaves. -/
def size : List Placed → Nat
  | [] => 0
  | p :: L => p.leaf.size + size L

/-- The bytes of some leaves. -/
def bytes (tables : Text → Option Address) (start : Address) (L : List Placed) : Bytes :=
  L.flatMap (Placed.bytes tables start)

/-- An origin for each byte. -/
def origins (L : List Placed) : List Origin := L.flatMap fun p => List.replicate p.leaf.size p.origin

/-- The labels with their absolute offsets, each name once. -/
def labels (start : Address) (L : List Placed) : List (Text × Address) :=
  (lastOnly (defs L)).map fun d => (d.1, start + d.2)

/-- The references that are not known. -/
def holes (tables : Text → Option Address) (L : List Placed) : List Nat := L.filterMap (Placed.hole? tables)

/-- The label references that no frame resolves. -/
def openRefs (L : List Placed) : List LabelRef := L.filterMap Placed.openRef?

/-- The table references. -/
def tableRefs (start : Address) (L : List Placed) : List TableRef := L.filterMap (Placed.tableRef? start)

/-- The expansion of some leaves at an absolute offset. -/
def expansion (start : Address) (L : List Placed) : Expansion where
  bytes := bytes noTables start L
  origins := origins L
  labels := labels start L
  unmatched := openRefs L
  tableRefs := tableRefs start L
  placeholders := holes noTables L

/-- The leaves follow each other without a gap, the first at `k`. -/
def Laid : Nat → List Placed → Prop
  | _, [] => True
  | k, p :: L => p.offset = k ∧ Laid (k + p.leaf.size) L

/-- Every offset that a label reference stands for fits two bytes. -/
def Fits (start : Address) (L : List Placed) : Prop :=
  ∀ p ∈ L, ∀ t, p.target? = some t → (start + t).toNat ≤ maxOffset

end Leaves

/-! ## the definitions that count -/

section Defs

open Expansion (labelOffset? joinLabels)

variable {α β : Type}

lemma mem_of_labelOffset? {ds : List (Text × α)} {label : Text} {o : α} (h : labelOffset? ds label = some o) :
    (label, o) ∈ ds := by
  obtain ⟨d, hd, rfl⟩ := Option.map_eq_some_iff.1 h
  have hlabel : d.1 = label := by
    have := List.find?_some hd
    simpa using this
  rw [← hlabel]
  exact List.mem_of_find?_eq_some hd

lemma labelOffset?_append (a b : List (Text × α)) (label : Text) :
    labelOffset? (a ++ b) label = (labelOffset? a label).or (labelOffset? b label) := by
  unfold labelOffset?
  rw [List.find?_append]
  cases a.find? fun d => d.1 == label <;> rfl

lemma lastOffset?_append (a b : List (Text × α)) (label : Text) :
    lastOffset? (a ++ b) label = (lastOffset? b label).or (lastOffset? a label) := by
  unfold lastOffset?
  rw [List.reverse_append, labelOffset?_append]

lemma labelOffset?_map (g : α → β) (ds : List (Text × α)) (label : Text) :
    labelOffset? (ds.map fun d => (d.1, g d.2)) label = (labelOffset? ds label).map g := by
  unfold labelOffset?
  rw [List.find?_map, Option.map_map, Option.map_map]
  rfl

lemma lastOffset?_map (g : α → β) (ds : List (Text × α)) (label : Text) :
    lastOffset? (ds.map fun d => (d.1, g d.2)) label = (lastOffset? ds label).map g := by
  unfold lastOffset?
  rw [← List.map_reverse, labelOffset?_map]

lemma lastOffset?_isSome {ds : List (Text × α)} {label : Text} :
    (lastOffset? ds label).isSome ↔ ∃ o, (label, o) ∈ ds := by
  simp [lastOffset?, labelOffset?]

lemma any_lastOnly (ds : List (Text × α)) (label : Text) :
    ((lastOnly ds).any fun d => d.1 == label) = ds.any fun d => d.1 == label := by
  induction ds with
  | nil => rfl
  | cons d ds ih =>
    by_cases h : (ds.any fun d' => d'.1 == d.1) = true
    · simp only [lastOnly, h, if_true, List.any_cons, ih]
      by_cases hd : d.1 = label
      · subst hd; simp [h]
      · simp [hd]
    · simp [lastOnly, h, ih]

theorem lastOnly_append (a b : List (Text × α)) :
    lastOnly (a ++ b) = joinLabels (lastOnly a) (lastOnly b) := by
  induction a with
  | nil => simp [lastOnly, joinLabels]
  | cons d a ih =>
    rw [List.cons_append, lastOnly, lastOnly, List.any_append, ih]
    by_cases ha : (a.any fun d' => d'.1 == d.1) = true
    · simp [ha]
    · rw [if_neg ha]
      by_cases hb : (b.any fun d' => d'.1 == d.1) = true
      · simp [joinLabels, any_lastOnly, hb]
      · simp [joinLabels, any_lastOnly, ha, hb]

theorem labelOffset?_lastOnly (ds : List (Text × α)) (label : Text) :
    labelOffset? (lastOnly ds) label = lastOffset? ds label := by
  induction ds with
  | nil => rfl
  | cons d ds ih =>
    rw [← List.singleton_append, lastOffset?_append, lastOnly_append, Expansion.labelOffset?_joinLabels, ih]
    rfl

lemma lastOnly_sublist (ds : List (Text × α)) : (lastOnly ds).Sublist ds := by
  induction ds with
  | nil => exact List.Sublist.refl []
  | cons d ds ih =>
    unfold lastOnly
    split
    · exact ih.cons d
    · exact ih.cons_cons d

lemma lastOnly_nodup (ds : List (Text × α)) : ((lastOnly ds).map Prod.fst).Nodup := by
  induction ds with
  | nil => exact List.nodup_nil
  | cons d ds ih =>
    unfold lastOnly
    split
    · exact ih
    · next h =>
      refine List.nodup_cons.2 ⟨fun hm => h ?_, ih⟩
      obtain ⟨e, he, hed⟩ := List.mem_map.1 hm
      exact List.any_eq_true.2 ⟨e, (lastOnly_sublist ds).subset he, beq_iff_eq.2 hed⟩

lemma lastOnly_map (g : α → β) (ds : List (Text × α)) :
    lastOnly (ds.map fun d => (d.1, g d.2)) = (lastOnly ds).map fun d => (d.1, g d.2) := by
  induction ds with
  | nil => rfl
  | cons d ds ih =>
    simp only [List.map_cons, lastOnly, ih]
    have same : ((ds.map fun d => (d.1, g d.2)).any fun d' => d'.1 == d.1) = ds.any fun d' => d'.1 == d.1 := by
      rw [List.any_map]; rfl
    rw [same]
    split <;> rfl

end Defs

/-! ## joined and moved leaves -/

namespace Region

lemma defs_zero (body : Code) : (Region.mk 0 body).defs = Leaves.defs body.leaves := by
  simp [defs]

lemma defs_shift (k : Nat) (f : Region) : (f.shift k).defs = f.defs.map fun d => (d.1, k + d.2) := by
  simp [defs, shift, Nat.add_assoc]

end Region

namespace Placed

lemma target?_shift (k : Nat) (p : Placed) : (p.shift k).target? = p.target?.map (k + ·) := by
  unfold target? shift
  cases p.leaf <;> try rfl
  case labelRef label =>
    simp only
    induction p.frames with
    | nil => rfl
    | cons f fs ih =>
      rw [List.map_cons, List.findSome?_cons, List.findSome?_cons, ih, Region.defs_shift, lastOffset?_map]
      cases lastOffset? f.defs label <;> rfl

lemma target?_within (f : Region) (p : Placed) {label : Text} (h : p.leaf = .labelRef label) :
    (p.within f).target? = p.target?.or (lastOffset? f.defs label) := by
  simp only [target?, within, h, List.findSome?_append]
  simp

lemma value?_shift (tables : Text → Option Address) (start : Address) (k : Nat) (p : Placed) :
    (p.shift k).value? tables start = p.value? tables (start + k) := by
  unfold value?
  rw [target?_shift]
  cases h : p.leaf <;> simp [shift, h, Function.comp_def]

lemma value?_isNone (tables : Text → Option Address) (start start' : Address) (p : Placed) :
    (p.value? tables start).isNone = (p.value? tables start').isNone := by
  unfold value?
  cases p.leaf <;> simp

lemma bytes_shift (tables : Text → Option Address) (start : Address) (k : Nat) (p : Placed) :
    (p.shift k).bytes tables start = p.bytes tables (start + k) := by
  unfold bytes
  rw [value?_shift]
  rfl

lemma def?_shift (k : Nat) (p : Placed) : (p.shift k).def? = p.def?.map fun d => (d.1, k + d.2) := by
  unfold def? shift
  cases p.leaf <;> rfl

lemma def?_eq_some {p : Placed} {d : Text × Nat} : p.def? = some d ↔ p.leaf = .labelDef d.1 ∧ p.offset = d.2 := by
  unfold def?
  cases p.leaf <;> simp [Prod.ext_iff]

lemma hole?_shift (tables : Text → Option Address) (k : Nat) (p : Placed) :
    (p.shift k).hole? tables = (p.hole? tables).map (k + ·) := by
  unfold hole?
  rw [value?_shift, value?_isNone tables _ 0, apply_ite (Option.map (k + ·))]
  rfl

lemma openRef?_shift (k : Nat) (p : Placed) :
    (p.shift k).openRef? = p.openRef?.map fun r => { r with offset := k + r.offset } := by
  unfold openRef?
  rw [target?_shift]
  cases h : p.leaf <;> simp [shift, h]

lemma tableRef?_shift (start : Address) (k : Nat) (p : Placed) :
    (p.shift k).tableRef? start = p.tableRef? (start + k) := by
  unfold tableRef? shift
  cases p.leaf <;> simp

lemma shift_shift (j k : Nat) (p : Placed) : (p.shift k).shift j = p.shift (j + k) := by
  simp [shift, Region.shift, Nat.add_assoc]

lemma shift_zero (p : Placed) : p.shift 0 = p := by
  have : Region.shift 0 = id := by
    funext f
    simp [Region.shift]
  simp [shift, this]

end Placed

namespace Leaves

@[simp] lemma size_nil : size [] = 0 := rfl

@[simp] lemma size_cons (p : Placed) (L : List Placed) : size (p :: L) = p.leaf.size + size L := rfl

@[simp] lemma size_append (A B : List Placed) : size (A ++ B) = size A + size B := by
  induction A with
  | nil => exact (Nat.zero_add _).symm
  | cons p A ih => rw [List.cons_append, size_cons, size_cons, ih, Nat.add_assoc]

lemma size_map (g : Placed → Placed) (hg : ∀ p, (g p).leaf = p.leaf) (L : List Placed) : size (L.map g) = size L := by
  induction L with
  | nil => rfl
  | cons p L ih => rw [List.map_cons, size_cons, size_cons, ih, hg]

@[simp] lemma size_map_shift (k : Nat) (L : List Placed) : size (L.map (Placed.shift k)) = size L :=
  size_map (Placed.shift k) (fun _ => rfl) L

@[simp] lemma size_map_within (f : Region) (L : List Placed) : size (L.map (Placed.within f)) = size L :=
  size_map (Placed.within f) (fun _ => rfl) L

lemma bytes_cons (tables : Text → Option Address) (start : Address) (p : Placed) (L : List Placed) :
    bytes tables start (p :: L) = p.bytes tables start ++ bytes tables start L := rfl

@[simp] lemma length_bytes (tables : Text → Option Address) (start : Address) (L : List Placed) :
    (bytes tables start L).length = size L := by
  induction L with
  | nil => rfl
  | cons p L ih => rw [bytes_cons, List.length_append, Placed.length_bytes, ih, size_cons]

@[simp] lemma length_origins (L : List Placed) : (origins L).length = size L := by
  induction L with
  | nil => rfl
  | cons p L ih =>
    have hcons : origins (p :: L) = List.replicate p.leaf.size p.origin ++ origins L := rfl
    rw [hcons, List.length_append, List.length_replicate, ih, size_cons]

@[simp] lemma size_expansion (start : Address) (L : List Placed) : (expansion start L).size = size L :=
  length_bytes noTables start L

@[simp] lemma defs_append (A B : List Placed) : defs (A ++ B) = defs A ++ defs B := List.filterMap_append

lemma defs_map_shift (k : Nat) (L : List Placed) :
    defs (L.map (Placed.shift k)) = (defs L).map fun d => (d.1, k + d.2) := by
  unfold defs
  rw [List.filterMap_map, List.map_filterMap]
  exact List.filterMap_congr fun p _ => p.def?_shift k

lemma labels_append (start : Address) (A B : List Placed) :
    labels start (A ++ B) = Expansion.joinLabels (labels start A) (labels start B) := by
  unfold labels
  rw [defs_append, ← lastOnly_map, ← lastOnly_map, ← lastOnly_map, List.map_append, lastOnly_append]

lemma labels_map_shift (start : Address) (k : Nat) (L : List Placed) :
    labels start (L.map (Placed.shift k)) = labels (start + k) L := by
  unfold labels
  rw [defs_map_shift, lastOnly_map, List.map_map]
  simp [Function.comp_def]

theorem expansion_append (start : Address) (A B : List Placed) :
    expansion start (A ++ B) = expansion start A ++ expansion start B := by
  show _ = Expansion.append _ _
  simp [expansion, Expansion.append, bytes, origins, openRefs, tableRefs, holes, labels_append]

theorem shift_expansion (start : Address) (k : Nat) (L : List Placed) :
    (expansion (start + k) L).shift k = expansion start (L.map (Placed.shift k)) := by
  simp only [expansion, Expansion.shift, bytes, origins, openRefs, tableRefs, holes, List.flatMap_map,
    List.filterMap_map, List.map_filterMap, Function.comp_def, Placed.bytes_shift, labels_map_shift,
    Placed.openRef?_shift, Placed.tableRef?_shift, Placed.hole?_shift]
  rfl

lemma fits_append {start : Address} {A B : List Placed} : Fits start (A ++ B) ↔ Fits start A ∧ Fits start B := by
  simp only [Fits, List.mem_append, or_imp, forall_and]

lemma fits_map_shift {start : Address} {k : Nat} {L : List Placed} :
    Fits start (L.map (Placed.shift k)) ↔ Fits (start + k) L := by
  simp [Fits, Placed.target?_shift]

/-! ## leaves without a gap -/

lemma laid_append {k : Nat} {A B : List Placed} : Laid k (A ++ B) ↔ Laid k A ∧ Laid (k + size A) B := by
  induction A generalizing k with
  | nil => simp [Laid]
  | cons p A ih => simp [Laid, ih, and_assoc, Nat.add_assoc]

lemma Laid.shift {k : Nat} {L : List Placed} (h : Laid k L) (j : Nat) : Laid (j + k) (L.map (Placed.shift j)) := by
  induction L generalizing k with
  | nil => trivial
  | cons p L ih =>
    refine ⟨by simp [Placed.shift, h.1], ?_⟩
    rw [Nat.add_assoc]
    exact ih h.2

lemma Laid.within {k : Nat} {L : List Placed} (h : Laid k L) (f : Region) : Laid k (L.map (Placed.within f)) := by
  induction L generalizing k with
  | nil => trivial
  | cons p L ih => exact ⟨h.1, ih h.2⟩

lemma Laid.offset_of_split {k : Nat} {A B : List Placed} {p : Placed} (h : Laid k (A ++ p :: B)) :
    p.offset = k + size A :=
  (laid_append.1 h).2.1

lemma Laid.bounds {k : Nat} {L : List Placed} (h : Laid k L) {p : Placed} (hp : p ∈ L) :
    k ≤ p.offset ∧ p.offset + p.leaf.size ≤ k + size L := by
  obtain ⟨A, B, rfl⟩ := List.append_of_mem hp
  have := h.offset_of_split
  simp only [size_append, size_cons]
  omega

theorem Laid.pairwise {k : Nat} {L : List Placed} (h : Laid k L) :
    L.Pairwise fun p q => p.offset + p.leaf.size ≤ q.offset := by
  induction L generalizing k with
  | nil => exact List.Pairwise.nil
  | cons p L ih =>
    refine List.pairwise_cons.2 ⟨fun q hq => ?_, ih h.2⟩
    rw [h.1]
    exact (Laid.bounds h.2 hq).1

/-- The bytes of a leaf stand at its offset. -/
theorem Laid.bytes_at {L : List Placed} (h : Laid 0 L) {p : Placed} (hp : p ∈ L) (tables : Text → Option Address)
    (start : Address) : ((bytes tables start L).drop p.offset).take p.leaf.size = p.bytes tables start := by
  obtain ⟨A, B, rfl⟩ := List.append_of_mem hp
  have hA : (bytes tables start A).length = p.offset := by
    rw [length_bytes, h.offset_of_split, Nat.zero_add]
  have e : bytes tables start (A ++ p :: B) =
      bytes tables start A ++ (p.bytes tables start ++ bytes tables start B) := by
    simp [bytes]
  rw [e, List.drop_left' hA, List.take_left' (Placed.length_bytes tables start p)]

lemma Laid.getElem?_bytes {L : List Placed} (h : Laid 0 L) {p : Placed} (hp : p ∈ L) (tables : Text → Option Address)
    (start : Address) {i : Nat} (hi : i < p.leaf.size) :
    (bytes tables start L)[p.offset + i]? = (p.bytes tables start)[i]? := by
  rw [← h.bytes_at hp tables start, List.getElem?_take_of_lt hi, List.getElem?_drop]

end Leaves

namespace Code

@[simp] theorem size_leaves (c : Code) : Leaves.size c.leaves = c.size := by
  induction c with
  | empty => rfl
  | leaf l o => simp [leaves, size]
  | seq a b iha ihb => simp [leaves, size, iha, ihb]
  | frame body ih => simp [leaves, size, ih]

theorem laid (c : Code) : Leaves.Laid 0 c.leaves := by
  induction c with
  | empty => trivial
  | leaf l o => exact ⟨rfl, trivial⟩
  | seq a b iha ihb =>
    refine Leaves.laid_append.2 ⟨iha, ?_⟩
    rw [size_leaves, Nat.zero_add]
    exact ihb.shift a.size
  | frame body ih => exact ih.within _

end Code
end MacroAsm
