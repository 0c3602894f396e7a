import MacroAsm.Proofs.LabelScope
import MacroAsm.Proofs.ProgramNames

/-!
# Which operation a byte comes from

The code of a macro, without its frames, is a list of leaves with their origins. An expansion holds their encodings one
behind the other, and everything that it says about its bytes can be read off that list.

* `Code.flat`: the leaves with their origins;
* `LaidOut start L e`: what an expansion holds of the leaves `L`;
* `expand_lays_out`: an expansion holds the leaves that its macro flattens to.
-/

namespace MacroAsm

open Expansion (labelOffset?)

/-- The bytes of a leaf, with zeros for an offset. -/
def Leaf.encoding : Leaf → Bytes
  | opcode byte => [byte]
  | push byte data => byte :: data
  | labelDef _ => [Opcode.jumpDest]
  | labelRef _ | tableRef _ => [Opcode.push2, 0, 0]

lemma Leaf.length_encoding (l : Leaf) : l.encoding.length = l.size := by
  cases l <;> rfl

/-- The leaves of a code with their origins, in order. -/
def Code.flat : Code → List (Leaf × Origin)
  | empty => []
  | leaf l o => [(l, o)]
  | seq a b => a.flat ++ b.flat
  | frame body => body.flat

namespace Flat

/-- The bytes of some leaves, with zeros for offsets. -/
def encode (L : List (Leaf × Origin)) : Bytes := L.flatMap fun x => x.1.encoding

/-- An origin for each byte. -/
def origins (L : List (Leaf × Origin)) : List Origin := L.flatMap fun x => List.replicate x.1.encoding.length x.2

/-- The places of the offsets in label references; the first leaf stands at `k`. -/
def labelOperands : Nat → List (Leaf × Origin) → List Nat
  | _, [] => []
  | k, (l, _) :: L =>
    match l with
    | .labelRef _ => (k + 1) :: (k + 2) :: labelOperands (k + 3) L
    | _ => labelOperands (k + l.encoding.length) L

/-- The table references; the first leaf stands at `k`. -/
def tableRefs : Address → List (Leaf × Origin) → List TableRef
  | _, [] => []
  | k, (l, o) :: L =>
    match l with
    | .tableRef table => ⟨table, k, o⟩ :: tableRefs (k + (3 : Nat)) L
    | _ => tableRefs (k + l.encoding.length) L

end Flat

/-- Bytes with zeros at some places. -/
def Bytes.zeroAt (places : List Nat) (bs : Bytes) : Bytes := bs.mapIdx fun i b => if i ∈ places then 0 else b

/-- What an expansion at `start` holds of some leaves. -/
structure LaidOut (start : Address) (L : List (Leaf × Origin)) (e : Expansion) : Prop where
  /-- but for the offsets of labels, the encodings of the leaves -/
  bytes : Bytes.zeroAt (Flat.labelOperands 0 L) e.bytes = Flat.encode L
  /-- each byte has the origin of its leaf -/
  origins : e.origins = Flat.origins L
  /-- the references to tables, in order, at their absolute offsets -/
  tableRefs : e.tableRefs = Flat.tableRefs start L
  /-- a label stands for its last definition -/
  labels : ∀ label o, labelOffset? e.labels label = some o ↔
    ∃ A site B, L = A ++ (.labelDef label, site) :: B ∧ (∀ x ∈ B, x.1 ≠ .labelDef label) ∧
      o = start + (Flat.encode A).length

/-! ## leaves in place -/

/-- A leaf with its origin. -/
def Placed.flat (p : Placed) : Leaf × Origin := (p.leaf, p.origin)

lemma Code.flat_eq (c : Code) : c.flat = c.leaves.map Placed.flat := by
  induction c with
  | empty => rfl
  | leaf l o => rfl
  | seq a b iha ihb =>
    have hshift : Placed.flat ∘ Placed.shift a.size = Placed.flat := rfl
    rw [flat, leaves, iha, ihb, List.map_append, List.map_map, hshift]
  | frame body ih =>
    have hwithin : Placed.flat ∘ Placed.within ⟨0, body⟩ = Placed.flat := rfl
    rw [flat, leaves, ih, List.map_map, hwithin]

namespace Leaves

lemma length_encode (L : List Placed) : (Flat.encode (L.map Placed.flat)).length = size L := by
  induction L with
  | nil => rfl
  | cons p L ih =>
    have hcons : Flat.encode ((p :: L).map Placed.flat) = p.leaf.encoding ++ Flat.encode (L.map Placed.flat) := rfl
    rw [hcons, List.length_append, ih, Leaf.length_encoding, size]

lemma origins_eq (L : List Placed) : origins L = Flat.origins (L.map Placed.flat) := by
  induction L with
  | nil => rfl
  | cons p L ih =>
    have hcons : Flat.origins ((p :: L).map Placed.flat) =
        List.replicate p.leaf.encoding.length p.origin ++ Flat.origins (L.map Placed.flat) := rfl
    have hcons' : origins (p :: L) = List.replicate p.leaf.size p.origin ++ origins L := rfl
    rw [hcons, hcons', ih, Leaf.length_encoding]

lemma Laid.tableRefs_eq {k : Nat} {L : List Placed} (h : Laid k L) (start : Address) :
    tableRefs start L = Flat.tableRefs (start + k) (L.map Placed.flat) := by
  induction L generalizing k with
  | nil => rfl
  | cons p L ih =>
    obtain ⟨l, o, off, frames⟩ := p
    obtain ⟨rfl, hL⟩ := h
    have ih := ih hL
    rw [← Address.add_add] at ih
    cases l with
    | tableRef table => exact congrArg (⟨table, start + off, o⟩ :: ·) ih
    | opcode _ | push _ _ | labelDef _ | labelRef _ => exact ih

/-! ## bytes -/

lemma lt_of_mem_labelOperands {k j : Nat} {L : List (Leaf × Origin)} (h : j ∈ Flat.labelOperands k L) : k < j := by
  induction L generalizing k with
  | nil => cases h
  | cons x L ih =>
    obtain ⟨l, o⟩ := x
    cases l with
    | labelRef label =>
      rcases List.mem_cons.1 h with rfl | h
      · omega
      rcases List.mem_cons.1 h with rfl | h
      · omega
      have := ih h
      omega
    | opcode _ | push _ _ | labelDef _ | tableRef _ =>
      have := ih h
      omega

/-- Bytes behind the first leaf have the places of the other leaves. -/
lemma mem_labelOperands_cons {k j : Nat} {x : Leaf × Origin} {L : List (Leaf × Origin)}
    (hj : k + x.1.encoding.length ≤ j) :
    j ∈ Flat.labelOperands k (x :: L) ↔ j ∈ Flat.labelOperands (k + x.1.encoding.length) L := by
  obtain ⟨l, o⟩ := x
  cases l with
  | labelRef label =>
    have hlen : (Leaf.labelRef label).encoding.length = 3 := rfl
    rw [hlen] at hj
    have h₁ : j ≠ k + 1 := by omega
    have h₂ : j ≠ k + 2 := by omega
    show j ∈ (k + 1) :: (k + 2) :: Flat.labelOperands (k + 3) L ↔ _
    rw [List.mem_cons, List.mem_cons, or_iff_right h₁, or_iff_right h₂]
    rfl
  | opcode _ | push _ _ | labelDef _ | tableRef _ => rfl

/-- Bytes at none of the places stay as they are. -/
lemma mapIdx_of_not_mem {places : List Nat} {bs : Bytes} {k : Nat} (h : ∀ j ∈ places, k + bs.length ≤ j) :
    bs.mapIdx (fun i b => if k + i ∈ places then 0 else b) = bs := by
  refine List.ext_getElem (by simp) fun i hi hi' => ?_
  have hnot : k + i ∉ places := fun hmem => by
    have := h _ hmem
    omega
  rw [List.getElem_mapIdx, if_neg hnot]

/-- The bytes of one leaf, but for the offset of a label. -/
lemma zeroAt_leaf (p : Placed) (start : Address) (k : Nat) (L : List (Leaf × Origin)) :
    (p.bytes noTables start).mapIdx (fun i b => if k + i ∈ Flat.labelOperands k (p.flat :: L) then 0 else b) =
      p.leaf.encoding := by
  obtain ⟨l, o, off, frames⟩ := p
  cases l with
  | labelRef label =>
    have hfirst : k ∉ Flat.labelOperands k ((Leaf.labelRef label, o) :: L) := fun h =>
      Nat.lt_irrefl k (lt_of_mem_labelOperands h)
    have hsecond : k + 1 ∈ Flat.labelOperands k ((Leaf.labelRef label, o) :: L) := List.mem_cons_self ..
    have hthird : k + 2 ∈ Flat.labelOperands k ((Leaf.labelRef label, o) :: L) :=
      List.mem_cons_of_mem _ (List.mem_cons_self ..)
    obtain ⟨x, y, hxy⟩ : ∃ x y, operand ((⟨.labelRef label, o, off, frames⟩ : Placed).value? noTables start) = [x, y] :=
      List.length_eq_two.1 (length_operand _)
    rw [Placed.bytes_of_isRef rfl, hxy]
    have hthree : ∀ f : Nat → UInt8 → UInt8, [Opcode.push2, x, y].mapIdx f = [f 0 Opcode.push2, f 1 x, f 2 y] := by
      intro f
      rfl
    rw [hthree]
    show [if k + 0 ∈ Flat.labelOperands k ((Leaf.labelRef label, o) :: L) then 0 else Opcode.push2, _, _] = _
    rw [Nat.add_zero, if_neg hfirst]
    show [_, if k + 1 ∈ Flat.labelOperands k ((Leaf.labelRef label, o) :: L) then 0 else x,
      if k + 2 ∈ Flat.labelOperands k ((Leaf.labelRef label, o) :: L) then 0 else y] = _
    rw [if_pos hsecond, if_pos hthird]
    rfl
  | opcode _ | push _ _ | labelDef _ | tableRef _ =>
    refine mapIdx_of_not_mem fun j hj => ?_
    exact Nat.le_of_lt (lt_of_mem_labelOperands (L := L) hj)

lemma zeroAt_bytes (L : List Placed) (start : Address) (k : Nat) :
    (bytes noTables start L).mapIdx
      (fun i b => if k + i ∈ Flat.labelOperands k (L.map Placed.flat) then 0 else b) =
      Flat.encode (L.map Placed.flat) := by
  induction L generalizing k with
  | nil => rfl
  | cons p L ih =>
    rw [bytes_cons, List.mapIdx_append, List.map_cons, zeroAt_leaf]
    have hcons : Flat.encode (p.flat :: L.map Placed.flat) = p.leaf.encoding ++ Flat.encode (L.map Placed.flat) := rfl
    rw [hcons, ← ih (k + p.leaf.encoding.length)]
    congr 2
    funext i b
    have hplace : k + (i + (p.bytes noTables start).length) = k + p.leaf.encoding.length + i := by
      rw [Placed.length_bytes, Leaf.length_encoding]
      omega
    have hle : k + p.flat.1.encoding.length ≤ k + p.leaf.encoding.length + i := by
      show k + p.leaf.encoding.length ≤ _
      omega
    simp only [hplace, mem_labelOperands_cons hle]
    rfl

/-! ## labels -/

lemma Laid.mem_defs_iff_split {L : List Placed} (h : Laid 0 L) {label : Text} {r : Nat} :
    ((label, r) ∈ defs L ∧ ∀ r', (label, r') ∈ defs L → r' ≤ r) ↔
      ∃ A site B, L.map Placed.flat = A ++ (.labelDef label, site) :: B ∧ (∀ x ∈ B, x.1 ≠ .labelDef label) ∧
        r = (Flat.encode A).length := by
  constructor
  · rintro ⟨hmem, hlast⟩
    obtain ⟨p, hp, hleaf, hoff⟩ := mem_defs.1 hmem
    obtain ⟨A, B, rfl⟩ := List.append_of_mem hp
    have hplace : p.offset = size A := by
      rw [h.offset_of_split, Nat.zero_add]
    refine ⟨A.map Placed.flat, p.origin, B.map Placed.flat, ?_, ?_, ?_⟩
    · rw [List.map_append, List.map_cons, ← hleaf]
      rfl
    · -- a later definition would have a greater offset
      intro x hx hlabel
      obtain ⟨p', hp', rfl⟩ := List.mem_map.1 hx
      have hlater : p.offset + p.leaf.size ≤ p'.offset := by
        have := ((laid_append.1 h).2.2.bounds hp').1
        omega
      have hsize := p.leaf.size_pos
      have := hlast p'.offset (mem_defs.2 ⟨p', by simp [hp'], hlabel, rfl⟩)
      omega
    · rw [length_encode, ← hplace]
      exact hoff.symm
  · rintro ⟨A, site, B, hsplit, hnone, rfl⟩
    obtain ⟨A', L', rfl, rfl, hL'⟩ := List.map_eq_append_iff.1 hsplit
    obtain ⟨p, B', rfl, hp, rfl⟩ := List.map_eq_cons_iff.1 hL'
    have hleaf : p.leaf = .labelDef label := congrArg Prod.fst hp
    have hplace : p.offset = size A' := by
      rw [h.offset_of_split, Nat.zero_add]
    rw [length_encode, ← hplace]
    refine ⟨mem_defs.2 ⟨p, by simp, hleaf, rfl⟩, fun r' hr' => ?_⟩
    obtain ⟨p', hp', hleaf', rfl⟩ := mem_defs.1 hr'
    rcases List.mem_append.1 hp' with hA | hB
    · have := ((laid_append.1 h).1.bounds hA).2
      omega
    · rcases List.mem_cons.1 hB with rfl | hB
      · exact Nat.le_refl _
      · exact absurd hleaf' (hnone p'.flat (List.mem_map_of_mem hB))

end Leaves

/-- The expansion of a code holds its leaves. -/
theorem laidOut_expansion {c : Code} {start : Address} (hfit : Leaves.Fits start c.leaves) :
    LaidOut start c.flat (Leaves.expansion start c.leaves) where
  bytes := by
    have hzero := Leaves.zeroAt_bytes c.leaves start 0
    simp only [Nat.zero_add] at hzero
    rw [Code.flat_eq]
    exact hzero
  origins := by
    rw [Code.flat_eq]
    exact Leaves.origins_eq c.leaves
  tableRefs := by
    have hrefs := c.laid.tableRefs_eq start
    rw [start.add_zero] at hrefs
    rw [Code.flat_eq]
    exact hrefs
  labels := by
    intro label o
    rw [(labelsResolved_expansion hfit).visible label o, Code.flat_eq]
    constructor
    · rintro ⟨r, rfl, hr⟩
      obtain ⟨A, site, B, hsplit, hnone, rfl⟩ := c.laid.mem_defs_iff_split.1 hr
      exact ⟨A, site, B, hsplit, hnone, rfl⟩
    · rintro ⟨A, site, B, hsplit, hnone, rfl⟩
      exact ⟨_, rfl, c.laid.mem_defs_iff_split.2 ⟨A, site, B, hsplit, hnone, rfl⟩⟩

/-! ## operations that emit leaves -/

/-- What an operation can put into the code by itself: a call nothing, a template argument what can stand for it. -/
def OpKind.Emits : OpKind → Leaf → Prop
  | opcode byte, l => l = .opcode byte
  | push byte data, l => l = .push byte data
  | labelDef label, l => l = .labelDef label
  | labelRef label, l => l = .labelRef label
  | tableStart table, l => l = .tableRef table
  | codeSize .., l => ∃ n byte, Opcode.pushOf? (Bytes.ofNat n).length = some byte ∧ l = .push byte (Bytes.ofNat n)
  | template _, l => (∃ byte, l = .opcode byte) ∨ (∃ byte data, l = .push byte data) ∨ ∃ label, l = .labelRef label
  | call .., _ => False

namespace Flatten

/-- A leaf has the origin of an operation, in the body of a macro that is known, which emits it. -/
def Emitted (known : Store) (x : Leaf × Origin) : Prop :=
  ∃ name m op, known.find? name = some m ∧ op ∈ m.ops ∧ op.kind.Emits x.1 ∧ op.origin = x.2

/-- What stands for a template argument emits nothing else than a template argument does. -/
lemma emits_of_argumentKind {known : Store} {inner : Inner} {arg : Text} {site : Origin} {kind : OpKind}
    (h : argumentKind known inner arg site = .ok (some kind)) {l : Leaf} (hl : kind.Emits l) (text : Text) :
    (OpKind.template text).Emits l := by
  unfold argumentKind at h
  split at h
  · obtain ⟨n, -, h⟩ := ok_of_bind h
    cases hv : OpKind.pushValue? n with
    | none =>
      rw [hv] at h
      cases h
    | some k =>
      rw [hv] at h
      cases h
      obtain ⟨byte, -, rfl⟩ := Option.map_eq_some_iff.1 hv
      exact Or.inr (Or.inl ⟨byte, _, hl⟩)
  · split at h
    · split at h
      · cases h
        exact Or.inl ⟨_, hl⟩
      · cases h
    · split at h
      · cases h
        exact Or.inl ⟨_, hl⟩
      · split at h
        · cases h
        · split at h
          · cases h
            exact hl
          · split at h
            · cases h
              exact Or.inr (Or.inr ⟨_, hl⟩)
            · cases h

section Body

variable {known : Store} {inner : Inner}
  (hnamed : ∀ name args site start c, inner (.named name args site) start = .ok c → ∀ x ∈ c.flat, Emitted known x)
  (hinline : ∀ op args start c, inner (.inline op args) start = .ok c →
    ∀ x ∈ c.flat, Emitted known x ∨ (op.kind.Emits x.1 ∧ op.origin = x.2))

include hnamed hinline

lemma opCode_emitted {b : Bindings} {start : Address} {op : Op} {c : Code} (h : opCode known inner b start op = .ok c) :
    ∀ x ∈ c.flat, Emitted known x ∨ (op.kind.Emits x.1 ∧ op.origin = x.2) := by
  have hleaf : ∀ l, c = .leaf l op.origin → op.kind.Emits l →
      ∀ x ∈ c.flat, Emitted known x ∨ (op.kind.Emits x.1 ∧ op.origin = x.2) := by
    rintro l rfl hl x hx
    rw [List.mem_singleton.1 hx]
    exact Or.inr ⟨hl, rfl⟩
  unfold opCode at h
  cases hk : op.kind with
  | opcode byte | labelDef label | labelRef label | tableStart table =>
    rw [hk] at h hleaf
    cases h
    exact hleaf _ rfl rfl
  | push byte data =>
    rw [hk] at h hleaf
    dsimp only at h
    split at h
    · cases h
      exact hleaf _ rfl rfl
    · cases h
  | codeSize callee args =>
    rw [hk] at h hleaf
    obtain ⟨n, -, h⟩ := ok_of_bind h
    dsimp only at h
    split at h
    · next byte hbyte =>
      cases h
      exact hleaf _ rfl ⟨n, byte, hbyte, rfl⟩
    · cases h
  | call callee args =>
    rw [hk] at h
    exact fun x hx => Or.inl (hnamed _ _ _ _ _ h x hx)
  | template text =>
    rw [hk] at h
    obtain ⟨k, hkind, h⟩ := ok_of_bind h
    cases k with
    | none => exact fun x hx => Or.inl (hnamed _ _ _ _ _ h x hx)
    | some kind =>
      intro x hx
      refine (hinline _ _ _ _ h x hx).imp_right ?_
      rintro ⟨hemits, horigin⟩
      exact ⟨emits_of_argumentKind hkind hemits text, horigin⟩

lemma opsCode_emitted {b : Bindings} {start : Address} {ops : List Op} {c : Code}
    (h : opsCode known inner b start ops = .ok c) :
    ∀ x ∈ c.flat, Emitted known x ∨ ∃ op ∈ ops, op.kind.Emits x.1 ∧ op.origin = x.2 := by
  induction ops generalizing start c with
  | nil =>
    cases h
    intro x hx
    cases hx
  | cons op ops ih =>
    obtain ⟨first, hfirst, h⟩ := ok_of_bind h
    obtain ⟨rest, hrest, h⟩ := ok_of_bind h
    cases h
    intro x hx
    rcases List.mem_append.1 hx with hx | hx
    · exact (opCode_emitted hnamed hinline hfirst x hx).imp_right fun h => ⟨op, List.mem_cons_self .., h⟩
    · refine (ih hrest x hx).imp_right ?_
      rintro ⟨op', hop', h⟩
      exact ⟨op', List.mem_cons_of_mem _ hop', h⟩

end Body

/-- **Each leaf has the origin of the operation that emits it**: for a call that is one of the macro called, for a
template argument the reference to it. -/
theorem code_emitted {known : Store} {limits : Limits} {budget : Nat} {active : List Frame} :
    (∀ name args site start c, code known limits budget active (.named name args site) start = .ok c →
      ∀ x ∈ c.flat, Emitted known x) ∧
    (∀ op args start c, code known limits budget active (.inline op args) start = .ok c →
      ∀ x ∈ c.flat, Emitted known x ∨ (op.kind.Emits x.1 ∧ op.origin = x.2)) := by
  induction budget generalizing active with
  | zero => exact ⟨fun _ _ _ _ _ h => absurd h code_zero_ne_ok, fun _ _ _ _ h => absurd h code_zero_ne_ok⟩
  | succ budget ih =>
    constructor
    · intro name args site start c h x hx
      obtain ⟨o, body, ho, hbody, rfl, -⟩ := code_succ_eq_ok_iff.1 h
      obtain ⟨m, hm, -, -, rfl⟩ := opened_named_eq_ok_iff.1 ho
      rcases opsCode_emitted ih.1 ih.2 hbody x hx with hx | ⟨op, hop, hemits, horigin⟩
      · exact hx
      · exact ⟨name, m, op, hm, hop, hemits, horigin⟩
    · intro op args start c h x hx
      obtain ⟨o, body, ho, hbody, rfl, -⟩ := code_succ_eq_ok_iff.1 h
      obtain ⟨-, rfl⟩ := opened_inline_eq_ok_iff.1 ho
      refine (opsCode_emitted ih.1 ih.2 hbody x hx).imp_right ?_
      rintro ⟨op', hop', h⟩
      rw [List.mem_singleton.1 hop'] at h
      exact h

end Flatten

/-- What it means for an expansion to hold the code of a macro, given the macros known: it is the leaves of the code one
behind the other, each with the origin of the operation that emits it. -/
def Holds (known : Store) (limits : Limits) (budget : Nat) (active : List Frame) (q : Request) (e : Expansion) : Prop :=
  ∃ c, Flatten.code known limits budget active (.named q.name q.args q.site) q.start = .ok c ∧
    LaidOut q.start c.flat e ∧ ∀ x ∈ c.flat, Flatten.Emitted known x

/-- **An expansion is the leaves that its macro flattens to, one behind the other.** Whatever macros are declared and
have been made for template arguments so far, what a macro expands to holds the leaves of the code to which it flattens
by the macros known in the end. Where the names in the program are words, as they are in one that has been read, the
declared macros alone decide. -/
theorem expand_lays_out {t : MacroTable} {s s' : Store} (hs : t.fresh.Reaches s) {limits : Limits} {budget : Nat}
    {active : List Frame} (hactive : ∀ f ∈ active, s.contains f.name.toList = true) {q : Request} {e : Expansion}
    (h : (Engine.expand limits budget active q).runOn s = (.ok e, s')) :
    Holds s' limits budget active q e ∧
      (t.Worded → q.name.isPlain = true → Holds t.fresh limits budget active q e) := by
  constructor
  · obtain ⟨c, hc, rfl, hfit⟩ := Engine.expand_flattens ((Store.numbered_declared t).reaches hs) hactive h
    exact ⟨c, hc, laidOut_expansion hfit, Flatten.code_emitted.1 _ _ _ _ _ hc⟩
  · intro ht hq
    obtain ⟨c, hc, rfl, hfit⟩ := Engine.expand_fresh_ok ht hs hactive hq h
    exact ⟨c, hc, laidOut_expansion hfit, Flatten.code_emitted.1 _ _ _ _ _ hc⟩

/-- `D` inside `D`, in a program that has been read. -/
theorem expand_lays_out_main :
    ∃ e s', (Engine.expand {} 256 [] Sample.main).runOn Sample.program.macros.fresh = (.ok e, s') ∧
      e.bytes = Sample.code ∧ Holds s' {} 256 [] Sample.main e ∧
      Holds Sample.program.macros.fresh {} 256 [] Sample.main e := by
  obtain ⟨e, s', h, hbytes⟩ := Engine.exists_of_runOn Sample.bytes_main
  have hholds := expand_lays_out .refl (by simp) h
  exact ⟨e, s', h, hbytes, hholds.1, hholds.2 (Program.read_worded Sample.read_twice) (by decide)⟩

end MacroAsm
