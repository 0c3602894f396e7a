import MacroAsm.Proofs.Linking

/-!
# Moving a program

A program that is assembled for a later offset differs from the same program at an earlier one only where an absolute
offset is written: in the operands of references and in the entries of tables. The words have to suffice for both.

* `Bytes.Relocated`: bytes that are equal but for some two-byte fields, whose values differ by a constant;
* `Leaves.bytes_relocated`, `Linked.tables_relocated`: the bytes of code and those of tables;
* `Address.Apart d n a a'`: the offsets up to `n` bytes behind `a'` are greater by `d` than those behind `a`;
* `Leaves.linkable_of_apart`: what can be linked at an offset can be linked at an earlier one;
* `link_relocates`: a program at two offsets.
-/

namespace MacroAsm

open Expansion (labelOffset?)

/-- The offsets up to `n` bytes behind `a'` are greater by `d` than those behind `a`. -/
def Address.Apart (d n : Nat) (a a' : Address) : Prop := ∀ k ≤ n, (a' + k).toNat = d + (a + k).toNat

/-- The offsets behind two are apart as they are, as long as the words suffice. -/
lemma Address.apart_of_le {a a' : Address} (hle : a.toNat ≤ a'.toNat) {n : Nat}
    (hwords : a'.toNat + n < Numeral.countLimit) : Apart (a'.toNat - a.toNat) n a a' := by
  intro k hk
  rw [toNat_add_of_lt (by omega), toNat_add_of_lt (by omega)]
  omega

/-! ## two-byte fields -/

namespace Bytes

/-- The value of the two bytes at an offset, the high one first. -/
def word? (bs : Bytes) (k : Nat) : Option Nat := do
  let hi ← bs[k]?
  let lo ← bs[k + 1]?
  return hi.toNat * 256 + lo.toNat

lemma word?_append_left {xs : Bytes} {k v : Nat} (h : word? xs k = some v) (ys : Bytes) :
    word? (xs ++ ys) k = some v := by
  simp only [word?, Option.bind_eq_bind, Option.bind_eq_some_iff] at h ⊢
  obtain ⟨hi, hhi, lo, hlo, hv⟩ := h
  refine ⟨hi, ?_, lo, ?_, hv⟩
  · rw [List.getElem?_append_left (List.getElem?_eq_some_iff.1 hhi).1, hhi]
  · rw [List.getElem?_append_left (List.getElem?_eq_some_iff.1 hlo).1, hlo]

lemma word?_append_right (xs ys : Bytes) (k : Nat) : word? (xs ++ ys) (xs.length + k) = word? ys k := by
  unfold word?
  rw [Nat.add_assoc, List.getElem?_append_right (Nat.le_add_right _ _),
    List.getElem?_append_right (Nat.le_add_right _ _), Nat.add_sub_cancel_left, Nat.add_sub_cancel_left]

lemma word?_ofOffset {n : Nat} (h : n ≤ maxOffset) : word? (ofOffset n) 0 = some n := by
  have hn : n < 65536 := Nat.lt_succ_of_le h
  simp only [word?, ofOffset]
  simp
  omega

/-- The second of two stretches at `off` has the bytes of the first outside of the fields, and in each field a value
that is greater by `d`. -/
structure Relocated (d : Nat) (fields : List Nat) (off : Nat) (xs ys : Bytes) : Prop where
  length : ys.length = xs.length
  same : ∀ i, (∀ k ∈ fields, off + i ≠ k ∧ off + i ≠ k + 1) → ys[i]? = xs[i]?
  field : ∀ k ∈ fields, ∃ i v, k = off + i ∧ word? xs i = some v ∧ word? ys i = some (d + v)

namespace Relocated

variable {d off : Nat}

lemma refl (xs : Bytes) : Relocated d [] off xs xs := ⟨rfl, fun _ _ => rfl, by simp⟩

lemma ofOffset {n : Nat} (h : d + n ≤ maxOffset) :
    Relocated d [off] off (Bytes.ofOffset n) (Bytes.ofOffset (d + n)) where
  length := rfl
  same i hi := by
    obtain ⟨h0, h1⟩ := hi off (List.mem_singleton_self off)
    have hlong : 2 ≤ i := by omega
    rw [List.getElem?_eq_none hlong, List.getElem?_eq_none hlong]
  field k hk := by
    rw [List.mem_singleton.1 hk]
    exact ⟨0, n, rfl, word?_ofOffset (Nat.le_trans (Nat.le_add_left n d) h), word?_ofOffset h⟩

theorem append {ks ks' : List Nat} {xs ys xs' ys' : Bytes} (h : Relocated d ks off xs ys)
    (h' : Relocated d ks' (off + xs.length) xs' ys') : Relocated d (ks ++ ks') off (xs ++ xs') (ys ++ ys') where
  length := by rw [List.length_append, List.length_append, h.length, h'.length]
  same i hi := by
    have hlen := h.length
    by_cases hlt : i < xs.length
    · rw [List.getElem?_append_left hlt, List.getElem?_append_left (by omega)]
      exact h.same i fun k hk => hi k (List.mem_append_left _ hk)
    · rw [List.getElem?_append_right (by omega), List.getElem?_append_right (by omega), hlen]
      refine h'.same _ fun k hk => ?_
      have := hi k (List.mem_append_right _ hk)
      omega
  field k hk := by
    rcases List.mem_append.1 hk with hk | hk
    · obtain ⟨i, v, hki, hx, hy⟩ := h.field k hk
      exact ⟨i, v, hki, word?_append_left hx xs', word?_append_left hy ys'⟩
    · obtain ⟨i, v, hki, hx, hy⟩ := h'.field k hk
      refine ⟨xs.length + i, v, by omega, ?_, ?_⟩
      · rw [word?_append_right, hx]
      · rw [← h.length, word?_append_right, hy]

end Relocated

end Bytes

/-! ## code -/

namespace Placed

/-- The offset of the operand of a reference. -/
def operand? (p : Placed) : Option Nat := if p.leaf.isRef then some (p.offset + 1) else none

/-- A reference stands for a known offset that moves with the code. -/
def Moves (tables tables' : Text → Option Address) (start start' : Address) (d : Nat) (p : Placed) : Prop :=
  p.leaf.isRef = true →
    ∃ v v', p.value? tables start = some v ∧ p.value? tables' start' = some v' ∧ v'.toNat = d + v.toNat ∧
      v'.toNat ≤ maxOffset

lemma bytes_relocated {tables tables' : Text → Option Address} {start start' : Address} {d : Nat} {p : Placed}
    (h : p.Moves tables tables' start start' d) :
    Bytes.Relocated d p.operand?.toList p.offset (p.bytes tables start) (p.bytes tables' start') := by
  by_cases href : p.leaf.isRef = true
  · obtain ⟨v, v', hv, hv', hsum, hfit⟩ := h href
    rw [bytes_of_isRef href, bytes_of_isRef href, hv, hv', operand?, if_pos href]
    refine (Bytes.Relocated.refl [Opcode.push2]).append ?_
    rw [hsum] at hfit
    show Bytes.Relocated d _ _ (Bytes.ofOffset v.toNat) (Bytes.ofOffset v'.toNat)
    rw [hsum]
    exact Bytes.Relocated.ofOffset hfit
  · have hbytes : p.bytes tables' start' = p.bytes tables start := by
      unfold bytes
      cases hl : p.leaf
      case labelRef label => simp [hl, Leaf.isRef] at href
      case tableRef table => simp [hl, Leaf.isRef] at href
      all_goals rfl
    rw [hbytes, operand?, if_neg href]
    exact Bytes.Relocated.refl _

end Placed

namespace Leaves

/-- The offsets of the operands of all references. -/
def operands (L : List Placed) : List Nat := L.filterMap Placed.operand?

/-- **The bytes of code at two offsets** differ in the operands of references. -/
theorem bytes_relocated {tables tables' : Text → Option Address} {start start' : Address} {d off : Nat}
    {L : List Placed} (hL : Laid off L) (h : ∀ p ∈ L, p.Moves tables tables' start start' d) :
    Bytes.Relocated d (operands L) off (bytes tables start L) (bytes tables' start' L) := by
  induction L generalizing off with
  | nil => exact Bytes.Relocated.refl []
  | cons p L ih =>
    have hhead := Placed.bytes_relocated (h p List.mem_cons_self)
    have hrest := ih hL.2 fun q hq => h q (List.mem_cons_of_mem p hq)
    have hoperands : operands (p :: L) = p.operand?.toList ++ operands L := filterMap_cons_toList _ p L
    rw [hL.1] at hhead
    rw [hoperands, bytes_cons, bytes_cons]
    refine hhead.append ?_
    rw [Placed.length_bytes]
    exact hrest

end Leaves

/-! ## tables -/

namespace Table

/-- The offsets of the last two bytes of those entries that are labels, the first entry at `k`. -/
def entrySlots (labels : List (Text × Address)) (width : Nat) : Nat → List Text → List Nat
  | _, [] => []
  | k, label :: entries =>
    (if (labelOffset? labels label).isSome then [k + (width - 2)] else []) ++
      entrySlots labels width (k + width) entries

/-- The offsets of the label offsets in a table at `k`. -/
def slots (labels : List (Text × Address)) (k : Nat) (t : Table) : List Nat :=
  match t.payload with
  | .code _ => []
  | .jumps entries packed => entrySlots labels (entryWidth packed) k entries

end Table

/-- The offsets of the label offsets in tables, the first at `k`. -/
def Linked.slots (labels : List (Text × Address)) : Nat → TableSet → List Nat
  | _, [] => []
  | k, t :: ts => t.slots labels k ++ slots labels (k + t.size) ts

section Tables

variable {labels labels' : List (Text × Address)} {d : Nat}
  (hlabels : ∀ label, (labelOffset? labels' label).map Address.toNat =
    (labelOffset? labels label).map fun o => d + o.toNat)

include hlabels

namespace Table

lemma fits_of_moved {t : Table} (h : t.Fits labels') : t.Fits labels := by
  intro entries packed ht label hlabel o ho
  have hmoved := hlabels label
  rw [ho] at hmoved
  obtain ⟨o', ho', hsum⟩ := Option.map_eq_some_iff.1 hmoved
  have hle := h entries packed ht label hlabel o' ho'
  rw [hsum] at hle
  exact Nat.le_trans (Nat.le_add_left _ _) hle

lemma unknown_moved (t : Table) : t.unknown labels' = t.unknown labels := by
  unfold unknown
  cases t.payload with
  | code bytes => rfl
  | jumps entries packed =>
    refine List.filter_congr fun label _ => ?_
    rw [← Option.isNone_map (f := Address.toNat), hlabels, Option.isNone_map]

lemma entry_relocated (width : Nat) {label : Text}
    (hfit : ∀ o, labelOffset? labels' label = some o → o.toNat ≤ maxOffset) (off : Nat) :
    Bytes.Relocated d (if (labelOffset? labels label).isSome then [off + (width - 2)] else []) off
      (entry labels width label) (entry labels' width label) := by
  unfold entry
  have hmoved := hlabels label
  cases ho : labelOffset? labels label with
  | none =>
    rw [ho, Option.map_none, Option.map_eq_none_iff] at hmoved
    rw [hmoved]
    exact Bytes.Relocated.refl _
  | some o =>
    rw [ho] at hmoved
    obtain ⟨o', ho', hsum⟩ := Option.map_eq_some_iff.1 hmoved
    have hle := hfit o' ho'
    rw [ho']
    refine (Bytes.Relocated.refl (List.replicate (width - 2) 0)).append ?_
    rw [List.length_replicate, hsum]
    rw [hsum] at hle
    exact Bytes.Relocated.ofOffset hle

lemma entries_relocated {width : Nat} (hw : 2 ≤ width) {entries : List Text}
    (hfit : ∀ label ∈ entries, ∀ o, labelOffset? labels' label = some o → o.toNat ≤ maxOffset) (off : Nat) :
    Bytes.Relocated d (entrySlots labels width off entries) off (entries.flatMap (entry labels width))
      (entries.flatMap (entry labels' width)) := by
  induction entries generalizing off with
  | nil => exact Bytes.Relocated.refl []
  | cons label entries ih =>
    rw [List.forall_mem_cons] at hfit
    refine (entry_relocated hlabels width hfit.1 off).append ?_
    rw [length_entry labels hw]
    exact ih hfit.2 (off + width)

lemma bytes_relocated {t : Table} (hfit : t.Fits labels') (off : Nat) :
    Bytes.Relocated d (t.slots labels off) off (t.bytes labels) (t.bytes labels') := by
  unfold slots bytes
  cases ht : t.payload with
  | code bytes => exact Bytes.Relocated.refl bytes
  | jumps entries packed =>
    exact entries_relocated hlabels (two_le_entryWidth packed) ((fits_jumps ht).1 hfit) off

end Table

/-- **The bytes of tables behind a program at two offsets** differ in the entries that are labels. -/
theorem Linked.tables_relocated {ts : TableSet} (hfit : ∀ t ∈ ts, t.Fits labels') (off : Nat) :
    Bytes.Relocated d (slots labels off ts) off (ts.flatMap (Table.bytes labels))
      (ts.flatMap (Table.bytes labels')) := by
  induction ts generalizing off with
  | nil => exact Bytes.Relocated.refl []
  | cons t ts ih =>
    rw [List.forall_mem_cons] at hfit
    refine (Table.bytes_relocated hlabels hfit.1 off).append ?_
    rw [Table.length_bytes]
    exact ih hfit.2 (off + t.size)

end Tables

namespace Linked

lemma slots_separator (labels : List (Text × Address)) (k : Nat) (tables : TableSet) :
    slots labels (k + (separator tables).size) tables = slots labels (k + 1) tables := by
  cases tables <;> rfl

/-- Names with offsets, the second `d` bytes on. -/
def PlacesMoved (d : Nat) (places places' : List (Text × Address)) : Prop :=
  places'.map (fun x => (x.1, x.2.toNat)) = places.map fun x => (x.1, d + x.2.toNat)

lemma placesMoved_map {d n : Nat} {a a' : Address} (h : a.Apart d n a') {places : List (Text × Nat)}
    (hn : ∀ x ∈ places, x.2 ≤ n) :
    PlacesMoved d (places.map fun x => (x.1, a + x.2)) (places.map fun x => (x.1, a' + x.2)) := by
  unfold PlacesMoved
  rw [List.map_map, List.map_map]
  refine List.map_congr_left fun x hx => ?_
  show (x.1, (a' + x.2).toNat) = (x.1, d + (a + x.2).toNat)
  rw [h x.2 (hn x hx)]

lemma PlacesMoved.labelOffset? {d : Nat} {places places' : List (Text × Address)} (h : PlacesMoved d places places')
    (name : Text) : (labelOffset? places' name).map Address.toNat =
      (labelOffset? places name).map fun o => d + o.toNat := by
  rw [← labelOffset?_map, ← labelOffset?_map]
  exact congrArg (Expansion.labelOffset? · name) h

/-- The second of two linked programs is the first `d` bytes on. -/
structure Moved (d : Nat) (fields : List Nat) (p p' : Linked) : Prop where
  bytes : Bytes.Relocated d fields 0 p.bytes p'.bytes
  origins : p'.origins = p.origins
  tables : PlacesMoved d p.tables p'.tables
  labels : PlacesMoved d p.labels p'.labels
  warnings : p'.warnings.length = p.warnings.length

end Linked

/-! ## programs -/

namespace Leaves

lemma length_linked (start : Address) (tables : TableSet) (L : List Placed) (warnings : List Diagnostic) :
    (linked start tables L warnings).bytes.length =
      size L + (Linked.separator tables).size + (tables.flatMap (Table.bytes (labels start L))).length := by
  simp only [linked, List.length_append, length_bytes]
  rfl

section Move

variable {start start' : Address} {d : Nat} {tables : TableSet} {c : Code} {warnings warnings' : List Diagnostic}
  (hapart : start.Apart d (linked start' tables c.leaves warnings').bytes.length start')

include hapart

/-- The offsets of code are among those of the linked program. -/
lemma apart_code {t : Nat} (ht : t < c.size) : (start' + t).toNat = d + (start + t).toNat := by
  refine hapart t ?_
  rw [length_linked, Code.size_leaves]
  omega

lemma labels_moved : Linked.PlacesMoved d (labels start c.leaves) (labels start' c.leaves) := by
  refine Linked.placesMoved_map hapart fun x hx => ?_
  have hlt := c.laid.defs_lt ((lastOnly_sublist _).subset hx)
  rw [length_linked]
  omega

lemma tableOffsets_moved :
    Linked.PlacesMoved d (tableOffsets start tables c.leaves) (tableOffsets start' tables c.leaves) := by
  rw [tableOffsets, tableOffsets, Address.add_add, Address.add_add, Linked.offsets_eq_map, Linked.offsets_eq_map]
  refine Linked.placesMoved_map hapart fun x hx => ?_
  rw [length_linked]
  exact Linked.le_of_mem_places _ hx

/-- What can be linked at an offset can be linked at an earlier one. -/
lemma linkable_of_apart (h : Linkable start' tables c.leaves) : Linkable start tables c.leaves := by
  refine ⟨fun t ht => Table.fits_of_moved (labels_moved hapart).labelOffset? (h.1 t ht), fun p hp table hleaf => ?_⟩
  obtain ⟨⟨o', ho', hle⟩, hwords⟩ := h.2 p hp table hleaf
  have hmoved := (tableOffsets_moved hapart).labelOffset? table
  rw [ho'] at hmoved
  obtain ⟨o, ho, hsum⟩ := Option.map_eq_some_iff.1 hmoved.symm
  have hstart := hapart 0 (Nat.zero_le _)
  rw [Address.add_zero, Address.add_zero] at hstart
  exact ⟨⟨o, ho, by omega⟩, by omega⟩

variable (hopen : openRefs c.leaves = []) (hfit : Fits start' c.leaves) (hlink : Linkable start' tables c.leaves)

include hopen hfit hlink

lemma moves_of_linkable {p : Placed} (hp : p ∈ c.leaves) :
    p.Moves (labelOffset? (tableOffsets start tables c.leaves)) (labelOffset? (tableOffsets start' tables c.leaves))
      start start' d := by
  intro href
  rcases Leaf.cases_of_isRef href with ⟨label, hl⟩ | ⟨table, hl⟩
  · obtain ⟨t, ht⟩ := exists_target hopen hp hl
    exact ⟨start + t, start' + t, by simp [Placed.value?, hl, ht], by simp [Placed.value?, hl, ht],
      apart_code hapart (Placed.target?_lt hp ht), hfit p hp t ht⟩
  · obtain ⟨⟨o', ho', hle⟩, -⟩ := hlink.2 p hp table hl
    have hmoved := (tableOffsets_moved hapart).labelOffset? table
    rw [ho'] at hmoved
    obtain ⟨o, ho, hsum⟩ := Option.map_eq_some_iff.1 hmoved.symm
    exact ⟨o, o', by simp [Placed.value?, hl, ho], by simp [Placed.value?, hl, ho'], hsum.symm, hle⟩

theorem linked_moved (hwarnings : warnings'.length = warnings.length) :
    Linked.Moved d (operands c.leaves ++ Linked.slots (labels start c.leaves) (size c.leaves + 1) tables)
      (linked start tables c.leaves warnings) (linked start' tables c.leaves warnings') where
  bytes := by
    -- the code, the byte between, the tables: fields are counted on from the end of the stretch before
    have hcode := bytes_relocated c.laid fun p hp => moves_of_linkable hapart hopen hfit hlink hp
    have htables := Linked.tables_relocated (labels_moved hapart).labelOffset? hlink.1
      (size c.leaves + (Linked.separator tables).size)
    rw [Linked.slots_separator] at htables
    rw [← List.append_nil (operands c.leaves)]
    refine (hcode.append (Bytes.Relocated.refl (Linked.separator tables).bytes)).append ?_
    rw [List.length_append, length_bytes, Nat.zero_add]
    exact htables
  origins := rfl
  tables := tableOffsets_moved hapart
  labels := labels_moved hapart
  warnings := hwarnings

end Move

end Leaves

/-- **A program moves with its start.** What can be assembled for an offset can be assembled for an earlier one, as long
as the words suffice. The two programs have the same bytes and origins, up to the absolute offsets in them: the operands
of references and the entries of tables that are labels. These, and the offsets of labels and tables, differ by the
distance of the starts. -/
theorem link_relocates {limits : Limits} {root : Text} {start start' : Address} (hle : start.toNat ≤ start'.toNat)
    {s : Store} {tables : TableSet} {e' : Expansion} (he' : (Processor.process limits root start' s).1 = .ok e')
    {p' : Linked} (hp' : Linked.link e' tables start' = .ok p')
    (hwords : start'.toNat + p'.bytes.length < Numeral.countLimit) :
    ∃ c s' e p, (Engine.unfold limits limits.maxDepth [] root [] none).runOn s = (.ok c, s') ∧
      (Processor.process limits root start s).1 = .ok e ∧ Linked.link e tables start = .ok p ∧
      p.Moved (start'.toNat - start.toNat) (Leaves.operands c.leaves ++ Linked.slots e.labels (e.size + 1) tables)
        p' := by
  -- the code does not depend on the start, so both programs come from the same one
  obtain ⟨c, s', hc, hfit, hopen, rfl⟩ := Processor.process_ok_iff.1 he'
  rcases Leaves.link_cases c.laid hopen start' tables with ⟨hlink, warnings', hok', hlen'⟩ | ⟨-, f, herr, -⟩
  · rw [hok'] at hp'
    cases hp'
    have hapart := Address.apart_of_le hle hwords
    rcases Leaves.link_cases c.laid hopen start tables with ⟨-, warnings, hok, hlen⟩ | ⟨hnot, -⟩
    · have hsize : start'.toNat + c.size ≤ Numeral.countLimit := by
        rw [Leaves.length_linked, Code.size_leaves] at hwords
        omega
      have hprocess := Processor.process_ok_iff.2 ⟨c, s', hc, Leaves.fits_of_le hle hsize hfit, hopen, rfl⟩
      have hwarnings : warnings'.length = warnings.length := by
        rw [hlen', hlen, funext (Table.unknown_moved (Leaves.labels_moved hapart).labelOffset?)]
      refine ⟨c, s', _, _, hc, hprocess, hok, ?_⟩
      rw [Leaves.size_expansion]
      exact Leaves.linked_moved hapart hopen hfit hlink hwarnings
    · exact absurd (Leaves.linkable_of_apart hapart hlink) hnot
  · rw [herr] at hp'
    cases hp'

/-- `MAIN` with its tables at the offsets 16 and 4096: three label references, a table reference and an entry. -/
theorem link_relocates_main :
    ∃ e' p' e p, (Processor.process {} "MAIN".toList 4096 Sample.store).1 = .ok e' ∧
      Linked.link e' Sample.tables 4096 = .ok p' ∧
      (Processor.process {} "MAIN".toList 16 Sample.store).1 = .ok e ∧ Linked.link e Sample.tables 16 = .ok p ∧
      p.Moved 4080 [1, 6, 11, 17, 50] p' := by
  have hrun : (Processor.process {} "MAIN".toList 4096 Sample.store).1.toOption.map
      (fun e => (Linked.link e Sample.tables 4096).toOption.map fun p => p.bytes.length) = some (some 87) := by
    decide +kernel
  obtain ⟨e', he', hlinked⟩ := exists_ok_of_map hrun
  obtain ⟨p', hp', hlength⟩ := exists_ok_of_map hlinked
  obtain ⟨c, s', e, p, hc, he, hp, hmoved⟩ := link_relocates
    (show (16 : Address).toNat ≤ (4096 : Address).toNat by decide) he' hp' (by rw [hlength]; decide)
  have hoperands : ((Engine.unfold {} ({} : Limits).maxDepth [] "MAIN".toList [] none).runOn
      Sample.store).1.toOption.map (fun c => Leaves.operands c.leaves) = some [1, 6, 11, 17] := by
    decide +kernel
  have hslots : (Processor.process {} "MAIN".toList 16 Sample.store).1.toOption.map
      (fun e => Linked.slots e.labels (e.size + 1) Sample.tables) = some [50] := by
    decide +kernel
  rw [hc] at hoperands
  rw [he] at hslots
  have hfields : Leaves.operands c.leaves ++ Linked.slots e.labels (e.size + 1) Sample.tables =
      [1, 6, 11, 17] ++ [50] :=
    congr (congrArg _ (Option.some.inj hoperands)) (Option.some.inj hslots)
  rw [hfields] at hmoved
  exact ⟨e', p', e, p, he', hp', he, hp, hmoved⟩

end MacroAsm
