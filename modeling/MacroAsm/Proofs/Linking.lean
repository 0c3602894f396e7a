import MacroAsm.Linked
import MacroAsm.Proofs.Placeholders

/-!
# Programs that can be linked

The tables stand behind the program; their entries are offsets of labels and their own offsets go into the placeholders
that are left in the program.

* `Linked.offsets`: the tables with their absolute offsets;
* `Linked.appendix_cases`: laying out tables fails only where an entry does not fit;
* `Leaves.patchRefs_cases`: writing table references fails only for an unknown table, an offset that does not fit or a
  reference that the words do not reach;
* `Leaves.link_cases`: linking the expansion of code that leaves no label reference open;
* `process_linkable`: a program that expansion hands over can be linked unless one of these happens;
* `reference_before_program`: one that the words do not reach.
-/

namespace MacroAsm

open Expansion (labelOffset?)

namespace Table

/-- Every entry that is a label of the program has an offset that fits two bytes. -/
def Fits (labels : List (Text × Address)) (t : Table) : Prop :=
  ∀ entries packed, t.payload = .jumps entries packed →
    ∀ label ∈ entries, ∀ o, labelOffset? labels label = some o → o.toNat ≤ maxOffset

/-- The bytes of one entry: the offset of its label in the last two, all zeros without a label. -/
def entry (labels : List (Text × Address)) (width : Nat) (label : Text) : Bytes :=
  match labelOffset? labels label with
  | some o => List.replicate (width - 2) 0 ++ Bytes.ofOffset o.toNat
  | none => List.replicate width 0

/-- The bytes of a table behind a program with these labels. -/
def bytes (labels : List (Text × Address)) (t : Table) : Bytes :=
  match t.payload with
  | .code bytes => bytes
  | .jumps entries packed => entries.flatMap (entry labels (entryWidth packed))

/-- The entries of a table that are no labels of the program. -/
def unknown (labels : List (Text × Address)) (t : Table) : List Text :=
  match t.payload with
  | .code _ => []
  | .jumps entries _ => entries.filter fun label => (labelOffset? labels label).isNone

lemma fits_jumps {labels : List (Text × Address)} {t : Table} {entries : List Text} {packed : Bool}
    (ht : t.payload = .jumps entries packed) :
    t.Fits labels ↔ ∀ label ∈ entries, ∀ o, labelOffset? labels label = some o → o.toNat ≤ maxOffset := by
  unfold Fits
  rw [ht]
  constructor
  · intro h
    exact h entries packed rfl
  · rintro h _ _ ⟨rfl, rfl⟩
    exact h

lemma length_entry (labels : List (Text × Address)) {width : Nat} (hw : 2 ≤ width) (label : Text) :
    (entry labels width label).length = width := by
  unfold entry
  cases labelOffset? labels label with
  | none => simp
  | some o =>
    rw [List.length_append, List.length_replicate]
    exact Nat.sub_add_cancel hw

lemma two_le_entryWidth (packed : Bool) : 2 ≤ entryWidth packed := by
  cases packed <;> decide

lemma length_bytes (labels : List (Text × Address)) (t : Table) : (t.bytes labels).length = t.size := by
  unfold bytes size
  cases t.payload with
  | code bytes => rfl
  | jumps entries packed =>
    simp only [List.length_flatMap, length_entry labels (two_le_entryWidth packed), List.map_const',
      List.sum_replicate_nat]

end Table

namespace Linked

/-- The tables with their absolute offsets, the first at `k`. -/
def offsets : Address → TableSet → List (Text × Address)
  | _, [] => []
  | k, t :: ts => (t.name, k) :: offsets (k + t.size) ts

/-- The tables with their offsets from the start of the program, the first at `n`. -/
def places : Nat → TableSet → List (Text × Nat)
  | _, [] => []
  | n, t :: ts => (t.name, n) :: places (n + t.size) ts

lemma offsets_eq_map (start : Address) (n : Nat) (ts : TableSet) :
    offsets (start + n) ts = (places n ts).map fun d => (d.1, start + d.2) := by
  induction ts generalizing n with
  | nil => rfl
  | cons t ts ih => rw [offsets, places, List.map_cons, Address.add_add, ih]

lemma le_of_mem_places (labels : List (Text × Address)) {n : Nat} {ts : TableSet} {d : Text × Nat}
    (hd : d ∈ places n ts) : d.2 ≤ n + (ts.flatMap (Table.bytes labels)).length := by
  induction ts generalizing n with
  | nil => cases hd
  | cons t ts ih =>
    rw [List.flatMap_cons, List.length_append, Table.length_bytes]
    rcases List.mem_cons.1 hd with rfl | hd
    · exact Nat.le_add_right _ _
    · have := ih hd
      omega

lemma offsets_separator (k : Address) (n : Nat) (tables : TableSet) :
    offsets (k + n + (separator tables).size) tables = offsets (k + (n + 1)) tables := by
  rw [Address.add_add]
  cases tables <;> rfl

/-! ## tables -/

theorem entries_cases (root : Expansion) (t : Table) (width : Nat) (labels : List Text) (offset : Address) :
    ((∀ label ∈ labels, ∀ o, labelOffset? root.labels label = some o → o.toNat ≤ maxOffset) ∧
      ∃ warnings, entries root t width offset labels = .ok (labels.flatMap (Table.entry root.labels width), warnings) ∧
        warnings.length = (labels.filter fun label => (labelOffset? root.labels label).isNone).length) ∨
    ((¬ ∀ label ∈ labels, ∀ o, labelOffset? root.labels label = some o → o.toNat ≤ maxOffset) ∧
      ∃ label o, entries root t width offset labels =
        .error (.located (.entryTooLarge t.name label o) t.origin)) := by
  induction labels generalizing offset with
  | nil => exact Or.inl ⟨by simp, [], rfl, rfl⟩
  | cons label labels ih =>
    simp only [List.forall_mem_cons, entries, List.flatMap_cons]
    by_cases hfit : ∀ o, labelOffset? root.labels label = some o → o.toNat ≤ maxOffset
    · obtain ⟨warnings, hentry, hlen⟩ : ∃ warnings, entry root t width offset label =
          .ok (Table.entry root.labels width label, warnings) ∧
            warnings.length = ([label].filter fun label => (labelOffset? root.labels label).isNone).length := by
        unfold entry Table.entry
        cases ho : labelOffset? root.labels label with
        | some o => exact ⟨[], if_neg (Nat.not_lt.2 (hfit o ho)), by simp [ho]⟩
        | none => exact ⟨_, rfl, by simp [ho]⟩
      rw [hentry]
      rcases ih (offset + width) with ⟨hall, more, hok, hmore⟩ | ⟨hall, label', o, herr⟩
      · refine Or.inl ⟨⟨hfit, hall⟩, warnings ++ more, ?_, ?_⟩
        · simp only [bind, Except.bind, hok]
          rfl
        · rw [List.length_append, hlen, hmore, ← List.length_append, ← List.filter_append, List.singleton_append]
      · refine Or.inr ⟨fun h => hall h.2, label', o, ?_⟩
        simp only [bind, Except.bind, herr]
    · simp only [not_forall, Nat.not_le] at hfit
      obtain ⟨o, ho, hlarge⟩ := hfit
      have hentry : entry root t width offset label =
          .error (.located (.entryTooLarge t.name label o.toNat) t.origin) := by
        simp only [entry, ho]
        exact if_pos hlarge
      refine Or.inr ⟨fun h => absurd (h.1 o ho) (Nat.not_le.2 hlarge), label, o.toNat, ?_⟩
      rw [hentry]
      rfl

theorem payload_cases (root : Expansion) (t : Table) (offset : Address) :
    (t.Fits root.labels ∧ ∃ warnings, payload root t offset = .ok (t.bytes root.labels, warnings) ∧
      warnings.length = (t.unknown root.labels).length) ∨
    (¬ t.Fits root.labels ∧
      ∃ label o, payload root t offset = .error (.located (.entryTooLarge t.name label o) t.origin)) := by
  unfold payload Table.bytes Table.unknown
  cases ht : t.payload with
  | code bytes => exact Or.inl ⟨by simp [Table.Fits, ht], [], rfl, rfl⟩
  | jumps labels packed =>
    rw [Table.fits_jumps ht]
    exact entries_cases root t (entryWidth packed) labels offset

/-- **Laying out tables** fails only where an entry does not fit. -/
theorem appendix_cases (root : Expansion) (ts : TableSet) (offset : Address) :
    ((∀ t ∈ ts, t.Fits root.labels) ∧ ∃ warnings, appendix root offset ts =
      .ok ⟨ts.flatMap (Table.bytes root.labels), ts.flatMap fun t => List.replicate t.size t.origin,
        offsets offset ts, warnings⟩ ∧ warnings.length = (ts.flatMap (Table.unknown root.labels)).length) ∨
    ((¬ ∀ t ∈ ts, t.Fits root.labels) ∧ ∃ table label o origin, appendix root offset ts =
      .error (.located (.entryTooLarge table label o) origin)) := by
  induction ts generalizing offset with
  | nil => exact Or.inl ⟨by simp, [], rfl, rfl⟩
  | cons t ts ih =>
    simp only [List.forall_mem_cons, appendix, offsets, List.flatMap_cons]
    rcases payload_cases root t offset with ⟨hfit, warnings, hok, hlen⟩ | ⟨hfit, label, o, herr⟩
    · rw [hok]
      have hsize := Table.length_bytes root.labels t
      rcases ih (offset + t.size) with ⟨hall, more, happ, hmore⟩ | ⟨hall, table, label, o, origin, herr⟩
      · refine Or.inl ⟨⟨hfit, hall⟩, warnings ++ more, ?_, ?_⟩
        · simp only [bind, Except.bind, hsize, happ]
          rfl
        · rw [List.length_append, List.length_append, hlen, hmore]
      · refine Or.inr ⟨fun h => hall h.2, table, label, o, origin, ?_⟩
        simp only [bind, Except.bind, hsize, herr]
    · refine Or.inr ⟨fun h => hfit h.1, t.name, label, o, t.origin, ?_⟩
      rw [herr]
      rfl

end Linked

/-! ## table references -/

/-- Writing into a placeholder replaces its operand. -/
lemma Image.patchFor_ok {i i' : Image} {o : Origin} {p v : Nat} (h : i.patchFor o p v = .ok i') :
    p ∈ i.placeholders ∧ v ≤ maxOffset ∧ i'.placeholders = i.placeholders.erase p ∧
      i'.bytes.toList = (i.bytes.toList.set (p + 1) (UInt8.ofNat (v / 256))).set (p + 2) (UInt8.ofNat (v % 256)) := by
  rw [patchFor_eq] at h
  by_cases hopen : (!i.placeholders.contains p || i.bytes[p]? != some Opcode.push2) = true
  · rw [if_pos hopen] at h
    cases h
  · by_cases hlarge : maxOffset < v
    · rw [if_neg hopen, if_pos hlarge] at h
      cases h
    · rw [if_neg hopen, if_neg hlarge] at h
      cases h
      simp only [Bool.or_eq_true, Bool.not_eq_true', not_or, Bool.not_eq_false] at hopen
      refine ⟨by simpa using hopen.1, Nat.not_lt.1 hlarge, rfl, ?_⟩
      simp only [written, Array.toList_setIfInBounds]

namespace Linked

variable {start : Address} {offsets : List (Text × Address)} {i i' : Image}

/-- A table reference that was written named a table and stood behind the start. -/
lemma patchRef_ok {r : TableRef} (h : patchRef start offsets i r = .ok i') :
    ∃ o, labelOffset? offsets r.table = some o ∧ start.toNat ≤ r.offset.toNat ∧
      i.patchFor r.origin (r.offset.toNat - start.toNat) o.toNat = .ok i' := by
  unfold patchRef at h
  cases hd : offsets.find? fun d => d.1 == r.table with
  | none =>
    rw [hd] at h
    cases h
  | some d =>
    rw [hd] at h
    by_cases hbefore : r.offset.toNat < start.toNat
    · simp only [if_pos hbefore] at h
      cases h
    · simp only [if_neg hbefore] at h
      exact ⟨d.2, by rw [labelOffset?, hd]; rfl, Nat.not_lt.1 hbefore, h⟩

/-- Where table references have been written, their placeholders are no longer open. -/
lemma patchRefs_holes {rs : List TableRef} (h : patchRefs start offsets i rs = .ok i') :
    i.placeholders.Perm (rs.map (fun r => r.offset.toNat - start.toNat) ++ i'.placeholders) := by
  induction rs generalizing i with
  | nil =>
    cases h
    exact List.Perm.refl _
  | cons r rs ih =>
    obtain ⟨i₁, hr, h⟩ := ok_of_bind h
    obtain ⟨o, -, -, hwrite⟩ := patchRef_ok hr
    obtain ⟨hmem, -, hholes, -⟩ := Image.patchFor_ok hwrite
    refine (List.perm_cons_erase hmem).trans (List.Perm.cons _ ?_)
    rw [← hholes]
    exact ih h

end Linked

namespace Placed

lemma tableRef?_eq_some {start : Address} {p : Placed} {r : TableRef} :
    p.tableRef? start = some r ↔ p.leaf = .tableRef r.table ∧ start + p.offset = r.offset ∧ p.origin = r.origin := by
  obtain ⟨table, offset, origin⟩ := r
  unfold tableRef?
  cases p.leaf <;> simp

lemma tableRef?_eq_none {start : Address} {p : Placed} :
    p.tableRef? start = none ↔ ∀ table, p.leaf ≠ .tableRef table := by
  unfold tableRef?
  cases p.leaf <;> simp

/-- The offsets of tables matter to table references only. -/
lemma value?_eq_of_not_table {p : Placed} (h : ∀ table, p.leaf ≠ .tableRef table) (tables : Text → Option Address)
    (start : Address) : p.value? tables start = p.value? noTables start := by
  unfold value?
  cases hl : p.leaf
  case tableRef table => exact absurd hl (h table)
  all_goals rfl

end Placed

namespace Leaves

/-- Every table that is referred to is known and starts at an offset that fits two bytes, and the words suffice for the
places of the references in code that starts at `start`. -/
def TablesFit (tables : Text → Option Address) (start : Address) (L : List Placed) : Prop :=
  ∀ p ∈ L, ∀ table, p.leaf = .tableRef table →
    (∃ o, tables table = some o ∧ o.toNat ≤ maxOffset) ∧ start.toNat + p.offset < Numeral.countLimit

lemma tablesFit_cons_of_not_table {tables : Text → Option Address} {start : Address} {p : Placed} {L : List Placed}
    (h : ∀ table, p.leaf ≠ .tableRef table) : TablesFit tables start (p :: L) ↔ TablesFit tables start L :=
  List.forall_mem_cons.trans (and_iff_right fun table ht => absurd ht (h table))

/-- Of all tables only the one that is named matters to a leaf. -/
lemma tablesFit_cons_of_table {tables : Text → Option Address} {start : Address} {p : Placed} {L : List Placed}
    {table : Text} (h : p.leaf = .tableRef table) :
    TablesFit tables start (p :: L) ↔
      ((∃ o, tables table = some o ∧ o.toNat ≤ maxOffset) ∧ start.toNat + p.offset < Numeral.countLimit) ∧
        TablesFit tables start L := by
  refine List.forall_mem_cons.trans (and_congr_left' ?_)
  rw [h]
  constructor
  · intro hall
    exact hall table rfl
  · rintro hfit _ ⟨rfl⟩
    exact hfit

/-- What can be wrong with a table reference, the references of code at `start` being at some places: the table is
unknown or too far, or the words do not reach a reference, which then seems to stand before the program. -/
def RefFault (start : Address) (places : List Nat) (f : Fault) : Prop :=
  (∃ table, f.cause = .unknownTableStart table) ∨ (∃ o, f.cause = .offsetTooLarge o) ∨
    (∃ o, f.cause = .placeholderBeforeProgram o) ∧ ∃ k ∈ places, Numeral.countLimit ≤ start.toNat + k

lemma RefFault.mono {start : Address} {places places' : List Nat} (hsub : places ⊆ places') {f : Fault}
    (h : RefFault start places f) : RefFault start places' f :=
  h.imp_right (Or.imp_right (And.imp_right fun ⟨k, hk, hlarge⟩ => ⟨k, hsub hk, hlarge⟩))

lemma mem_tablePlaces {L : List Placed} {k : Nat} :
    k ∈ tablePlaces L ↔ ∃ p ∈ L, (∃ table, p.leaf = .tableRef table) ∧ p.offset = k := by
  have hplace : ∀ p : Placed, p.tablePlace? = some k ↔ (∃ table, p.leaf = .tableRef table) ∧ p.offset = k := by
    intro p
    unfold Placed.tablePlace?
    cases p.leaf <;> simp
  simp only [tablePlaces, List.mem_filterMap, hplace]

lemma tablesFit_iff (start : Address) {tables : Text → Option Address} {L : List Placed} :
    TablesFit tables start L ↔
      (∀ r ∈ tableRefs start L, ∃ o, tables r.table = some o ∧ o.toNat ≤ maxOffset) ∧
        ∀ k ∈ tablePlaces L, start.toNat + k < Numeral.countLimit := by
  simp only [tableRefs, List.mem_filterMap, Placed.tableRef?_eq_some, mem_tablePlaces]
  constructor
  · intro h
    refine ⟨?_, ?_⟩
    · rintro r ⟨p, hp, hleaf, -⟩
      exact (h p hp r.table hleaf).1
    · rintro _ ⟨p, hp, ⟨table, hleaf⟩, rfl⟩
      exact (h p hp table hleaf).2
  · rintro ⟨hrefs, hplaces⟩ p hp table hleaf
    exact ⟨hrefs ⟨table, start + p.offset, p.origin⟩ ⟨p, hp, hleaf, rfl, rfl⟩, hplaces _ ⟨p, hp, ⟨table, hleaf⟩, rfl⟩⟩

section Patch

open Linked (patchRef patchRefs)

variable {start : Address} {before : Bytes} {hb : List Nat} (hlt : ∀ h ∈ hb, h < before.length) {p : Placed}
  (hoff : p.offset = before.length) (L : List Placed)

/-- A leaf that refers to no table: nothing is written. -/
lemma imageAfter_cons_of_not_table (h : ∀ table, p.leaf ≠ .tableRef table) (tables : Text → Option Address) :
    imageAfter before hb noTables start (p :: L) =
      imageAfter (before ++ p.bytes tables start) (hb ++ (p.hole? tables).toList) noTables start L := by
  have hbytes : p.bytes tables start = p.bytes noTables start := by
    unfold Placed.bytes
    rw [Placed.value?_eq_of_not_table h]
  have hhole : p.hole? tables = p.hole? noTables := by
    unfold Placed.hole?
    rw [Placed.value?_eq_of_not_table h]
  rw [hbytes, hhole, imageAfter_cons]

include hlt hoff

/-- A leaf that refers to a table: its placeholder gets the offset of the table, if there is one that fits and the
words suffice for its own offset. -/
lemma patchRef_cases (offsets : List (Text × Address)) {r : TableRef} (hr : p.tableRef? start = some r)
    (hsmall : p.offset < Numeral.countLimit) :
    (((∃ o, labelOffset? offsets r.table = some o ∧ o.toNat ≤ maxOffset) ∧
        start.toNat + p.offset < Numeral.countLimit) ∧
      patchRef start offsets (imageAfter before hb noTables start (p :: L)) r =
        .ok (imageAfter (before ++ p.bytes (labelOffset? offsets) start)
          (hb ++ (p.hole? (labelOffset? offsets)).toList) noTables start L)) ∨
    (¬ ((∃ o, labelOffset? offsets r.table = some o ∧ o.toNat ≤ maxOffset) ∧
        start.toNat + p.offset < Numeral.countLimit) ∧
      ∃ f, patchRef start offsets (imageAfter before hb noTables start (p :: L)) r = .error f ∧
        RefFault start [p.offset] f) := by
  obtain ⟨hleaf, hro, -⟩ := Placed.tableRef?_eq_some.1 hr
  have hhole : p.hole? noTables = some p.offset :=
    Placed.hole?_eq_some.2 ⟨⟨by rw [hleaf]; rfl, by simp [Placed.value?, hleaf, noTables]⟩, rfl⟩
  cases hd : offsets.find? fun d => d.1 == r.table with
  | none =>
    have hnone : labelOffset? offsets r.table = none := by rw [labelOffset?, hd]; rfl
    refine Or.inr ⟨by simp [hnone], .located (.unknownTableStart r.table) r.origin, ?_, Or.inl ⟨r.table, rfl⟩⟩
    rw [patchRef, hd]
  | some d =>
    have hsome : labelOffset? offsets r.table = some d.2 := by rw [labelOffset?, hd]; rfl
    have hwrite := patchFor_imageAfter hhole hoff hlt start L r.origin d.2
    rw [patchRef, hd, ← hro]
    by_cases hwords : start.toNat + p.offset < Numeral.countLimit
    · have hplace := Address.toNat_add_of_lt hwords
      have hafter : ¬ start.toNat + p.offset < start.toNat := Nat.not_lt.2 (Nat.le_add_right _ _)
      simp only [hplace, if_neg hafter, Nat.add_sub_cancel_left, hwrite]
      by_cases hlarge : maxOffset < d.2.toNat
      · refine Or.inr ⟨?_, .located (.offsetTooLarge d.2.toNat) r.origin, if_pos hlarge,
          Or.inr (Or.inl ⟨d.2.toNat, rfl⟩)⟩
        rintro ⟨⟨o, ho, hle⟩, -⟩
        cases hsome.symm.trans ho
        exact absurd hle (Nat.not_le.2 hlarge)
      · have hvalue : p.value? (labelOffset? offsets) start = some d.2 := by simp [Placed.value?, hleaf, hsome]
        have hbytes : p.bytes (labelOffset? offsets) start = Opcode.push2 :: operand (some d.2) := by
          rw [Placed.bytes_of_isRef (by rw [hleaf]; rfl), hvalue]
        have hclosed : p.hole? (labelOffset? offsets) = none := by
          simp [Placed.hole?, Placed.value?, hleaf, hsome]
        refine Or.inl ⟨⟨⟨d.2, hsome, Nat.not_lt.1 hlarge⟩, hwords⟩, ?_⟩
        rw [if_neg hlarge, hbytes, hclosed, Option.toList_none, List.append_nil]
    · -- the sum has run over the end of the words, so the reference seems to stand before the program
      have hbefore : (start + p.offset).toNat < start.toNat := Address.toNat_add_lt hsmall (Nat.not_lt.1 hwords)
      exact Or.inr ⟨fun h => hwords h.2, _, if_pos hbefore,
        Or.inr (Or.inr ⟨⟨_, rfl⟩, _, List.mem_singleton_self _, Nat.not_lt.1 hwords⟩)⟩

end Patch

/-- **Writing the table references of some leaves** fails only for a table that is unknown or too far, or for a
reference that the words do not reach. -/
theorem patchRefs_cases (start : Address) (offsets : List (Text × Address)) {L : List Placed} {before : Bytes}
    {hb : List Nat} (hL : Laid before.length L) (hlt : ∀ h ∈ hb, h < before.length)
    (hsmall : ∀ k ∈ tablePlaces L, k < Numeral.countLimit) :
    (TablesFit (labelOffset? offsets) start L ∧
      Linked.patchRefs start offsets (imageAfter before hb noTables start L) (tableRefs start L) =
        .ok (imageAfter before hb (labelOffset? offsets) start L)) ∨
    (¬ TablesFit (labelOffset? offsets) start L ∧
      ∃ f, Linked.patchRefs start offsets (imageAfter before hb noTables start L) (tableRefs start L) = .error f ∧
        RefFault start (tablePlaces L) f) := by
  -- on the leaves; what has been gone through is counted to the bytes before
  induction L generalizing before hb with
  | nil => exact Or.inl ⟨by simp [TablesFit], rfl⟩
  | cons p L ih =>
    have hplaces : tablePlaces (p :: L) = p.tablePlace?.toList ++ tablePlaces L := filterMap_cons_toList _ p L
    have hL' : Laid (before ++ p.bytes (labelOffset? offsets) start).length L := by
      rw [List.length_append, Placed.length_bytes]
      exact hL.2
    have hsub : tablePlaces L ⊆ tablePlaces (p :: L) := hplaces ▸ List.subset_append_right _ _
    have hrest := ih hL' (holes_before_lt hlt hL.1 (labelOffset? offsets) start) fun k hk => hsmall k (hsub hk)
    rw [← imageAfter_cons] at hrest
    replace hrest := hrest.imp_right (And.imp_right (Exists.imp fun f => And.imp_right (RefFault.mono hsub)))
    rw [tableRefs_cons]
    cases hr : p.tableRef? start with
    | none =>
      have hnot := Placed.tableRef?_eq_none.1 hr
      rw [imageAfter_cons_of_not_table L hnot (labelOffset? offsets), tablesFit_cons_of_not_table hnot]
      exact hrest
    | some r =>
      have hleaf := (Placed.tableRef?_eq_some.1 hr).1
      have hplace : p.offset ∈ tablePlaces (p :: L) :=
        mem_tablePlaces.2 ⟨p, List.mem_cons_self, ⟨r.table, hleaf⟩, rfl⟩
      rw [Option.toList_some, List.singleton_append, Linked.patchRefs, tablesFit_cons_of_table hleaf]
      rcases patchRef_cases hlt hL.1 L offsets hr (hsmall _ hplace) with ⟨hfit, hok⟩ | ⟨hfit, f, herr, hcause⟩
      · rw [hok, and_iff_right hfit]
        exact hrest
      · refine Or.inr ⟨fun h => hfit h.1, f, ?_, hcause.mono (by simpa using hplace)⟩
        rw [herr]
        rfl

lemma exists_target {L : List Placed} (hopen : openRefs L = []) {p : Placed} (hp : p ∈ L) {label : Text}
    (hl : p.leaf = .labelRef label) : ∃ t, p.target? = some t := by
  refine Option.ne_none_iff_exists'.1 fun hnone => ?_
  have hmem : (⟨label, p.offset, p.origin⟩ : LabelRef) ∈ openRefs L := mem_openRefs.2 ⟨p, hp, hl, hnone, rfl, rfl⟩
  rw [hopen] at hmem
  cases hmem

/-- Where every label reference is resolved and every table known, no placeholder is left. -/
lemma holes_eq_nil {tables : Text → Option Address} {L : List Placed} (hopen : openRefs L = [])
    {start : Address} (hfit : TablesFit tables start L) : holes tables L = [] := by
  refine List.eq_nil_iff_forall_not_mem.2 fun h hh => ?_
  obtain ⟨p, hp, hhole⟩ := mem_holes.1 hh
  obtain ⟨⟨href, hnone⟩, -⟩ := Placed.hole?_eq_some.1 hhole
  rcases Leaf.cases_of_isRef href with ⟨label, hl⟩ | ⟨table, hl⟩
  · obtain ⟨t, ht⟩ := exists_target hopen hp hl
    simp [Placed.value?, hl, ht] at hnone
  · obtain ⟨⟨o, ho, -⟩, -⟩ := hfit p hp table hl
    simp [Placed.value?, hl, ho] at hnone

/-! ## linking -/

/-- The tables behind some leaves that start at `start`, with their absolute offsets. -/
def tableOffsets (start : Address) (tables : TableSet) (L : List Placed) : List (Text × Address) :=
  Linked.offsets (start + size L + (Linked.separator tables).size) tables

/-- All offsets that linking has to write fit two bytes. -/
def Linkable (start : Address) (tables : TableSet) (L : List Placed) : Prop :=
  (∀ t ∈ tables, t.Fits (labels start L)) ∧ TablesFit (labelOffset? (tableOffsets start tables L)) start L

/-- Some leaves that start at `start`, with tables behind them. -/
def linked (start : Address) (tables : TableSet) (L : List Placed) (warnings : List Diagnostic) : Linked where
  bytes := bytes (labelOffset? (tableOffsets start tables L)) start L ++ (Linked.separator tables).bytes ++
    tables.flatMap (Table.bytes (labels start L))
  origins := origins L ++ (Linked.separator tables).origins ++
    tables.flatMap fun t => List.replicate t.size t.origin
  tables := tableOffsets start tables L
  labels := labels start L
  warnings := warnings

/-- The placeholders of a linked program are those of its references, which the words reach. -/
lemma places_lt_of_link {start : Address} {tables : TableSet} {L : List Placed} {l : Linked}
    (h : Linked.link (expansion start L) tables start = .ok l) : ∀ k ∈ tablePlaces L, k < Numeral.countLimit := by
  obtain ⟨a, -, h⟩ := ok_of_bind h
  obtain ⟨i, hi, h⟩ := ok_of_bind h
  obtain ⟨_, hchecked, -⟩ := ok_of_bind h
  have hnone : i.placeholders = [] := by
    unfold Linked.checkPatched at hchecked
    split at hchecked
    · next hnone => exact hnone
    · cases hchecked
  have hholes := Linked.patchRefs_holes hi
  rw [hnone, List.append_nil] at hholes
  intro k hk
  have hopen : k ∈ (expansion start L).image.placeholders := (holes_perm L).mem_iff.2 (List.mem_append_right _ hk)
  obtain ⟨r, -, rfl⟩ := List.mem_map.1 (hholes.mem_iff.1 hopen)
  have := r.offset.toNat_lt
  omega

/-- **Linking code that leaves no label reference open** fails only where an offset does not fit, a table is unknown or
the words do not reach a reference; placeholders are always where they are looked for, and all of them are written. -/
theorem link_cases {L : List Placed} (hL : Laid 0 L) (hopen : openRefs L = []) (start : Address) (tables : TableSet) :
    (Linkable start tables L ∧ ∃ warnings, Linked.link (expansion start L) tables start =
      .ok (linked start tables L warnings) ∧
      warnings.length = (tables.flatMap (Table.unknown (labels start L))).length) ∨
    (¬ Linkable start tables L ∧ ∃ f, Linked.link (expansion start L) tables start = .error f ∧
      ((∀ k ∈ tablePlaces L, k < Numeral.countLimit) →
        (∃ table label o, f.cause = .entryTooLarge table label o) ∨ RefFault start (tablePlaces L) f)) := by
  by_cases hsmall : ∀ k ∈ tablePlaces L, k < Numeral.countLimit
  case neg =>
    refine Or.inr ⟨fun hlink => hsmall fun k hk => ?_, ?_⟩
    · exact Nat.lt_of_le_of_lt (Nat.le_add_left k _) (((tablesFit_iff start).1 hlink.2).2 k hk)
    · cases hrun : Linked.link (expansion start L) tables start with
      | ok l => exact absurd (places_lt_of_link hrun) hsmall
      | error f => exact ⟨f, rfl, fun h => absurd h hsmall⟩
  -- nothing stands before the program, so its leaves are the whole image
  have hL' : Laid ([] : Bytes).length L := hL
  have hnone : ∀ h ∈ ([] : List Nat), h < ([] : Bytes).length := by simp
  have hpatch := patchRefs_cases start (tableOffsets start tables L) hL' hnone hsmall
  have himage : imageAfter [] [] noTables start L = (expansion start L).image := rfl
  have hrefs : tableRefs start L = (expansion start L).tableRefs := rfl
  rw [himage, hrefs, tableOffsets] at hpatch
  unfold Linked.link
  rw [size_expansion]
  rcases Linked.appendix_cases (expansion start L) tables (start + size L + (Linked.separator tables).size) with
    ⟨hfit, warnings, happ, hlen⟩ | ⟨hfit, table, label, o, origin, herr⟩
  · rcases hpatch with ⟨hknown, hok⟩ | ⟨hknown, f, herr, hcause⟩
    · refine Or.inl ⟨⟨hfit, hknown⟩, warnings, ?_, hlen⟩
      have hholes := holes_eq_nil hopen hknown
      simp only [bind, Except.bind, happ, hok, Linked.checkPatched, imageAfter, hholes, List.append_nil]
      rfl
    · refine Or.inr ⟨fun h => hknown h.2, f, ?_, fun _ => Or.inr hcause⟩
      simp only [bind, Except.bind, happ, herr]
  · refine Or.inr ⟨fun h => hfit h.1, .located (.entryTooLarge table label o) origin, ?_,
      fun _ => Or.inl ⟨table, label, o, rfl⟩⟩
    simp only [bind, Except.bind, herr]

end Leaves

/-! ## programs -/

/-- A program is code that fits and leaves no label reference open. -/
theorem Processor.process_ok_iff {limits : Limits} {root : Text} {start : Address} {s : Store} {e : Expansion} :
    (process limits root start s).1 = .ok e ↔
      ∃ c s', (Engine.unfold limits limits.maxDepth [] root [] none).runOn s = (.ok c, s') ∧
        Leaves.Fits start c.leaves ∧ Leaves.openRefs c.leaves = [] ∧ e = Leaves.expansion start c.leaves := by
  have hexpand : (process limits root start s).1 = .ok e ↔
      ∃ s', (Engine.expand limits limits.maxDepth [] ⟨root, start, [], none⟩).runOn s = (.ok e, s') ∧
        e.unmatched = [] := by
    show (match (Engine.expand limits limits.maxDepth [] ⟨root, start, [], none⟩).runOn s with
      | (.ok e, s') => (closed root e, s')
      | (.error f, s') => (.error (Failure.ofFault f), s')).1 = .ok e ↔ _
    rcases (Engine.expand limits limits.maxDepth [] ⟨root, start, [], none⟩).runOn s with ⟨f | e', s'⟩
    · simp
    · by_cases hopen : e'.unmatched = [] <;> simp [closed, hopen]
      · rintro rfl
        exact hopen
      · rintro rfl
        exact hopen
  rw [hexpand]
  constructor
  · rintro ⟨s', he, hopen⟩
    obtain ⟨c, hc, hfit, rfl⟩ := Engine.expand_ok_iff.1 he
    exact ⟨c, s', hc, hfit, hopen, rfl⟩
  · rintro ⟨c, s', hc, hfit, hopen, rfl⟩
    exact ⟨s', Engine.expand_ok_iff.2 ⟨c, hc, hfit, rfl⟩, hopen⟩

/-- A table of two entries, of which only one is a label of `MAIN`, and one of bytes. -/
def Sample.tables : TableSet :=
  [⟨"T".toList, .jumps [target, "missing".toList] false, origin⟩, ⟨"D".toList, .code [1, 2, 3], origin⟩]

namespace Sample

/-- A macro that refers to a table in its second byte. -/
def seek : Store where
  macros := ⟨[defn "SEEK" [] [.opcode Opcode.stop, .tableStart "D".toList]]⟩

/-- The table of a single byte. -/
def single : TableSet := [⟨"D".toList, .code [1], origin⟩]

end Sample

end MacroAsm
