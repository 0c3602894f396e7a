import MacroAsm.Proofs.Bytes
import MacroAsm.Proofs.Readable
import MacroAsm.Proofs.Relocation

/-!
# The layout of tables

Linking writes into the program what it learns about the tables behind it. The size of a table is used while the program
is read, its bytes are made when it is linked; the two agree.

* `Bytes.HasAt bs k xs`: the bytes `xs` stand at `k`;
* `TableEntry`, `Linked.entriesAt`: the entries of jump tables, each with the absolute offset of its bytes;
* `Linked.hasAt_region`, `Linked.hasAt_entry`: the bytes of a table and of an entry are where their offsets say;
* `Linked.warnings_appendix`: the warnings are those of the entries without a label, in order;
* `Linked.Patched`, `Linked.patchRefs_patched`: writing table references changes their operands only;
* `Linked.Layout`, `link_layout`: the linked program.
-/

namespace MacroAsm

open Expansion (labelOffset?)

/-! ## bytes and numerals -/

namespace Bytes

/-- The bytes `xs` stand at `k`. -/
def HasAt (bs : Bytes) (k : Nat) (xs : Bytes) : Prop := ∃ before after, before.length = k ∧ before ++ xs ++ after = bs

namespace HasAt

variable {xs ys : Bytes} {k : Nat}

lemma refl (xs : Bytes) : HasAt xs 0 xs := ⟨[], [], rfl, by simp⟩

lemma append_right (h : HasAt xs k ys) (zs : Bytes) : HasAt (xs ++ zs) k ys := by
  obtain ⟨before, after, hk, rfl⟩ := h
  exact ⟨before, after ++ zs, hk, by simp⟩

lemma append_left (h : HasAt xs k ys) (zs : Bytes) : HasAt (zs ++ xs) (zs.length + k) ys := by
  obtain ⟨before, after, rfl, rfl⟩ := h
  exact ⟨zs ++ before, after, List.length_append, by simp⟩

end HasAt

/-- Zeros in front do not count. -/
lemma toNat_zeros_append (n : Nat) (bs : Bytes) : toNat (List.replicate n 0 ++ bs) = toNat bs := by
  induction n with
  | zero => rfl
  | succ n ih => rw [List.replicate_succ, List.cons_append]; exact ih

lemma toNat_ofOffset {n : Nat} (h : n ≤ maxOffset) : toNat (ofOffset n) = n := by
  have hn : n < 65536 := Nat.lt_succ_of_le h
  simp only [toNat, ofOffset, List.foldl_cons, List.foldl_nil, UInt8.toNat_ofNat']
  omega

/-- Two bytes written over an operand are its value. -/
lemma word?_set {bs : Bytes} {k v : Nat} (hk : k + 1 < bs.length) (hv : v ≤ maxOffset) :
    word? ((bs.set k (UInt8.ofNat (v / 256))).set (k + 1) (UInt8.ofNat (v % 256))) k = some v := by
  have hlow : k + 1 < (bs.set k (UInt8.ofNat (v / 256))).length := by rwa [List.length_set]
  rw [← word?_ofOffset hv]
  unfold word?
  rw [List.getElem?_set_ne (Nat.succ_ne_self k), List.getElem?_set_self (Nat.lt_of_succ_lt hk),
    List.getElem?_set_self hlow]
  rfl

end Bytes

/-! ## entries -/

/-- An entry of a jump table behind a program, with the absolute offset of its bytes. -/
structure TableEntry where
  table : Table
  label : Text
  width : Nat
  offset : Address

namespace TableEntry

/-- The label is none of the program. -/
def isUnknown (labels : List (Text × Address)) (x : TableEntry) : Bool := (labelOffset? labels x.label).isNone

/-- The warning for an entry without a label. -/
def warning (x : TableEntry) : Diagnostic := Linked.entryWarning x.table x.label x.width x.offset

/-- The bytes of the entry. -/
def bytes (labels : List (Text × Address)) (x : TableEntry) : Bytes := Table.entry labels x.width x.label

lemma bytes_of_isUnknown {labels : List (Text × Address)} {x : TableEntry} (h : x.isUnknown labels = true) :
    x.bytes labels = List.replicate x.width 0 := by
  rw [bytes, Table.entry, Option.isNone_iff_eq_none.1 h]

/-- The bytes of an entry are the offset of its label, and zero without one. -/
lemma toNat_bytes {labels : List (Text × Address)} {x : TableEntry}
    (hfit : ∀ o, labelOffset? labels x.label = some o → o.toNat ≤ maxOffset) :
    Bytes.toNat (x.bytes labels) = ((labelOffset? labels x.label).map Address.toNat).getD 0 := by
  unfold bytes Table.entry
  cases ho : labelOffset? labels x.label with
  | none =>
    have hzeros := Bytes.toNat_zeros_append x.width []
    rwa [List.append_nil] at hzeros
  | some o => exact (Bytes.toNat_zeros_append _ _).trans (Bytes.toNat_ofOffset (hfit o ho))

end TableEntry

namespace Table

/-- Entries of one width behind each other, the first at `k`. -/
def entriesFrom (t : Table) (width : Nat) (k : Address) (labels : List Text) : List TableEntry :=
  labels.mapIdx fun i label => ⟨t, label, width, k + i * width⟩

/-- The entries of a table at `k`. -/
def entriesAt (t : Table) (k : Address) : List TableEntry :=
  match t.payload with
  | .code _ => []
  | .jumps labels packed => t.entriesFrom (entryWidth packed) k labels

lemma entriesFrom_cons (t : Table) (width : Nat) (k : Address) (label : Text) (labels : List Text) :
    t.entriesFrom width k (label :: labels) =
      ⟨t, label, width, k⟩ :: t.entriesFrom width (k + width) labels := by
  unfold entriesFrom
  rw [List.mapIdx_cons, Nat.zero_mul, Address.add_zero]
  refine congrArg _ (congrArg (List.mapIdx · labels) ?_)
  funext i label
  rw [Address.add_add, Nat.succ_mul, Nat.add_comm width]

/-- An entry and its place among the bytes of all. -/
lemma hasAt_entriesFrom {t : Table} {width : Nat} (hw : 2 ≤ width) (names : List (Text × Address)) {labels : List Text}
    {k : Address} {x : TableEntry} (hx : x ∈ t.entriesFrom width k labels) :
    x.label ∈ labels ∧ x.width = width ∧
      ∃ d, x.offset = k + d ∧ Bytes.HasAt (labels.flatMap (entry names width)) d (x.bytes names) := by
  induction labels generalizing k with
  | nil => cases hx
  | cons label labels ih =>
    rw [entriesFrom_cons] at hx
    rw [List.flatMap_cons]
    rcases List.mem_cons.1 hx with rfl | hx
    · exact ⟨List.mem_cons_self, rfl, 0, k.add_zero.symm, (Bytes.HasAt.refl _).append_right _⟩
    · obtain ⟨hlabel, hwidth, d, hd, hhas⟩ := ih hx
      refine ⟨List.mem_cons_of_mem _ hlabel, hwidth, width + d, by rw [hd, Address.add_add], ?_⟩
      have hmoved := hhas.append_left (entry names width label)
      rwa [length_entry names hw] at hmoved

lemma hasAt_entriesAt {t : Table} {names : List (Text × Address)} {k : Address} {x : TableEntry}
    (hx : x ∈ t.entriesAt k) :
    (t.Fits names → ∀ o, labelOffset? names x.label = some o → o.toNat ≤ maxOffset) ∧
      (x.bytes names).length = x.width ∧
      ∃ d, x.offset = k + d ∧ Bytes.HasAt (t.bytes names) d (x.bytes names) := by
  unfold entriesAt at hx
  cases ht : t.payload with
  | code bytes =>
    rw [ht] at hx
    cases hx
  | jumps labels packed =>
    rw [ht] at hx
    obtain ⟨hlabel, hwidth, hplace⟩ := hasAt_entriesFrom (two_le_entryWidth packed) names hx
    refine ⟨fun hfit => hfit labels packed ht x.label hlabel, ?_, ?_⟩
    · rw [TableEntry.bytes, hwidth, length_entry names (two_le_entryWidth packed)]
    · rw [bytes, ht]
      exact hplace

end Table

/-! ## tables -/

namespace Linked

/-- The entries of tables behind each other, the first table at `k`. -/
def entriesAt : Address → TableSet → List TableEntry
  | _, [] => []
  | k, t :: ts => t.entriesAt k ++ entriesAt (k + t.size) ts

lemma map_fst_offsets (k : Address) (ts : TableSet) : (offsets k ts).map Prod.fst = ts.map Table.name := by
  induction ts generalizing k with
  | nil => rfl
  | cons t ts ih => rw [offsets, List.map_cons, List.map_cons, ih]

/-- The offset of a name is that of a table with this name. -/
lemma exists_table_of_labelOffset? {k : Address} {ts : TableSet} {name : Text} {o : Address}
    (h : labelOffset? (offsets k ts) name = some o) :
    ∃ (i : Nat) (t : Table), ts[i]? = some t ∧ t.name = name ∧ (offsets k ts)[i]? = some (t.name, o) := by
  obtain ⟨i, hi⟩ := List.getElem?_of_mem (mem_of_labelOffset? h)
  have hname := congrArg (·[i]?) (map_fst_offsets k ts)
  simp only [List.getElem?_map, hi, Option.map_some] at hname
  obtain ⟨t, ht, htname⟩ := Option.map_eq_some_iff.1 hname.symm
  exact ⟨i, t, ht, htname, htname ▸ hi⟩

/-- **The bytes of a table** stand at its offset. -/
theorem hasAt_region (names : List (Text × Address)) {k : Address} {ts : TableSet} {i : Nat} {t : Table}
    {d : Text × Address}
    (ht : ts[i]? = some t) (hd : (offsets k ts)[i]? = some d) :
    ∃ j, d.2 = k + j ∧ Bytes.HasAt (ts.flatMap (Table.bytes names)) j (t.bytes names) := by
  induction ts generalizing k i with
  | nil => cases ht
  | cons t' ts ih =>
    rw [List.flatMap_cons]
    cases i with
    | zero =>
      cases ht
      cases hd
      exact ⟨0, k.add_zero.symm, (Bytes.HasAt.refl _).append_right _⟩
    | succ i =>
      obtain ⟨j, hj, hhas⟩ := ih ht hd
      have hmoved := hhas.append_left (t'.bytes names)
      rw [Table.length_bytes] at hmoved
      exact ⟨t'.size + j, by rw [hj, Address.add_add], hmoved⟩

/-- **The bytes of an entry** stand at its offset. -/
theorem hasAt_entry (names : List (Text × Address)) {k : Address} {ts : TableSet} {x : TableEntry}
    (hx : x ∈ entriesAt k ts) :
    ((∀ t ∈ ts, t.Fits names) → ∀ o, labelOffset? names x.label = some o → o.toNat ≤ maxOffset) ∧
      (x.bytes names).length = x.width ∧
      ∃ d, x.offset = k + d ∧ Bytes.HasAt (ts.flatMap (Table.bytes names)) d (x.bytes names) := by
  induction ts generalizing k with
  | nil => cases hx
  | cons t ts ih =>
    rw [List.flatMap_cons, List.forall_mem_cons]
    rcases List.mem_append.1 hx with hx | hx
    · obtain ⟨hfit, hlen, d, hd, hhas⟩ := Table.hasAt_entriesAt hx
      exact ⟨fun h => hfit h.1, hlen, d, hd, hhas.append_right _⟩
    · obtain ⟨hfit, hlen, d, hd, hhas⟩ := ih hx
      have hmoved := hhas.append_left (t.bytes names)
      rw [Table.length_bytes] at hmoved
      exact ⟨fun h => hfit h.2, hlen, t.size + d, by rw [hd, Address.add_add], hmoved⟩

/-! ## warnings -/

/-- The warnings of some entries, in order. -/
def unknownWarnings (names : List (Text × Address)) (xs : List TableEntry) : List Diagnostic :=
  (xs.filter (TableEntry.isUnknown names)).map TableEntry.warning

lemma unknownWarnings_append (names : List (Text × Address)) (xs ys : List TableEntry) :
    unknownWarnings names (xs ++ ys) = unknownWarnings names xs ++ unknownWarnings names ys := by
  rw [unknownWarnings, List.filter_append, List.map_append]
  rfl

variable {root : Expansion} {t : Table} {width : Nat} {k : Address}

lemma warnings_entry {label : Text} {r : Bytes × List Diagnostic} (h : entry root t width k label = .ok r) :
    r.2 = unknownWarnings root.labels [⟨t, label, width, k⟩] := by
  have hfilter : unknownWarnings root.labels [⟨t, label, width, k⟩] =
      if (labelOffset? root.labels label).isNone then [entryWarning t label width k] else [] := by
    rw [unknownWarnings, List.filter_singleton]
    unfold TableEntry.isUnknown
    cases (labelOffset? root.labels label).isNone <;> rfl
  rw [hfilter]
  unfold entry at h
  cases ho : labelOffset? root.labels label with
  | none =>
    rw [ho] at h
    cases h
    rfl
  | some o =>
    rw [ho] at h
    simp only at h
    split at h
    · cases h
    · cases h
      rfl

lemma warnings_entries {labels : List Text} {r : Bytes × List Diagnostic} (h : entries root t width k labels = .ok r) :
    r.2 = unknownWarnings root.labels (t.entriesFrom width k labels) := by
  induction labels generalizing k r with
  | nil =>
    cases h
    rfl
  | cons label labels ih =>
    obtain ⟨first, hfirst, h⟩ := ok_of_bind h
    obtain ⟨rest, hrest, h⟩ := ok_of_bind h
    cases h
    have hcons := unknownWarnings_append root.labels [⟨t, label, width, k⟩] (t.entriesFrom width (k + width) labels)
    rw [← warnings_entry hfirst, ← ih hrest] at hcons
    rw [Table.entriesFrom_cons]
    exact hcons.symm

lemma warnings_payload {r : Bytes × List Diagnostic} (h : payload root t k = .ok r) :
    r.2 = unknownWarnings root.labels (t.entriesAt k) := by
  unfold payload at h
  unfold Table.entriesAt
  cases ht : t.payload with
  | code bytes =>
    rw [ht] at h
    cases h
    rfl
  | jumps labels packed =>
    rw [ht] at h
    exact warnings_entries h

lemma length_of_payload {r : Bytes × List Diagnostic} (h : payload root t k = .ok r) : r.1.length = t.size := by
  rcases payload_cases root t k with ⟨-, ws, hok, -⟩ | ⟨-, label, o, herr⟩
  · rw [hok] at h
    cases h
    exact Table.length_bytes root.labels t
  · rw [herr] at h
    cases h

/-- **The warnings of tables** are those of their entries, in order. -/
theorem warnings_appendix {ts : TableSet} {a : Appendix} (h : appendix root k ts = .ok a) :
    a.warnings = unknownWarnings root.labels (entriesAt k ts) := by
  induction ts generalizing k a with
  | nil =>
    cases h
    rfl
  | cons t ts ih =>
    obtain ⟨first, hfirst, h⟩ := ok_of_bind h
    obtain ⟨rest, hrest, h⟩ := ok_of_bind h
    cases h
    have hlength : first.1.length = t.size := length_of_payload hfirst
    rw [hlength] at hrest
    rw [entriesAt, unknownWarnings_append, ← ih hrest, ← warnings_payload hfirst]

/-! ## table references -/

end Linked

/-- Placeholders that do not overlap and have their operands within the bytes. -/
structure Image.Apart (i : Image) : Prop where
  apart : i.placeholders.Pairwise fun p q => p + 3 ≤ q ∨ q + 3 ≤ p
  within : ∀ p ∈ i.placeholders, p + 2 < i.bytes.toList.length

namespace Linked

/-- Table references of a program at `start` have been written: the second image is the first but for their operands. -/
structure Patched (start : Address) (offsets : List (Text × Address)) (rs : List TableRef) (i i' : Image) : Prop where
  length : i'.bytes.toList.length = i.bytes.toList.length
  after : ∀ r ∈ rs, start.toNat ≤ r.offset.toNat
  /-- the placeholders of the references are no longer open -/
  holes : i.placeholders.Perm (rs.map (fun r => r.offset.toNat - start.toNat) ++ i'.placeholders)
  kept : ∀ k, (∀ r ∈ rs, start.toNat + k ≠ r.offset.toNat + 1 ∧ start.toNat + k ≠ r.offset.toNat + 2) →
    i'.bytes.toList[k]? = i.bytes.toList[k]?
  written : i.Apart → ∀ r ∈ rs, ∃ o, labelOffset? offsets r.table = some o ∧
    Bytes.word? i'.bytes.toList (r.offset.toNat - start.toNat + 1) = some o.toNat

section Patched

variable {start : Address} {offsets : List (Text × Address)} {rs rs' : List TableRef} {i i₁ i' : Image}

lemma Patched.apart (h : Patched start offsets rs i i') (hi : i.Apart) : i'.Apart where
  apart := (List.pairwise_append.1 ((h.holes.pairwise_iff Or.symm).1 hi.apart)).2.1
  within p hp := by
    rw [h.length]
    exact hi.within p (h.holes.mem_iff.2 (List.mem_append_right _ hp))

/-- References that are written later are at other placeholders, three bytes away. -/
theorem Patched.trans (h : Patched start offsets rs i i₁) (h' : Patched start offsets rs' i₁ i') :
    Patched start offsets (rs ++ rs') i i' where
  length := h'.length.trans h.length
  after := List.forall_mem_append.2 ⟨h.after, h'.after⟩
  holes := by
    rw [List.map_append, List.append_assoc]
    exact h.holes.trans (h'.holes.append_left _)
  kept k hk := by
    obtain ⟨hfst, hsnd⟩ := List.forall_mem_append.1 hk
    rw [h'.kept k hsnd, h.kept k hfst]
  written hi := by
    refine List.forall_mem_append.2 ⟨fun r hr => ?_, h'.written (h.apart hi)⟩
    obtain ⟨o, ho, hword⟩ := h.written hi r hr
    refine ⟨o, ho, ?_⟩
    have hkeep : ∀ j, j = 1 ∨ j = 2 →
        i'.bytes.toList[r.offset.toNat - start.toNat + j]? = i₁.bytes.toList[r.offset.toNat - start.toNat + j]? := by
      intro j hj
      refine h'.kept _ fun r' hr' => ?_
      have hpairs := (List.pairwise_append.1 ((h.holes.pairwise_iff Or.symm).1 hi.apart)).2.2
      have hdist := hpairs _ (List.mem_map_of_mem hr) _
        (h'.holes.mem_iff.2 (List.mem_append_left _ (List.mem_map_of_mem hr')))
      have hafter := h.after r hr
      have hafter' := h'.after r' hr'
      omega
    rw [← hword]
    unfold Bytes.word?
    rw [hkeep 1 (Or.inl rfl), hkeep 2 (Or.inr rfl)]

lemma patchRef_patched {r : TableRef} (h : patchRef start offsets i r = .ok i') :
    Patched start offsets [r] i i' := by
  obtain ⟨o, hoffset, hafter, hwrite⟩ := patchRef_ok h
  obtain ⟨hmem, hfit, hholes, hbytes⟩ := Image.patchFor_ok hwrite
  constructor
  case length => rw [hbytes, List.length_set, List.length_set]
  case after => simpa using hafter
  case holes =>
    rw [hholes]
    exact List.perm_cons_erase hmem
  case kept =>
    intro k hk
    have hk := hk r (List.mem_singleton_self r)
    rw [hbytes, List.getElem?_set_ne (by omega), List.getElem?_set_ne (by omega)]
  case written =>
    intro hi r' hr'
    cases List.mem_singleton.1 hr'
    refine ⟨o, hoffset, ?_⟩
    rw [hbytes]
    exact Bytes.word?_set (hi.within _ hmem) hfit

/-- **Writing table references** changes their operands only, and each placeholder is written once. -/
theorem patchRefs_patched (h : patchRefs start offsets i rs = .ok i') : Patched start offsets rs i i' := by
  induction rs generalizing i with
  | nil =>
    cases h
    exact ⟨rfl, by simp, List.Perm.refl _, fun _ _ => rfl, by simp⟩
  | cons r rs ih =>
    obtain ⟨i₁, hr, h⟩ := ok_of_bind h
    exact (patchRef_patched hr).trans (ih h)

end Patched

end Linked

/-- Open placeholders can be written without a look at the others. -/
lemma Expansion.Sound.apart_image {base : Address} {e : Expansion} (h : e.Sound base) : e.image.Apart where
  apart := h.apart.imp Or.inl
  within p hp := (h.hole p hp).1

/-! ## linked programs -/

namespace Linked

/-- Two offsets from which some places are counted to the same addresses are one: look at the last of these places. If
they reached beyond the middle of the words, they could be counted the other way round. -/
lemma eq_of_places {start base : Address} {ps : List Nat} (hne : ps ≠ []) (hhalf : ∀ p ∈ ps, 2 * p < Numeral.countLimit)
    (hto : ∀ p ∈ ps, ∃ q ∈ ps, start.toNat + q = (base + p).toNat)
    (hfrom : ∀ q ∈ ps, ∃ p ∈ ps, start.toNat + q = (base + p).toNat) : start = base := by
  obtain ⟨m, hm⟩ := Option.ne_none_iff_exists'.1 (show ps.max? ≠ none by simpa using hne)
  obtain ⟨hmem, hlast⟩ := List.max?_eq_some_iff.1 hm
  obtain ⟨q, hq, hmq⟩ := hto m hmem
  obtain ⟨p, hp, hpm⟩ := hfrom m hmem
  have hqm := hlast q hq
  have hpl := hlast p hp
  have hsmall := hhalf m hmem
  have hbase := base.toNat_lt
  rw [Address.toNat_add] at hmq hpm
  rw [Numeral.countLimit_eq] at hmq hpm hsmall hbase
  refine Address.ext (by omega)

/-- Where no placeholder is left, table references have been written where expansion had put them. -/
lemma Patched.start_eq {base start : Address} {offsets : List (Text × Address)} {root : Expansion} {i : Image}
    (h : Patched start offsets root.tableRefs root.image i) (hroot : root.Sound base) (hi : i.placeholders = [])
    (hne : root.tableRefs ≠ []) (hsize : 2 * root.size ≤ Numeral.countLimit) : start = base := by
  obtain ⟨ps, hps, hpartition⟩ := hroot.partition
  have hperm : (root.tableRefs.map fun r => r.offset.toNat - start.toNat).Perm
      (root.unmatched.map (·.offset) ++ ps) := by
    have hall := h.holes
    rw [hi, List.append_nil] at hall
    exact hall.symm.trans hpartition
  have hlength : root.tableRefs.length = ps.length := by simpa using congrArg List.length hps
  -- there are as many table references as placeholders, so that no label reference is open
  have hopen : root.unmatched = [] := by
    have hlen := hperm.length_eq
    simp only [List.length_append, List.length_map] at hlen
    exact List.length_eq_zero_iff.1 (by omega)
  rw [hopen, List.map_nil, List.nil_append] at hperm hpartition
  have hsome : ps ≠ [] := by
    rintro rfl
    exact hne (List.length_eq_zero_iff.1 hlength)
  refine eq_of_places hsome ?_ ?_ ?_
  · intro p hp
    have hwithin := (hroot.hole p (hpartition.mem_iff.2 hp)).1
    have hlt : p + 2 < root.size := hwithin
    omega
  · intro p hp
    have hmem : base + p ∈ root.tableRefs.map (·.offset) := hps ▸ List.mem_map_of_mem hp
    obtain ⟨r, hr, hoffset⟩ := List.mem_map.1 hmem
    have hafter := h.after r hr
    refine ⟨r.offset.toNat - start.toNat, hperm.mem_iff.1 (List.mem_map_of_mem hr), ?_⟩
    rw [← hoffset]
    omega
  · intro q hq
    obtain ⟨r, hr, rfl⟩ := List.mem_map.1 (hperm.mem_iff.2 hq)
    have hafter := h.after r hr
    have hmem : r.offset ∈ ps.map (base + ·) := hps ▸ List.mem_map_of_mem hr
    obtain ⟨p, hp, hoffset⟩ := List.mem_map.1 hmem
    refine ⟨p, hp, ?_⟩
    rw [hoffset]
    omega

lemma entriesAt_separator (k : Address) (n : Nat) (tables : TableSet) :
    entriesAt (k + n + (separator tables).size) tables = entriesAt (k + (n + 1)) tables := by
  rw [Address.add_add]
  cases tables <;> rfl

/-- What a linked program is made of. -/
lemma exists_patched {root : Expansion} {tables : TableSet} {start : Address} {l : Linked}
    (h : link root tables start = .ok l) :
    (∀ t ∈ tables, t.Fits root.labels) ∧ ∃ i : Image,
      Patched start (offsets (start + (root.size + 1)) tables) root.tableRefs root.image i ∧ i.placeholders = [] ∧
      l = { bytes := i.bytes.toList ++ (separator tables).bytes ++ tables.flatMap (Table.bytes root.labels)
            origins := root.origins ++ (separator tables).origins ++
              tables.flatMap fun t => List.replicate t.size t.origin
            tables := offsets (start + (root.size + 1)) tables
            labels := root.labels
            warnings := unknownWarnings root.labels (entriesAt (start + (root.size + 1)) tables) } := by
  rw [← offsets_separator, ← entriesAt_separator]
  obtain ⟨a, ha, h⟩ := ok_of_bind h
  obtain ⟨i, hi, h⟩ := ok_of_bind h
  obtain ⟨_, hchecked, h⟩ := ok_of_bind h
  cases h
  rcases appendix_cases root tables (start + root.size + (separator tables).size) with
    ⟨hfit, ws, happ, -⟩ | ⟨-, table, label, o, origin, herr⟩
  · have hws := warnings_appendix ha
    rw [happ] at ha
    cases ha
    refine ⟨hfit, i, patchRefs_patched hi, ?_, by rw [← hws]⟩
    unfold checkPatched at hchecked
    split at hchecked
    · next hnone => exact hnone
    · cases hchecked
  · rw [ha] at herr
    cases herr

section Behind

variable {names : List (Text × Address)} {tables : TableSet}

/-- What stands in the tables stands behind the program and the zero byte. -/
lemma hasAt_behind (code : Bytes) (hne : tables ≠ []) {d : Nat} {xs : Bytes}
    (h : Bytes.HasAt (tables.flatMap (Table.bytes names)) d xs) :
    Bytes.HasAt (code ++ (separator tables).bytes ++ tables.flatMap (Table.bytes names)) (code.length + 1 + d) xs := by
  have hsep : (separator tables).bytes.length = 1 := by
    cases tables with
    | nil => exact absurd rfl hne
    | cons t ts => rfl
  have hmoved := h.append_left (code ++ (separator tables).bytes)
  rwa [List.length_append, hsep] at hmoved

lemma hasAt_entry_behind (code : Bytes) (start : Address) (hfit : ∀ t ∈ tables, t.Fits names) :
    ∀ x ∈ entriesAt (start + (code.length + 1)) tables, ∃ j, x.offset = start + j ∧
      Bytes.HasAt (code ++ (separator tables).bytes ++ tables.flatMap (Table.bytes names)) j (x.bytes names) ∧
      (x.bytes names).length = x.width ∧
      Bytes.toNat (x.bytes names) = ((labelOffset? names x.label).map Address.toNat).getD 0 := by
  intro x hx
  have hne : tables ≠ [] := by
    rintro rfl
    cases hx
  obtain ⟨hoffset, hlen, d, hd, hhas⟩ := hasAt_entry names hx
  exact ⟨code.length + 1 + d, by rw [hd, Address.add_add], hasAt_behind code hne hhas, hlen,
    TableEntry.toNat_bytes (hoffset hfit)⟩

end Behind

/-- A program at `start` with tables behind it, made from what was expanded at `base`. -/
structure Layout (base start : Address) (root : Expansion) (ts : TableSet) (l : Linked) : Prop where
  /-- a program with table references is linked where it was expanded; one that takes more than half of the words might
  not be -/
  base_eq : root.tableRefs ≠ [] → 2 * root.size ≤ Numeral.countLimit → start = base
  /-- the program, a zero byte if there are tables, and the tables with nothing between them -/
  bytes : ∃ code : Bytes, code.length = root.size ∧
    l.bytes = code ++ (if ts = [] then [] else [0]) ++ ts.flatMap (Table.bytes root.labels)
  /-- the program has the bytes that it had, outside of the operands of table references -/
  kept : ∀ k < root.size, (∀ r ∈ root.tableRefs, start.toNat + k ≠ r.offset.toNat + 1 ∧
    start.toNat + k ≠ r.offset.toNat + 2) → l.bytes[k]? = root.bytes[k]?
  /-- the operand of a table reference, a placeholder before, is the offset of a table with its name -/
  written : ∀ r ∈ root.tableRefs, ∃ p ∈ root.placeholders, r.offset.toNat = start.toNat + p ∧
    ∃ (i : Nat) (t : Table) (o : Address), ts[i]? = some t ∧ t.name = r.table ∧ l.tables[i]? = some (t.name, o) ∧
      Bytes.word? l.bytes (p + 1) = some o.toNat
  /-- each table once and in order, the first behind the zero byte, any other behind the one before it -/
  tables : l.tables = offsets (start + (root.size + 1)) ts
  /-- the bytes of a table are at its offset, as many as its size says -/
  region : ∀ (i : Nat) (t : Table) (d : Text × Address), ts[i]? = some t → l.tables[i]? = some d →
    ∃ j, d.2 = start + j ∧ Bytes.HasAt l.bytes j (t.bytes root.labels) ∧ (t.bytes root.labels).length = t.size
  /-- the bytes of an entry are at its offset; their value is the offset of its label, and zero without one -/
  entry : ∀ x ∈ entriesAt (start + (root.size + 1)) ts, ∃ j, x.offset = start + j ∧
    Bytes.HasAt l.bytes j (x.bytes root.labels) ∧ (x.bytes root.labels).length = x.width ∧
      Bytes.toNat (x.bytes root.labels) = ((labelOffset? root.labels x.label).map Address.toNat).getD 0
  /-- one warning for each entry without a label, in order -/
  warnings : l.warnings = unknownWarnings root.labels (entriesAt (start + (root.size + 1)) ts)
  /-- a warning names the label, and the absolute offset of zeros -/
  note : ∀ w ∈ l.warnings, ∃ x ∈ entriesAt (start + (root.size + 1)) ts,
    w.severity = .warning ∧ w.fault = .located (.unknownEntry x.table.name x.label) x.table.origin ∧
      (∃ j, x.offset = start + j ∧ Bytes.HasAt l.bytes j (List.replicate x.width 0)) ∧
      ∃ digits, w.notes = [Text.decimal x.width ++ " zero bytes at offset ".toList ++ digits] ∧
        Numeral.value? digits = some x.offset.toNat
  origins : l.origins = root.origins ++ (ts.head?.map Table.origin).toList ++
    ts.flatMap fun t => List.replicate t.size t.origin
  labels : l.labels = root.labels

end Linked

/-- The size of a table is read before its bytes are made. -/
lemma OpReader.exists_table_of_tableSize {tables : TableSet} {c c' : Cursor} {k : OpKind}
    (h : tableSize tables c = .ok (some (k, c'))) :
    ∃ t ∈ tables, builtin "__tablesize".toList c = .ok (some (t.name, c')) ∧
      ∃ byte data, k = .push byte data ∧ Bytes.toNat data = Numeral.wrapCount t.size := by
  unfold tableSize at h
  split at h
  · cases h
  · cases h
  · next name rest hname =>
    split at h
    · next t ht =>
      obtain ⟨kind, hpush, heq⟩ := Option.map_eq_some_iff.1 (Except.ok.inj h)
      obtain ⟨byte, -, rfl⟩ := Option.map_eq_some_iff.1 hpush
      obtain ⟨rfl, rfl⟩ := Prod.mk.inj heq
      have hnamed : t.name = name := eq_of_beq (List.find?_some (p := fun t : Table => t.name == name) ht)
      exact ⟨t, List.mem_of_find?_eq_some ht, hnamed ▸ hname, byte, _, rfl, Bytes.toNat_ofNat _⟩
    · cases h

/-- **Tables stand behind the program in order.** Linking a program with its books in order, if it succeeds, changes the
operands of table references and appends a zero byte and the tables, each with as many bytes as its size says; the size
that a program pushes for a table of the set is the length of its bytes, as a count. -/
theorem link_layout {base start : Address} {root : Expansion} (hroot : root.Sound base) {tables : TableSet} {l : Linked}
    (h : Linked.link root tables start = .ok l) :
    l.Layout base start root tables ∧
      ∀ declared ⊆ tables, ∀ c k c', OpReader.tableSize declared c = .ok (some (k, c')) →
        ∃ t ∈ tables, OpReader.builtin "__tablesize".toList c = .ok (some (t.name, c')) ∧
          ∃ byte data, k = .push byte data ∧
            Bytes.toNat data = Numeral.wrapCount (t.bytes root.labels).length := by
  obtain ⟨hfit, i, hpatched, hholes, rfl⟩ := Linked.exists_patched h
  have hlength : i.bytes.toList.length = root.size := hpatched.length
  have hentry := Linked.hasAt_entry_behind i.bytes.toList start hfit
  rw [hlength] at hentry
  refine ⟨?_, ?_⟩
  · constructor
    case base_eq => exact hpatched.start_eq hroot hholes
    case bytes =>
      refine ⟨i.bytes.toList, hlength, ?_⟩
      cases tables <;> rfl
    case kept =>
      intro k hk hapart
      rw [List.append_assoc, List.getElem?_append_left (by rw [hlength]; exact hk)]
      exact hpatched.kept k hapart
    case written =>
      intro r hr
      obtain ⟨o, ho, hword⟩ := hpatched.written hroot.apart_image r hr
      obtain ⟨j, t, ht, hname, hj⟩ := Linked.exists_table_of_labelOffset? ho
      have hmem : r.offset.toNat - start.toNat ∈ root.placeholders :=
        hpatched.holes.mem_iff.2 (List.mem_append_left _ (List.mem_map_of_mem hr))
      have hafter := hpatched.after r hr
      refine ⟨r.offset.toNat - start.toNat, hmem, by omega, j, t, o, ht, hname, hj, ?_⟩
      rw [List.append_assoc]
      exact Bytes.word?_append_left hword _
    case tables => rfl
    case region =>
      intro j t d ht hd
      have hne : tables ≠ [] := by
        rintro rfl
        cases ht
      obtain ⟨n, hn, hhas⟩ := Linked.hasAt_region root.labels ht hd
      refine ⟨i.bytes.toList.length + 1 + n, by rw [hn, Address.add_add, hlength], ?_,
        Table.length_bytes root.labels t⟩
      exact Linked.hasAt_behind i.bytes.toList hne hhas
    case entry => exact hentry
    case warnings => rfl
    case note =>
      intro w hw
      obtain ⟨x, hx, rfl⟩ := List.mem_map.1 hw
      obtain ⟨hx, hunknown⟩ := List.mem_filter.1 hx
      obtain ⟨j, hj, hhas, -⟩ := hentry x hx
      rw [TableEntry.bytes_of_isUnknown hunknown] at hhas
      refine ⟨x, hx, rfl, rfl, ⟨j, hj, hhas⟩, "0x".toList ++ Text.hexadecimal x.offset.toNat, ?_,
        Numeral.value?_hexadecimal x.offset.toNat⟩
      show [_ ++ " zero bytes at offset 0x".toList ++ _] = _
      simp
    case origins => cases tables <;> rfl
    case labels => rfl
  · intro declared hsub c k c' hsize
    obtain ⟨t, ht, hname, byte, data, hk, hdata⟩ := OpReader.exists_table_of_tableSize hsize
    exact ⟨t, hsub ht, hname, byte, data, hk, by rw [hdata, Table.length_bytes root.labels t]⟩

/-- `T` stands at 36 behind the nineteen bytes of `MAIN` and the zero byte; its second entry, at 68, is no label. -/
theorem link_layout_main :
    ∃ e l c', (Processor.process {} "MAIN".toList 16 Sample.store).1 = .ok e ∧ e.Sound 16 ∧
      Linked.link e Sample.tables 16 = .ok l ∧ l.Layout 16 16 e Sample.tables ∧
      l.tables = [("T".toList, 36), ("D".toList, 100)] ∧
      l.warnings.map Diagnostic.notes = [["32 zero bytes at offset 0x44".toList]] ∧
      OpReader.tableSize Sample.tables (Cursor.start "__tablesize(T)".toList) = .ok (some (.push 0x60 [64], c')) ∧
      ∃ t ∈ Sample.tables, t.name = "T".toList ∧ Numeral.wrapCount (t.bytes e.labels).length = 64 := by
  have hrun : (Processor.process {} "MAIN".toList 16 Sample.store).1.toOption.map
      (fun e => (Linked.link e Sample.tables 16).toOption.map fun l => (l.tables, l.warnings.map Diagnostic.notes)) =
        some (some ([("T".toList, 36), ("D".toList, 100)], [["32 zero bytes at offset 0x44".toList]])) := by
    decide +kernel
  have hsize : OpReader.tableSize Sample.tables (Cursor.start "__tablesize(T)".toList) =
      .ok (some (.push 0x60 [64], ⟨14, []⟩)) := by
    decide +kernel
  have hname : OpReader.builtin "__tablesize".toList (Cursor.start "__tablesize(T)".toList) =
      .ok (some ("T".toList, ⟨14, []⟩)) := by
    decide +kernel
  obtain ⟨e, he, hlinked⟩ := exists_ok_of_map hrun
  obtain ⟨l, hl, hdata⟩ := exists_ok_of_map hlinked
  obtain ⟨htables, hnotes⟩ := Prod.mk.inj hdata
  have hsound : e.Sound 16 := by
    obtain ⟨c, s', hc, -, -, rfl⟩ := Processor.process_ok_iff.1 he
    obtain ⟨body, rfl⟩ := Engine.exists_frame_of_unfold hc
    exact body.sound_frame 16
  obtain ⟨hlayout, hpushed⟩ := link_layout hsound hl
  obtain ⟨t, ht, htname, byte, data, hpush, hvalue⟩ := hpushed Sample.tables (List.Subset.refl _) _ _ _ hsize
  cases hpush
  rw [hname] at htname
  have hT : "T".toList = t.name := (Prod.mk.inj (Option.some.inj (Except.ok.inj htname))).1
  exact ⟨e, l, ⟨14, []⟩, he, hsound, hl, hlayout, htables, hnotes, hsize, t, ht, hT.symm, hvalue.symm⟩

end MacroAsm
