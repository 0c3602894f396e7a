import MacroAsm.Proofs.Failures
import MacroAsm.Proofs.Linking
import MacroAsm.Proofs.Relocation
import MacroAsm.Report

/-!
# Decoding an assembled program

The machine reads code from its first byte on and takes the bytes behind a push for data. In an assembled program it
comes to the first byte of every operation and to nothing else, so that no jump goes into data.

* `Opcode.scan k bs`: the places that the machine comes to, and where it stops;
* `Leaf.PushFits`, `Leaf.NotBare`: what makes a leaf one operation; `Leaves.scan_bytes`: where all are, all are found;
* `Engine.unfold_pushesFit`: the pushes of code carry as many bytes as their opcodes say;
* `Report.exists_code`: what a report is made of;
* `Report.Decodes`, `ofSources_decodes`: the machine's view of the program and of its jumps;
* `reference_to_redefined_label`: a jump to a place that the report does not name.
-/

namespace MacroAsm

open Expansion (labelOffset?)

/-- The places that the machine comes to, the first byte being at `k`: at a push it goes on behind the data. The last of
them is where it stops. -/
def Opcode.scan (k : Nat) (bs : Bytes) : List Nat :=
  match bs with
  | [] => [k]
  | b :: bs => k :: scan (k + 1 + (pushWidth? b).getD 0) (bs.drop ((pushWidth? b).getD 0))
termination_by bs.length
decreasing_by
  rw [List.length_drop, List.length_cons]
  omega

/-! ## leaves -/

/-- A push carries as many bytes as its opcode says. -/
def Leaf.PushFits (l : Leaf) : Prop := ∀ byte data, l = .push byte data → Opcode.pushWidth? byte = some data.length

/-- The leaf is no push without data. -/
def Leaf.NotBare (l : Leaf) : Prop := ∀ byte, l = .opcode byte → Opcode.pushWidth? byte = none

/-- One leaf is one operation, with its data. -/
lemma Placed.scan_bytes {p : Placed} (hpush : p.leaf.PushFits) (hbare : p.leaf.NotBare) (tables : Text → Option Address)
    (start : Address) (k : Nat) (rest : Bytes) :
    Opcode.scan k (p.bytes tables start ++ rest) = k :: Opcode.scan (k + p.leaf.size) rest := by
  have hop : ∀ (b : Opcode) (data : Bytes), (Opcode.pushWidth? b).getD 0 = data.length →
      Opcode.scan k (b :: data ++ rest) = k :: Opcode.scan (k + (data.length + 1)) rest := by
    intro b data hwidth
    rw [List.cons_append, Opcode.scan, hwidth, List.drop_left, Nat.add_right_comm, Nat.add_assoc]
  unfold Placed.bytes
  cases hl : p.leaf with
  | opcode b => exact hop b [] (by rw [hbare b hl]; rfl)
  | push b data => exact hop b data (by rw [hpush b data hl]; rfl)
  | labelDef label => exact hop Opcode.jumpDest [] (by decide)
  | labelRef label | tableRef table =>
    have hlen := length_operand (p.value? tables start)
    have hstep := hop Opcode.push2 (operand (p.value? tables start)) (by rw [hlen]; decide)
    rw [hlen] at hstep
    exact hstep

/-- **The machine finds the leaves of code, and stops where they end.** -/
theorem Leaves.scan_bytes {L : List Placed} (hpush : ∀ p ∈ L, p.leaf.PushFits) (hbare : ∀ p ∈ L, p.leaf.NotBare)
    (tables : Text → Option Address) (start : Address) {k : Nat} (hL : Laid k L) :
    Opcode.scan k (bytes tables start L) = L.map Placed.offset ++ [k + size L] := by
  induction L generalizing k with
  | nil => rw [bytes, List.flatMap_nil, Opcode.scan, List.map_nil, List.nil_append, size_nil, Nat.add_zero]
  | cons p L ih =>
    rw [List.forall_mem_cons] at hpush hbare
    rw [bytes_cons, Placed.scan_bytes hpush.1 hbare.1, ih hpush.2 hbare.2 hL.2, List.map_cons, hL.1, size_cons,
      Nat.add_assoc]
    rfl

/-! ## unfolded code -/

namespace Engine

/-- Any computation, if nothing is asked of it. -/
lemma meets_true {α : Type} (x : Engine α) : Meets (fun _ => True) (fun _ => True) x fun _ => True :=
  ⟨fun _ _ => trivial, fun _ _ _ _ _ => trivial, fun _ _ _ _ _ => trivial⟩

/-- All pushes of a code fit. -/
abbrev PushesFit (c : Code) : Prop := ∀ p ∈ c.leaves, p.leaf.PushFits

lemma pushesFit_leaf {l : Leaf} (h : l.PushFits) (o : Origin) : PushesFit (.leaf l o) := by
  intro p hp
  rw [Code.leaves, List.mem_singleton] at hp
  rw [hp]
  exact h

lemma pushesFit_seq {a b : Code} (ha : PushesFit a) (hb : PushesFit b) : PushesFit (.seq a b) := by
  intro p hp
  rcases List.mem_append.1 hp with hp | hp
  · exact ha p hp
  · obtain ⟨p', hp', rfl⟩ := List.mem_map.1 hp
    exact hb p' hp'

lemma pushesFit_frame {body : Code} (h : PushesFit body) : PushesFit (.frame body) := by
  intro p hp
  obtain ⟨p', hp', rfl⟩ := List.mem_map.1 hp
  exact h p' hp'

section Child

variable {inner : Request → Engine Expansion} {child : Text → List Text → Option Origin → Engine Code}
  (hc : ∀ name args site, Meets (fun _ => True) (fun _ => True) (child name args site) PushesFit)

include hc

lemma unfoldOp_pushesFit (b : Bindings) (op : Op) :
    Meets (fun _ => True) (fun _ => True) (unfoldOp inner child b op) PushesFit := by
  unfold unfoldOp
  cases op.kind with
  | push byte data =>
    dsimp only
    split
    · next hwidth =>
      refine meets_pure (pushesFit_leaf ?_ _)
      rintro _ _ ⟨rfl, rfl⟩
      exact hwidth
    · exact meets_fail trivial
  | call callee args => exact hc _ _ _
  | template text => exact (meets_true _).bind fun _ _ => hc _ _ _
  | codeSize callee args =>
    refine (meets_true _).bind fun n _ => ?_
    dsimp only
    split
    · next byte hbyte =>
      refine meets_pure (pushesFit_leaf ?_ _)
      rintro _ _ ⟨rfl, rfl⟩
      exact Opcode.pushWidth?_of_pushOf? hbyte
    · exact meets_fail trivial
  | opcode | labelDef | labelRef | tableStart =>
    refine meets_pure (pushesFit_leaf ?_ _)
    intro _ _ h
    cases h

lemma unfoldOps_pushesFit (b : Bindings) (ops : List Op) :
    Meets (fun _ => True) (fun _ => True) (unfoldOps inner child b ops) PushesFit := by
  induction ops with
  | nil => exact meets_pure fun p hp => nomatch hp
  | cons op ops ih =>
    exact (unfoldOp_pushesFit hc b op).bind fun first hfirst => ih.bind fun rest hrest =>
      meets_pure (pushesFit_seq hfirst hrest)

end Child

/-- **The pushes of unfolded code fit.** -/
theorem unfold_pushesFit (limits : Limits) (budget : Nat) : ∀ active name args site,
    Meets (fun _ => True) (fun _ => True) (unfold limits budget active name args site) PushesFit := by
  induction budget with
  | zero =>
    intro active name args site
    exact (meets_true _).bind fun _ _ => meets_fail trivial
  | succ budget ih =>
    intro active name args site
    refine (meets_true _).bind fun x _ => ?_
    exact (unfoldOps_pushesFit (ih _) _ _).bind fun body hbody => meets_pure (pushesFit_frame hbody)

end Engine

/-! ## reports -/

namespace Report

variable {options : Options} {root : Text} {files : Sources} {warnings : List Diagnostic} {r : Report}

lemma ok_of_explained {α : Type} {x : Except Fault α} {a : α} (h : explained x = .ok a) : x = .ok a := by
  cases x with
  | error f => cases h
  | ok b =>
    cases h
    rfl

/-- **What a report is made of**: the code that the root macro unfolds to, with all its label references resolved, and
the tables of the program behind it. -/
theorem exists_code (h : ofSources options root files warnings = .ok r) :
    ∃ p c more, Program.read files = .ok p ∧
      ((Engine.unfold { maxDepth := options.maxDepth } options.maxDepth [] root [] none).runOn p.macros.fresh).1 =
        .ok c ∧
      Leaves.Fits options.start c.leaves ∧ Leaves.openRefs c.leaves = [] ∧
      r = ofLinked root (p.macros.find? root) options.start (Leaves.linked options.start p.tables c.leaves more)
        warnings := by
  obtain ⟨p, hp, h⟩ := ok_of_bind h
  obtain ⟨e, he, h⟩ := ok_of_bind h
  obtain ⟨l, hl, h⟩ := ok_of_bind h
  obtain ⟨c, s', hc, hfit, hopen, rfl⟩ := Processor.process_ok_iff.1 he
  rcases Leaves.link_cases c.laid hopen options.start p.tables with ⟨-, more, hok, -⟩ | ⟨-, f, herr, -⟩
  · have hlinked := ok_of_explained hl
    rw [hok] at hlinked
    cases hlinked
    cases h
    exact ⟨p, c, more, ok_of_explained hp, congrArg Prod.fst hc, hfit, hopen, rfl⟩
  · rw [ok_of_explained hl] at herr
    cases herr

/-- Labels at different offsets are in the order of these. -/
lemma ascending_mergeSort {ls : List (Text × Address)} (hnodup : (ls.map Prod.snd).Nodup) :
    (ls.mergeSort labelLe).Pairwise fun a b => a.2.toNat < b.2.toNat := by
  have hself : ∀ t : Text, Text.atMost t t = true := by
    intro t
    induction t with
    | nil => rfl
    | cons c t ih => simp [Text.atMost, ih]
  have hle : ∀ a ∈ ls, ∀ b ∈ ls, labelLe a b = decide (a.2.toNat ≤ b.2.toNat) := by
    intro a ha b hb
    by_cases heq : a.2 = b.2
    · obtain rfl := List.inj_on_of_nodup_map hnodup ha hb heq
      simp [labelLe, hself]
    · have hne : a.2.toNat ≠ b.2.toNat := fun h => heq (Address.ext h)
      simp only [labelLe, beq_eq_false_iff_ne.2 heq, Bool.false_and, Bool.or_false, decide_eq_decide]
      omega
  have hsorted : ((ls.mergeSort labelLe).map fun d => d.2.toNat).Pairwise (· ≤ ·) := by
    have htrans : ∀ a b c : Nat, decide (a ≤ b) = true → decide (b ≤ c) = true → decide (a ≤ c) = true := by
      simpa using fun a b c => Nat.le_trans
    have htotal : ∀ a b : Nat, (decide (a ≤ b) || decide (b ≤ a)) = true := by simpa using Nat.le_total
    rw [List.map_mergeSort (s := fun a b => decide (a ≤ b)) hle]
    simpa using List.pairwise_mergeSort htrans htotal (ls.map fun d => d.2.toNat)
  have hdifferent : ((ls.mergeSort labelLe).map Prod.snd).Nodup :=
    ((List.mergeSort_perm ls labelLe).map Prod.snd).nodup_iff.2 hnodup
  rw [List.pairwise_map] at hsorted
  refine hsorted.imp₂ (fun a b hab hne => ?_) (List.pairwise_map.1 hdifferent)
  exact Nat.lt_of_le_of_ne hab fun h => hne (Address.ext h)

lemma mem_labels_ofLinked {root : Text} {m : Option Macro} {start : Address} {tables : TableSet} {L : List Placed}
    {more warnings : List Diagnostic} {d : Text × Address} :
    d ∈ (ofLinked root m start (Leaves.linked start tables L more) warnings).labels ↔ d ∈ Leaves.labels start L :=
  List.mem_mergeSort

/-- The machine's view of a program and of its jumps: `c` is the code of the root. -/
structure Decodes (r : Report) (c : Code) : Prop where
  whole : c.size ≤ r.bytes.length
  /-- read from its first byte on, the code comes to every leaf and to nothing else, and ends where they end -/
  visits : Opcode.scan 0 (r.bytes.take c.size) = c.leaves.map Placed.offset ++ [c.size]
  /-- a label is the place of a leaf that is a jump destination -/
  label : ∀ d ∈ r.labels, ∃ x ∈ c.leaves, x.leaf = .labelDef d.1 ∧ d.2 = r.start + x.offset ∧
    r.bytes[x.offset]? = some Opcode.jumpDest
  /-- a label reference is a push of two bytes, which are the place of a leaf that is a jump destination: a label of the
  report, unless the label is defined again behind it -/
  reference : ∀ x ∈ c.leaves, ∀ label, x.leaf = .labelRef label → ∃ y ∈ c.leaves, y.leaf = .labelDef label ∧
    r.bytes[y.offset]? = some Opcode.jumpDest ∧ r.bytes[x.offset]? = some Opcode.push2 ∧
    Bytes.word? r.bytes (x.offset + 1) = some (r.start + y.offset).toNat ∧
    ((label, r.start + y.offset) ∈ r.labels ∨ ∃ z ∈ c.leaves, z.leaf = .labelDef label ∧ y.offset < z.offset)
  /-- labels are in order, unless the code has more bytes than there are words -/
  ascending : c.size ≤ Numeral.countLimit → r.labels.Pairwise fun a b => a.2.toNat < b.2.toNat

end Report

namespace Leaves

/-- Of the definitions of a label the last one counts. -/
lemma mem_labels_or {L : List Placed} (hL : Laid 0 L) (start : Address) {y : Placed} (hy : y ∈ L) {label : Text}
    (hl : y.leaf = .labelDef label) :
    (label, start + y.offset) ∈ labels start L ∨ ∃ z ∈ L, z.leaf = .labelDef label ∧ y.offset < z.offset := by
  by_cases hlater : ∃ z ∈ L, z.leaf = .labelDef label ∧ y.offset < z.offset
  · exact Or.inr hlater
  · left
    have hlast : lastOffset? (defs L) label = some y.offset := by
      refine (lastOffset?_eq_some_iff hL.defs_pairwise).2 ⟨mem_defs.2 ⟨y, hy, hl, rfl⟩, fun o ho => ?_⟩
      obtain ⟨z, hz, hleaf, hoff⟩ := mem_defs.1 ho
      by_contra hgt
      have hoff : z.offset = o := hoff
      exact hlater ⟨z, hz, hleaf, by omega⟩
    rw [← labelOffset?_lastOnly] at hlast
    exact List.mem_map.2 ⟨_, mem_of_labelOffset? hlast, rfl⟩

/-- Labels have different offsets, if the words suffice for the code. -/
lemma nodup_labels {c : Code} (start : Address) (hwords : c.size ≤ Numeral.countLimit) :
    ((labels start c.leaves).map Prod.snd).Nodup := by
  have hdefs : ((lastOnly (defs c.leaves)).map Prod.snd).Pairwise (· < ·) :=
    List.pairwise_map.2 (c.laid.defs_pairwise.sublist (lastOnly_sublist _))
  have hlt : ∀ k ∈ (lastOnly (defs c.leaves)).map Prod.snd, k < c.size := by
    intro k hk
    obtain ⟨d, hd, rfl⟩ := List.mem_map.1 hk
    exact Code.defs_lt ((lastOnly_sublist _).subset hd)
  have hmap : (labels start c.leaves).map Prod.snd = ((lastOnly (defs c.leaves)).map Prod.snd).map (start + ·) := by
    simp [labels, Function.comp_def]
  rw [hmap, List.nodup_map_iff_inj_on (hdefs.imp Nat.ne_of_lt)]
  intro k hk k' hk' heq
  have h := hlt k hk
  have h' := hlt k' hk'
  exact Address.add_left_cancel (by omega) (by omega) heq

section Linked

variable (start : Address) (tables : TableSet) (c : Code) (more : List Diagnostic)

/-- The bytes of code that tables are linked to, and what stands behind them. -/
lemma bytes_linked : ∃ tail, (linked start tables c.leaves more).bytes =
    bytes (labelOffset? (tableOffsets start tables c.leaves)) start c.leaves ++ tail :=
  ⟨_, List.append_assoc ..⟩

lemma size_le_linked : c.size ≤ (linked start tables c.leaves more).bytes.length := by
  obtain ⟨tail, htail⟩ := bytes_linked start tables c more
  rw [htail, List.length_append, length_bytes, c.size_leaves]
  omega

lemma take_linked : (linked start tables c.leaves more).bytes.take c.size =
    bytes (labelOffset? (tableOffsets start tables c.leaves)) start c.leaves := by
  obtain ⟨tail, htail⟩ := bytes_linked start tables c more
  rw [htail]
  exact List.take_left' ((length_bytes ..).trans c.size_leaves)

variable {c} {x : Placed} (hx : x ∈ c.leaves)

include hx

/-- The bytes of a leaf are not changed any more. -/
lemma getElem?_linked {i : Nat} (hi : i < x.leaf.size) : (linked start tables c.leaves more).bytes[x.offset + i]? =
    (x.bytes (labelOffset? (tableOffsets start tables c.leaves)) start)[i]? := by
  obtain ⟨tail, htail⟩ := bytes_linked start tables c more
  have hbound := (c.laid.bounds hx).2
  rw [htail, List.getElem?_append_left (by rw [length_bytes]; omega), c.laid.getElem?_bytes hx _ start hi]

lemma jumpDest_linked {label : Text} (hl : x.leaf = .labelDef label) :
    (linked start tables c.leaves more).bytes[x.offset]? = some Opcode.jumpDest := by
  have hfirst := getElem?_linked start tables more hx x.leaf.size_pos
  simp only [Nat.add_zero, Placed.bytes, hl] at hfirst
  exact hfirst

/-- A label reference is a push of the two bytes of its target. -/
lemma labelRef_linked {label : Text} (hl : x.leaf = .labelRef label) {o : Nat} (ho : x.target? = some o)
    (hfit : (start + o).toNat ≤ maxOffset) :
    (linked start tables c.leaves more).bytes[x.offset]? = some Opcode.push2 ∧
      Bytes.word? (linked start tables c.leaves more).bytes (x.offset + 1) = some (start + o).toNat := by
  have hbytes : ∀ names, x.bytes names start = Opcode.push2 :: Bytes.ofOffset (start + o).toNat := by
    intro names
    simp only [Placed.bytes, Placed.value?, hl, ho, Option.map_some, operand]
  have hat : ∀ i < 3, (linked start tables c.leaves more).bytes[x.offset + i]? =
      (Opcode.push2 :: Bytes.ofOffset (start + o).toNat)[i]? := by
    intro i hi
    rw [getElem?_linked start tables more hx (by rw [hl]; exact hi), hbytes]
  refine ⟨hat 0 (by decide), ?_⟩
  rw [← Bytes.word?_ofOffset hfit]
  unfold Bytes.word?
  rw [Nat.add_assoc, hat 1 (by decide), hat 2 (by decide)]
  rfl

end Linked
end Leaves

/-- **The jumps of an assembled program are valid.** Unless its code holds a push without data, the machine comes to the
first byte of every operation and to nothing else; the labels of the report, in ascending order, are such places and
jump destinations; and every label reference pushes the place of a jump destination. -/
theorem ofSources_decodes {options : Options} {root : Text} {files : Sources} {warnings : List Diagnostic} {r : Report}
    (h : Report.ofSources options root files warnings = .ok r) :
    ∃ p c, Program.read files = .ok p ∧
      ((Engine.unfold { maxDepth := options.maxDepth } options.maxDepth [] root [] none).runOn p.macros.fresh).1 =
        .ok c ∧
      ((∀ x ∈ c.leaves, ∀ byte, x.leaf = .opcode byte → Opcode.pushWidth? byte = none) → r.Decodes c) := by
  obtain ⟨p, c, more, hp, hc, hfit, hopen, rfl⟩ := Report.exists_code h
  refine ⟨p, c, hp, hc, fun hbare => ?_⟩
  have hpush := (Engine.unfold_pushesFit _ _ _ _ _ _).gives p.macros.fresh c _ trivial (Prod.ext hc rfl)
  constructor
  case whole => exact Leaves.size_le_linked options.start p.tables c more
  case visits =>
    have hscan := Leaves.scan_bytes hpush hbare (labelOffset? (Leaves.tableOffsets options.start p.tables c.leaves))
      options.start c.laid
    rw [c.size_leaves, Nat.zero_add, ← Leaves.take_linked options.start p.tables c more] at hscan
    exact hscan
  case label =>
    intro d hd
    obtain ⟨⟨label, k⟩, hk, rfl⟩ := List.mem_map.1 (Report.mem_labels_ofLinked.1 hd)
    obtain ⟨x, hx, hl, rfl⟩ := mem_defs.1 ((lastOnly_sublist _).subset hk)
    exact ⟨x, hx, hl, rfl, Leaves.jumpDest_linked options.start p.tables more hx hl⟩
  case reference =>
    intro x hx label hl
    obtain ⟨o, ho⟩ := Leaves.exists_target hopen hx hl
    obtain ⟨y, hy, hdef, rfl⟩ := Placed.exists_labelDef_of_target? hx hl ho
    obtain ⟨hpush2, hword⟩ := Leaves.labelRef_linked options.start p.tables more hx hl ho (hfit x hx _ ho)
    refine ⟨y, hy, hdef, Leaves.jumpDest_linked options.start p.tables more hy hdef, hpush2, hword, ?_⟩
    rw [Report.mem_labels_ofLinked]
    exact Leaves.mem_labels_or c.laid options.start hy hdef
  case ascending =>
    intro hwords
    exact Report.ascending_mergeSort (Leaves.nodup_labels options.start hwords)

/-! ## a program with jump destinations in its data -/

namespace Sample

/-- `M` and the macro in it define one label, whose second definition counts; a push and a table hold the byte of a jump
destination. -/
def hops : Sources := [⟨"hops".toList, "table T\x7b0x5b\x7d\n".toList ++
  "#define macro L=takes(0)returns(0)\x7bl:0x5b jumpdest l jump\x7d\n".toList ++
  "#define macro M=takes(0)returns(0)\x7bl:L()l jumpi __tablestart(T)\x7d".toList⟩]

/-- The operations of `M`. -/
def hopLeaves : List Leaf :=
  [.labelDef "l".toList, .labelDef "l".toList, .push 0x60 [0x5b], .opcode 0x5b, .labelRef "l".toList, .opcode 0x56,
    .labelRef "l".toList, .opcode 0x57, .tableRef "T".toList]

end Sample

/-- The machine comes to the ten places between the operations of `M`, and jumps to the second. -/
theorem ofSources_decodes_hops :
    ∃ r p c, Report.ofSources {} "M".toList Sample.hops [] = .ok r ∧ r.labels = [("l".toList, 1)] ∧
      Program.read Sample.hops = .ok p ∧
      ((Engine.unfold {} 256 [] "M".toList [] none).runOn p.macros.fresh).1 = .ok c ∧
      c.leaves.map Placed.leaf = Sample.hopLeaves ∧ r.Decodes c ∧
      Opcode.scan 0 (r.bytes.take c.size) = [0, 1, 2, 4, 5, 8, 9, 12, 13, 16] := by
  have hreport : (Report.ofSources {} "M".toList Sample.hops []).toOption.map Report.labels =
      some [("l".toList, 1)] := by
    decide +kernel
  have hcode : (Program.read Sample.hops).toOption.bind (fun p =>
      ((Engine.unfold {} 256 [] "M".toList [] none).runOn p.macros.fresh).1.toOption.map fun c =>
        (c.leaves.map fun x => (x.leaf, x.offset), c.size)) =
      some (Sample.hopLeaves.zip [0, 1, 2, 4, 5, 8, 9, 12, 13], 16) := by
    decide +kernel
  obtain ⟨r, hr, hlabels⟩ := exists_ok_of_map hreport
  obtain ⟨p, c, hp, hc, hdecodes⟩ := ofSources_decodes hr
  have hc' : ((Engine.unfold {} 256 [] "M".toList [] none).runOn p.macros.fresh).1 = .ok c := hc
  rw [hp] at hcode
  change (Except.toOption ((Engine.unfold {} 256 [] "M".toList [] none).runOn p.macros.fresh).1).map _ = _ at hcode
  rw [hc'] at hcode
  obtain ⟨hplaced, hsize⟩ := Prod.mk.inj (Option.some.inj hcode)
  have hleaves : c.leaves.map Placed.leaf = Sample.hopLeaves := by
    have hfst := congrArg (List.map Prod.fst) hplaced
    rwa [List.map_map] at hfst
  have hoffsets : c.leaves.map Placed.offset = [0, 1, 2, 4, 5, 8, 9, 12, 13] := by
    have hsnd := congrArg (List.map Prod.snd) hplaced
    rwa [List.map_map] at hsnd
  have hdec : r.Decodes c := hdecodes fun x hx byte hl => by
    have hmem : x.leaf ∈ Sample.hopLeaves := hleaves ▸ List.mem_map_of_mem hx
    rw [hl] at hmem
    have hbyte : byte = 0x5b ∨ byte = 0x56 ∨ byte = 0x57 := by simpa [Sample.hopLeaves] using hmem
    rcases hbyte with rfl | rfl | rfl <;> rfl
  refine ⟨r, p, c, hr, hlabels, hp, hc', hleaves, hdec, ?_⟩
  rw [hdec.visits, hoffsets, hsize]
  rfl

namespace Sample

/-- `M` has the macro `L` twice, which defines a label and jumps to it. -/
def again : Sources := [⟨"again".toList, "#define macro L=takes(0)returns(0)\x7bl:l jump\x7d\n".toList ++
  "#define macro M=takes(0)returns(0)\x7bL()L()\x7d".toList⟩]

/-- The operations of `M`. -/
def againLeaves : List Leaf :=
  [.labelDef "l".toList, .labelRef "l".toList, .opcode 0x56, .labelDef "l".toList, .labelRef "l".toList, .opcode 0x56]

end Sample

/-- The first reference in `M` leads to the first of two definitions, and only the second is a label of the report. -/
theorem reference_to_redefined_label :
    ∃ r p c, Report.ofSources {} "M".toList Sample.again [] = .ok r ∧ Program.read Sample.again = .ok p ∧
      ((Engine.unfold {} 256 [] "M".toList [] none).runOn p.macros.fresh).1 = .ok c ∧
      c.leaves.map Placed.leaf = Sample.againLeaves ∧ r.labels = [("l".toList, 5)] ∧
      ∃ x ∈ c.leaves, x.leaf = .labelRef "l".toList ∧ r.bytes[x.offset]? = some Opcode.push2 ∧
        ∀ d ∈ r.labels, Bytes.word? r.bytes (x.offset + 1) ≠ some d.2.toNat := by
  have hreport : (Report.ofSources {} "M".toList Sample.again []).toOption.map (fun r => (r.bytes, r.labels)) =
      some ([0x5b, 0x61, 0, 0, 0x56, 0x5b, 0x61, 0, 5, 0x56], [("l".toList, 5)]) := by
    decide +kernel
  have hcode : (Program.read Sample.again).toOption.map (fun p =>
      ((Engine.unfold {} 256 [] "M".toList [] none).runOn p.macros.fresh).1.toOption.map fun c =>
        c.leaves.map fun x => (x.leaf, x.offset)) = some (some (Sample.againLeaves.zip [0, 1, 4, 5, 6, 9])) := by
    decide +kernel
  obtain ⟨r, hr, hseen⟩ := exists_ok_of_map hreport
  obtain ⟨hbytes, hlabels⟩ := Prod.mk.inj hseen
  obtain ⟨p, hp, hcode⟩ := exists_ok_of_map hcode
  obtain ⟨c, hc, hplaced⟩ := exists_ok_of_map hcode
  have hleaves : c.leaves.map Placed.leaf = Sample.againLeaves := by
    have hfst := congrArg (List.map Prod.fst) hplaced
    rwa [List.map_map] at hfst
  have hsecond : (Leaf.labelRef "l".toList, 1) ∈ c.leaves.map fun x => (x.leaf, x.offset) := by
    rw [hplaced]
    decide
  obtain ⟨x, hx, hplace⟩ := List.mem_map.1 hsecond
  obtain ⟨hleaf, hoffset⟩ := Prod.mk.inj hplace
  refine ⟨r, p, c, hr, hp, hc, hleaves, hlabels, x, hx, hleaf, by rw [hbytes, hoffset]; rfl, ?_⟩
  rw [hbytes, hlabels, hoffset]
  decide

end MacroAsm
