import MacroAsm.Proofs.CodeSize

/-!
# The labels of a body

The body of a macro may define a label that the macros called in it define as well. References in the body stand for
the last of these definitions: the body's own, unless a call or a template argument behind it defines the label again.

* `Code.place codes k`: where the code with the number `k` begins; `Code.mem_defs_chain`: labels of codes in a row;
* `Code.DefinesLast c label r`: the last definition of a label in a code; `Code.DefinesLast.chain`: in a row of codes;
* `Expansion.LeadsTo`: where a label reference leads;
* `expand_own_labels`: where those in the body of a macro lead.
-/

namespace MacroAsm

namespace Code

/-! ## codes in a row -/

/-- How many bytes stand before the code with the number `k`. -/
def place : List Code → Nat → Nat
  | [], _ => 0
  | _ :: _, 0 => 0
  | c :: codes, k + 1 => c.size + place codes k

lemma place_zero (codes : List Code) : place codes 0 = 0 := by
  cases codes <;> rfl

/-- A code ends before a later one begins. -/
lemma place_add_size_le {codes : List Code} {k k' : Nat} (hlt : k < k') {c : Code} (hc : codes[k]? = some c) :
    place codes k + c.size ≤ place codes k' := by
  induction codes generalizing k k' with
  | nil => cases hc
  | cons first codes ih =>
    obtain ⟨k', rfl⟩ : ∃ n, k' = n + 1 := ⟨k' - 1, by omega⟩
    cases k with
    | zero =>
      cases hc
      rw [place_zero, place]
      omega
    | succ k =>
      have hrest := ih (Nat.lt_of_succ_lt_succ hlt) hc
      rw [place, place]
      omega

/-- The labels of codes in a row. -/
theorem mem_defs_chain {codes : List Code} {label : Text} {o : Nat} :
    (label, o) ∈ (chain codes).defs ↔
      ∃ k c r, codes[k]? = some c ∧ (label, r) ∈ c.defs ∧ o = place codes k + r := by
  induction codes generalizing o with
  | nil =>
    constructor
    · intro h
      cases h
    · rintro ⟨k, c, r, hc, -⟩
      cases hc
  | cons first codes ih =>
    rw [chain, defs_seq, List.mem_append, List.mem_map]
    constructor
    · rintro (h | ⟨⟨label', o'⟩, hrest, heq⟩)
      · exact ⟨0, first, o, rfl, h, by rw [place_zero, Nat.zero_add]⟩
      · obtain ⟨rfl, rfl⟩ := Prod.mk.inj heq
        obtain ⟨k, c, r, hc, hr, rfl⟩ := ih.1 hrest
        exact ⟨k + 1, c, r, hc, hr, by rw [place, Nat.add_assoc]⟩
    · rintro ⟨k, c, r, hc, hr, rfl⟩
      cases k with
      | zero =>
        cases hc
        rw [place_zero, Nat.zero_add]
        exact Or.inl hr
      | succ k => exact Or.inr ⟨_, ih.2 ⟨k, c, r, hc, hr, rfl⟩, by rw [place, Nat.add_assoc]⟩

/-- A leaf in a row of codes. -/
lemma mem_leaves_chain {codes : List Code} {k : Nat} {l : Leaf} {o : Origin} (h : codes[k]? = some (.leaf l o)) :
    ⟨l, o, place codes k, []⟩ ∈ (chain codes).leaves := by
  induction codes generalizing k with
  | nil => cases h
  | cons first codes ih =>
    rw [chain, leaves]
    cases k with
    | zero =>
      cases h
      exact List.mem_append_left _ (List.mem_singleton_self _)
    | succ k => exact List.mem_append_right _ (List.mem_map_of_mem (ih h))

/-- A label is defined at `r`, and nowhere behind. -/
def DefinesLast (c : Code) (label : Text) (r : Nat) : Prop :=
  (label, r) ∈ c.defs ∧ ∀ r', (label, r') ∈ c.defs → r' ≤ r

lemma definesLast_leaf (label : Text) (o : Origin) : (leaf (.labelDef label) o).DefinesLast label 0 := by
  refine ⟨List.mem_singleton_self _, fun r' hr' => ?_⟩
  obtain ⟨-, rfl⟩ := Prod.mk.inj (List.mem_singleton.1 hr')
  exact Nat.le_refl _

/-- **Of codes in a row, the last that defines a label decides.** -/
theorem DefinesLast.chain {codes : List Code} {k : Nat} {c : Code} (hc : codes[k]? = some c) {label : Text} {r : Nat}
    (h : c.DefinesLast label r)
    (hbehind : ∀ k' c', k < k' → codes[k']? = some c' → ∀ r', (label, r') ∉ c'.defs) :
    (chain codes).DefinesLast label (place codes k + r) := by
  refine ⟨mem_defs_chain.2 ⟨k, c, r, hc, h.1, rfl⟩, fun o ho => ?_⟩
  obtain ⟨k', c', r', hc', hr', rfl⟩ := mem_defs_chain.1 ho
  rcases Nat.lt_trichotomy k' k with hlt | rfl | hgt
  · have hend := place_add_size_le hlt hc'
    have hin := defs_lt hr'
    omega
  · rw [hc] at hc'
    cases hc'
    exact Nat.add_le_add_left (h.2 r' hr') _
  · exact absurd hr' (hbehind k' c' hgt hc' r')

end Code

/-! ## references in a body -/

/-- In an expansion at `start`, the label reference at `p` leads to the byte at `o`, a jump destination: its operand is
the sum of the two, as a word. -/
structure Expansion.LeadsTo (start : Address) (e : Expansion) (p o : Nat) : Prop where
  destination : e.bytes[o]? = some Opcode.jumpDest
  fits : (start + o).toNat ≤ maxOffset
  operand : (e.bytes.drop p).take 3 = Opcode.push2 :: Bytes.ofOffset (start + o).toNat

/-- **A reference in a body leads to the last definition of its label there**, in whatever frame that is. -/
theorem Code.leadsTo_of_definesLast {codes : List Code} {start : Address}
    (hfit : Leaves.Fits start (frame (chain codes)).leaves) {j : Nat} {label : Text} {origin : Origin}
    (hj : codes[j]? = some (.leaf (.labelRef label) origin)) {o : Nat} (ho : (chain codes).DefinesLast label o) :
    (Leaves.expansion start (frame (chain codes)).leaves).LeadsTo start (place codes j) o := by
  have hresolved := labelsResolved_expansion hfit
  rw [DefinesLast, ← defs_frame] at ho
  have hp : (⟨.labelRef label, origin, place codes j, [⟨0, chain codes⟩]⟩ : Placed) ∈ (frame (chain codes)).leaves :=
    List.mem_map_of_mem (mem_leaves_chain hj)
  -- the frame of the body is the only one around the reference, so its last definition decides
  have hin : ∀ r, (label, r) ∈ (frame (chain codes)).defs →
      (Region.mk 0 (chain codes)).Defines (frame (chain codes)) label r :=
    fun r hr => ⟨hr, Nat.zero_le r, by simpa [Code.size] using defs_lt hr⟩
  obtain ⟨o', ⟨ho', hmax⟩, hfits, hbytes, -⟩ :=
    hresolved.innermost _ hp label rfl [] _ [] rfl (fun g hg => absurd hg List.not_mem_nil) ⟨o, hin o ho.1⟩
  obtain rfl : o = o' := Nat.le_antisymm (hmax o (hin o ho.1)) (ho.2 o' ho'.1)
  exact ⟨hresolved.jumpDest _ ho.1, hfits, hbytes⟩

namespace Flatten

variable {known : Store} {inner : Inner} {b : Bindings} {o : Address} {op : Op} {c : Code}

/-- An operation that neither calls a macro nor stands for a template argument is a leaf. -/
lemma opCode_leaf (hcall : ∀ callee args, op.kind ≠ .call callee args) (htemplate : ∀ text, op.kind ≠ .template text)
    (h : opCode known inner b o op = .ok c) : ∃ l, op.kind.Emits l ∧ c = .leaf l op.origin := by
  cases hop : op.kind with
  | push byte data => exact ⟨_, rfl, (opCode_push hop h).2⟩
  | codeSize callee args =>
    obtain ⟨d, byte, -, hbyte, hc⟩ := opCode_codeSize hop h
    exact ⟨_, ⟨_, byte, hbyte, rfl⟩, hc⟩
  | call callee args => exact absurd hop (hcall callee args)
  | template text => exact absurd hop (htemplate text)
  | opcode byte | labelDef label | labelRef label | tableStart table =>
    unfold opCode at h
    rw [hop] at h
    exact ⟨_, rfl, (Except.ok.inj h).symm⟩

lemma opCode_labelDef {label : Text} (hop : op.kind = .labelDef label) (h : opCode known inner b o op = .ok c) :
    c = .leaf (.labelDef label) op.origin := by
  obtain ⟨l, hl, rfl⟩ := opCode_leaf (by simp [hop]) (by simp [hop]) h
  rw [hop] at hl
  exact congrArg (Code.leaf · op.origin) hl

lemma opCode_labelRef {label : Text} (hop : op.kind = .labelRef label) (h : opCode known inner b o op = .ok c) :
    c = .leaf (.labelRef label) op.origin := by
  obtain ⟨l, hl, rfl⟩ := opCode_leaf (by simp [hop]) (by simp [hop]) h
  rw [hop] at hl
  exact congrArg (Code.leaf · op.origin) hl

/-- Where the labels of an operation come from. -/
lemma opCode_defs (h : opCode known inner b o op = .ok c) {d : Text × Nat} (hd : d ∈ c.defs) :
    op.kind = .labelDef d.1 ∨ (∃ callee args, op.kind = .call callee args) ∨ ∃ text, op.kind = .template text := by
  by_cases hcall : ∃ callee args, op.kind = .call callee args
  · exact Or.inr (Or.inl hcall)
  by_cases htemplate : ∃ text, op.kind = .template text
  · exact Or.inr (Or.inr htemplate)
  obtain ⟨l, hemits, rfl⟩ := opCode_leaf (fun callee args hop => hcall ⟨callee, args, hop⟩)
    (fun text hop => htemplate ⟨text, hop⟩) h
  obtain ⟨p, hp, hleaf, -⟩ := mem_defs.1 hd
  rw [List.mem_singleton.1 hp] at hleaf
  obtain rfl : l = .labelDef d.1 := hleaf
  left
  cases hop : op.kind with
  | labelDef label =>
    rw [hop] at hemits
    rw [Leaf.labelDef.inj hemits]
  | template text => exact absurd ⟨text, hop⟩ htemplate
  | codeSize callee args =>
    rw [hop] at hemits
    obtain ⟨n, byte, -, hpush⟩ := hemits
    cases hpush
  | opcode _ | push _ _ | labelRef _ | tableStart _ | call _ _ =>
    rw [hop] at hemits
    cases hemits

/-- The code of a macro is a frame with a code for each operation of its body. -/
lemma exists_codes {limits : Limits} {budget : Nat} {active : List Frame} {name : Text} {args : List Text}
    {site : Option Origin} {start : Address}
    (h : code known limits budget active (.named name args site) start = .ok c) :
    ∃ m codes inner b, known.find? name = some m ∧ c = .frame (.chain codes) ∧
      List.Forall₂ (fun op c => ∃ o, opCode known inner b o op = .ok c) m.ops codes := by
  cases budget with
  | zero => exact absurd h code_zero_ne_ok
  | succ budget =>
    obtain ⟨opened, body, ho, hbody, rfl, -⟩ := code_succ_eq_ok_iff.1 h
    obtain ⟨m, hm, -, -, rfl⟩ := opened_named_eq_ok_iff.1 ho
    obtain ⟨codes, rfl, hcodes⟩ := opsCode_eq_chain hbody
    exact ⟨m, codes, _, _, hm, rfl, hcodes⟩

end Flatten

/-- Where the label references in the body of a macro lead, in an expansion at `start` in which the operations of the
body have the codes `codes`. -/
structure OwnLabels (start : Address) (ops : List Op) (codes : List Code) (e : Expansion) : Prop where
  each : codes.length = ops.length
  /-- labels are defined by the body itself, by calls, and by template arguments -/
  source : ∀ (k : Nat) (op : Op) (c : Code), ops[k]? = some op → codes[k]? = some c → ∀ d ∈ c.defs,
    op.kind = .labelDef d.1 ∨ (∃ callee args, op.kind = .call callee args) ∨ ∃ text, op.kind = .template text
  /-- a label of the body is what the references in the body stand for, if nothing behind it defines the label again,
  whatever stands before it -/
  own : ∀ (i j : Nat) (op op' : Op) (label : Text), ops[i]? = some op → op.kind = .labelDef label →
    ops[j]? = some op' → op'.kind = .labelRef label →
    (∀ k c, i < k → codes[k]? = some c → ∀ r, (label, r) ∉ c.defs) →
    e.LeadsTo start (Code.place codes j) (Code.place codes i)
  /-- in any case the last definition in the body counts, be it inside a call or a template argument -/
  last : ∀ (j k : Nat) (op : Op) (label : Text) (c : Code) (r : Nat), ops[j]? = some op → op.kind = .labelRef label →
    codes[k]? = some c → c.DefinesLast label r →
    (∀ k' c', k < k' → codes[k']? = some c' → ∀ r', (label, r') ∉ c'.defs) →
    e.LeadsTo start (Code.place codes j) (Code.place codes k + r)

/-- **A label of a body wins over those before it, and loses to those behind it.** Whatever a macro expands to, the
references in its own body to a label that the body defines lead to that definition, if no call and no template argument
behind it defines the label again; otherwise to the last of these definitions. -/
theorem expand_own_labels {t : MacroTable} {s s' : Store} (hs : t.fresh.Reaches s) {limits : Limits} {budget : Nat}
    {active : List Frame} (hactive : ∀ f ∈ active, s.contains f.name.toList = true) {q : Request} {e : Expansion}
    (h : (Engine.expand limits budget active q).runOn s = (.ok e, s')) :
    ∃ m codes, s'.find? q.name = some m ∧
      Flatten.code s' limits budget active (.named q.name q.args q.site) q.start = .ok (.frame (.chain codes)) ∧
      OwnLabels q.start m.ops codes e := by
  obtain ⟨c, hc, rfl, hfit⟩ := Engine.expand_flattens ((Store.numbered_declared t).reaches hs) hactive h
  obtain ⟨m, codes, inner, b, hm, rfl, hcodes⟩ := Flatten.exists_codes hc
  have hleads : ∀ {j : Nat} {op : Op} {label : Text} {o : Nat}, m.ops[j]? = some op → op.kind = .labelRef label →
      (Code.chain codes).DefinesLast label o →
      (Leaves.expansion q.start (Code.frame (.chain codes)).leaves).LeadsTo q.start (Code.place codes j) o := by
    intro j op label o hj hop hlast
    obtain ⟨c, hcj, _, hc⟩ := exists_of_forall₂ hcodes hj
    rw [Flatten.opCode_labelRef hop hc] at hcj
    exact Code.leadsTo_of_definesLast hfit hcj hlast
  refine ⟨m, codes, hm, hc, hcodes.length_eq.symm, ?_, ?_, ?_⟩
  · intro k op c hk hck d hd
    obtain ⟨c', hck', _, hc'⟩ := exists_of_forall₂ hcodes hk
    obtain rfl : c = c' := Option.some.inj (hck.symm.trans hck')
    exact Flatten.opCode_defs hc' hd
  · intro i j op op' label hi hop hj hop' hbehind
    obtain ⟨c, hci, _, hc⟩ := exists_of_forall₂ hcodes hi
    rw [Flatten.opCode_labelDef hop hc] at hci
    exact hleads hj hop' ((Code.definesLast_leaf label op.origin).chain hci hbehind)
  · intro j k op label c r hj hop hk hlast hbehind
    exact hleads hj hop (hlast.chain hk hbehind)

/-! ## a label defined twice -/

namespace Sample

def sub : Macro := defn "SUB" [] [.labelDef target]

/-- A label of its own, and behind it a call that defines the label again. -/
def before : Macro := defn "BEFORE" [] [.labelDef target, .call sub.name [], .labelRef target]

/-- A label of its own behind such a call, with references on both sides. -/
def behind : Macro := defn "BEHIND" [] [.call sub.name [], .labelRef target, .labelDef target, .labelRef target]

def redefined : Store := MacroTable.fresh ⟨[sub, before, behind]⟩

/-- The codes of the operations of `before`. -/
def beforeCodes : List Code :=
  [.leaf (.labelDef target) origin, .frame (.chain [.leaf (.labelDef target) origin]), .leaf (.labelRef target) origin]

end Sample

/-- Both references in `BEHIND` lead to its own label, and not to that of `SUB` before it. -/
theorem expand_own_labels_behind :
    ∃ (e : Expansion) (s' : Store) (codes : List Code),
      (Engine.expand {} 2 [] ⟨"BEHIND".toList, 16, [], none⟩).runOn Sample.redefined = (.ok e, s') ∧
      e.bytes = [0x5b, 0x61, 0, 20, 0x5b, 0x61, 0, 20] ∧
      e.LeadsTo 16 (Code.place codes 1) (Code.place codes 2) ∧
      e.LeadsTo 16 (Code.place codes 3) (Code.place codes 2) := by
  have hrun : ((Engine.expand {} 2 [] ⟨"BEHIND".toList, 16, [], none⟩).runOn Sample.redefined).1.toOption.map
      Expansion.bytes = some [0x5b, 0x61, 0, 20, 0x5b, 0x61, 0, 20] := by
    decide +kernel
  obtain ⟨e, s', h, hbytes⟩ := Engine.exists_of_runOn hrun
  obtain ⟨m, codes, hm, -, hown⟩ := expand_own_labels .refl (fun f hf => absurd hf List.not_mem_nil) h
  have hfind : s'.find? "BEHIND".toList = some Sample.behind :=
    ((Engine.expand_grows _ _ _ _).of_runOn h).find?_eq_some (by decide)
  obtain rfl : Sample.behind = m := Option.some.inj (hfind.symm.trans hm)
  -- only a reference stands behind the label
  have hlast : ∀ k c, 2 < k → codes[k]? = some c → ∀ r, (Sample.target, r) ∉ c.defs := by
    intro k c hk hc r hr
    obtain ⟨hlt, -⟩ := List.getElem?_eq_some_iff.1 hc
    have hlength : codes.length = 4 := hown.each
    obtain rfl : k = 3 := by omega
    obtain hop | ⟨_, _, hop⟩ | ⟨_, hop⟩ := hown.source 3 _ c rfl hc _ hr <;> cases hop
  exact ⟨e, s', codes, h, hbytes, hown.own 2 1 _ _ _ rfl rfl rfl rfl hlast, hown.own 2 3 _ _ _ rfl rfl rfl rfl hlast⟩

/-- In `BEFORE`, which defines a label and refers to it, the reference leads to the label of `SUB` behind its own. -/
theorem own_label_loses_to_call :
    ∃ (e : Expansion) (s' : Store),
      (Engine.expand {} 2 [] ⟨"BEFORE".toList, 0, [], none⟩).runOn Sample.redefined = (.ok e, s') ∧
      s'.find? "BEFORE".toList = some Sample.before ∧
      Sample.before.ops[0]?.map Op.kind = some (.labelDef Sample.target) ∧
      Sample.before.ops[2]?.map Op.kind = some (.labelRef Sample.target) ∧
      Flatten.code s' {} 2 [] (.named "BEFORE".toList [] none) 0 = .ok (.frame (.chain Sample.beforeCodes)) ∧
      e.LeadsTo 0 (Code.place Sample.beforeCodes 2) (Code.place Sample.beforeCodes 1) ∧
      ¬ e.LeadsTo 0 (Code.place Sample.beforeCodes 2) (Code.place Sample.beforeCodes 0) := by
  have hrun : ((Engine.expand {} 2 [] ⟨"BEFORE".toList, 0, [], none⟩).runOn Sample.redefined).1.toOption.map
      Expansion.bytes = some [0x5b, 0x5b, 0x61, 0, 1] := by
    decide +kernel
  obtain ⟨e, s', h, hbytes⟩ := Engine.exists_of_runOn hrun
  have hstore : ((Engine.expand {} 2 [] ⟨"BEFORE".toList, 0, [], none⟩).runOn Sample.redefined).2 =
      Sample.redefined := by
    decide +kernel
  obtain rfl : s' = Sample.redefined := by
    rw [h] at hstore
    exact hstore
  refine ⟨e, _, h, by decide, rfl, rfl, eq_ok_of_toOption (by decide +kernel), ⟨?_, by decide, ?_⟩, fun hown => ?_⟩
  · rw [hbytes]
    rfl
  · rw [hbytes]
    rfl
  · have hoperand := hown.operand
    rw [hbytes] at hoperand
    revert hoperand
    decide

end MacroAsm
