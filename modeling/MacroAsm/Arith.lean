import MacroAsm.Numeral
import MacroAsm.Text.Bracket

/-!
# Arithmetic in template arguments

* `Sign`, `Sign.apply`: subtraction, addition and multiplication of machine words;
* `Arith`: an expression; `Arith.read t` is the expression that a text without blanks spells: differences of sums of
  products, each grouped to the left, so that `a-b+c` is `a-(b+c)` and `a-b-c` is `(a-b)-c`;
* `Arith.eval`: the value of an expression, from left to right, given the values of its atoms.
-/

namespace MacroAsm

/-- An operator, from the loosest to the tightest. -/
inductive Sign where
  | minus
  | plus
  | times
  deriving DecidableEq

namespace Sign

def char : Sign → Char
  | minus => '-'
  | plus => '+'
  | times => '*'

/-- The operators from the loosest to the tightest. -/
def all : List Sign := [minus, plus, times]

/-- The operation on words; a difference below zero wraps around. -/
def apply : Sign → Nat → Nat → Nat
  | minus, a, b => Word.wrap (a + Word.modulus - b)
  | plus, a, b => Word.wrap (a + b)
  | times, a, b => Word.wrap (a * b)

end Sign

/-- An expression. An atom is whatever holds no operator outside brackets; it may be no numeral and no name. -/
inductive Arith where
  | atom (t : Text)
  | op (sign : Sign) (left right : Arith)
  deriving DecidableEq

/-- An operator stands outside brackets. -/
def Text.hasOperator (t : Text) : Bool := Sign.all.any fun s => 1 < (Text.splitOutside s.char t).length

namespace Arith

/-- Operands with one operator between neighbours, grouped to the left. -/
def chain (s : Sign) : List Arith → Arith
  | [] => .atom []
  | a :: as => as.foldl (.op s) a

/-- The expression that a text without blanks spells. A group in brackets stands for its inside. -/
def read (t : Text) : Arith :=
  chain .minus <| (Text.splitOutside '-' t).attach.map fun ⟨sum, _⟩ =>
    chain .plus <| (Text.splitOutside '+' sum).attach.map fun ⟨product, _⟩ =>
      chain .times <| (Text.splitOutside '*' product).attach.map fun ⟨operand, _⟩ =>
        match _h : Text.unbracket? operand with
        | some inner => read inner
        | none => .atom operand
termination_by t.length
decreasing_by
  have h₁ := Text.length_le_of_mem_splitOutside ‹sum ∈ _›
  have h₂ := Text.length_le_of_mem_splitOutside ‹product ∈ _›
  have h₃ := Text.length_le_of_mem_splitOutside ‹operand ∈ _›
  have h₄ := Text.length_of_unbracket? _h
  omega

theorem read_eq (t : Text) :
    read t = chain .minus ((Text.splitOutside '-' t).map fun sum =>
      chain .plus ((Text.splitOutside '+' sum).map fun product =>
        chain .times ((Text.splitOutside '*' product).map fun operand =>
          match Text.unbracket? operand with
          | some inner => read inner
          | none => .atom operand))) := by
  rw [read]
  simp only [List.map_attach_eq_pmap, List.pmap_eq_map]
  congr 1
  refine List.map_congr_left fun sum _ => ?_
  congr 1
  refine List.map_congr_left fun product _ => ?_
  congr 1
  refine List.map_congr_left fun operand _ => ?_
  split <;> simp_all

/-- The value of an expression, the left operand first. -/
def eval {m : Type → Type} [Monad m] (value : Text → m Nat) : Arith → m Nat
  | .atom t => value t
  | .op s l r => do
    let a ← eval value l
    let b ← eval value r
    return s.apply a b

end Arith
end MacroAsm
