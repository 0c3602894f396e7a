import MacroAsm.Numeral

/-!
# Absolute offsets

* `Address`: an absolute offset, a word of 64 bits;
* `a + k`: the offset `k` bytes behind `a`; the one behind the greatest is zero;
* `Address.toNat_add_of_lt`: as long as the words suffice, this is the sum of numbers.
-/

namespace MacroAsm

/-- An absolute offset. -/
structure Address where
  word : UInt64
  deriving DecidableEq

namespace Address

/-- The offset as a number. -/
def toNat (a : Address) : Nat := a.word.toNat

/-- The offset of a number, which counts from zero again where the words end. -/
def ofNat (n : Nat) : Address := ⟨UInt64.ofNat n⟩

instance (n : Nat) : OfNat Address n := ⟨ofNat n⟩

/-- The offset some bytes further on. -/
protected def add (a : Address) (k : Nat) : Address := ⟨a.word + UInt64.ofNat k⟩

instance : HAdd Address Nat Address := ⟨Address.add⟩

@[ext] theorem ext {a b : Address} (h : a.toNat = b.toNat) : a = b := by
  cases a; cases b
  exact congrArg mk (UInt64.toNat_inj.1 h)

theorem toNat_lt (a : Address) : a.toNat < Numeral.countLimit := a.word.toNat_lt

theorem toNat_ofNat (n : Nat) : (ofNat n).toNat = n % Numeral.countLimit := UInt64.toNat_ofNat'

theorem toNat_add (a : Address) (k : Nat) : (a + k).toNat = (a.toNat + k) % Numeral.countLimit := by
  refine (UInt64.toNat_add _ _).trans ?_
  rw [UInt64.toNat_ofNat', Nat.add_mod_mod]
  rfl

theorem toNat_add_of_lt {a : Address} {k : Nat} (h : a.toNat + k < Numeral.countLimit) :
    (a + k).toNat = a.toNat + k := by
  rw [toNat_add, Nat.mod_eq_of_lt h]

/-- A sum that runs over the end of the words lies before. -/
theorem toNat_add_lt {a : Address} {k : Nat} (hk : k < Numeral.countLimit)
    (h : Numeral.countLimit ≤ a.toNat + k) : (a + k).toNat < a.toNat := by
  have ha := a.toNat_lt
  rw [toNat_add]
  rw [Numeral.countLimit_eq] at *
  omega

@[simp] theorem ofNat_toNat (a : Address) : ofNat a.toNat = a :=
  ext (by rw [toNat_ofNat, Nat.mod_eq_of_lt a.toNat_lt])

@[simp] theorem add_zero (a : Address) : a + (0 : Nat) = a :=
  ext (by rw [toNat_add, Nat.add_zero, Nat.mod_eq_of_lt a.toNat_lt])

@[simp] theorem add_add (a : Address) (j k : Nat) : a + j + k = a + (j + k) :=
  ext (by rw [toNat_add, toNat_add, toNat_add, Nat.mod_add_mod, Nat.add_assoc])

/-- The offsets behind one differ as long as the words suffice. -/
theorem add_left_cancel {a : Address} {j k : Nat} (hj : j < Numeral.countLimit) (hk : k < Numeral.countLimit)
    (h : a + j = a + k) : j = k := by
  have ha := a.toNat_lt
  have hnat := congrArg toNat h
  rw [toNat_add, toNat_add] at hnat
  rw [Numeral.countLimit_eq] at ha hj hk hnat
  omega

@[simp] theorem zero_add (k : Nat) : (0 : Address) + k = ofNat k :=
  ext (by rw [toNat_add, toNat_ofNat]; exact congrArg (· % _) (Nat.zero_add k))

end Address
end MacroAsm
