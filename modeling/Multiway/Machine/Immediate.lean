import Multiway.Number.Modulus

/-!
# Signed immediate fields

An immediate operand is stored in two's complement in a field of fixed width. A value fits the
field exactly when reading the field back gives the value.
-/
namespace Multiway

/-- `v` lies in the range of a two's complement field of `bits` bits. -/
def FitsSigned (bits : Nat) (v : Int) : Prop :=
  -(modulus (bits - 1) : Int) ≤ v ∧ v < modulus (bits - 1)

instance (bits : Nat) (v : Int) : Decidable (FitsSigned bits v) :=
  inferInstanceAs (Decidable (_ ∧ _))

theorem fitsSigned_succ {n : Nat} {v : Int} :
    FitsSigned (n + 1) v ↔ -(modulus n : Int) ≤ v ∧ v < modulus n := Iff.rfl

/-- A field of positive width holds each value that fits it without loss. -/
theorem FitsSigned.toInt_ofInt {n : Nat} {v : Int} (h : FitsSigned (n + 1) v) :
    (BitVec.ofInt (n + 1) v).toInt = v := by
  obtain ⟨lower, upper⟩ := fitsSigned_succ.1 h
  rw [BitVec.toInt_ofInt]
  show v.bmod (Nat.pow 2 (n + 1)) = v
  rw [← modulus_eq, modulus_succ]
  apply Int.bmod_eq_of_le <;> omega

/-- Widening the field keeps what fits. -/
theorem FitsSigned.mono {m n : Nat} {v : Int} (h : FitsSigned m v) (hmn : m ≤ n) :
    FitsSigned n v := by
  have le : modulus (m - 1) ≤ modulus (n - 1) := modulus_le (by omega)
  obtain ⟨lower, upper⟩ := h
  exact ⟨by omega, by omega⟩

end Multiway
