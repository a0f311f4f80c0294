/-!
# Numbers of fixed width

Unsigned numbers of a fixed number of bits are residues. The modulus is computed by a shift.
-/
namespace Multiway

/-- The number of values of `bits` bits. -/
def modulus (bits : Nat) : Nat := 1 <<< bits

theorem modulus_eq (bits : Nat) : modulus bits = Nat.pow 2 bits := Nat.one_shiftLeft bits

theorem modulus_pos (bits : Nat) : 0 < modulus bits := by
  rw [modulus_eq]
  exact Nat.two_pow_pos bits

theorem modulus_succ (bits : Nat) : modulus (bits + 1) = 2 * modulus bits := by
  rw [modulus_eq, modulus_eq]
  exact Nat.pow_succ'

theorem modulus_add (m n : Nat) : modulus (m + n) = modulus m * modulus n := by
  rw [modulus_eq, modulus_eq, modulus_eq]
  exact Nat.pow_add 2 m n

theorem modulus_le {m n : Nat} (h : m ≤ n) : modulus m ≤ modulus n := by
  rw [modulus_eq, modulus_eq]
  exact Nat.pow_le_pow_right (by decide) h

end Multiway
