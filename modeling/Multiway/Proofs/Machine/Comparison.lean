import Multiway.Machine.FlagTest
import Mathlib.Tactic.Common

/-!
# Conditions and the flags of a difference

A comparison leaves the flags of a difference behind, and a branch tests them. The test that is
named after a condition passes exactly if the condition holds between the two operands. This is
plain for the unsigned conditions, which read the borrow. The signed ones need the overflow flag
where the difference is not the difference of the signed operands.
-/
namespace Multiway

namespace Flags

variable {w : ℕ} (x y : BitVec w)

@[simp] theorem zero_ofDifference : (ofDifference x y).zero = (x == y) := by
  rw [Bool.eq_iff_iff]
  simp [ofDifference, BitVec.sub_eq_iff_eq_add]

@[simp] theorem carry_ofDifference : (ofDifference x y).carry = x.ult y := rfl

/-- Sign and overflow of the difference differ exactly if the first operand is the smaller one. -/
theorem negative_ne_overflow_ofDifference :
    ((ofDifference x y).negative != (ofDifference x y).overflow) = x.slt y := by
  simp only [ofDifference]
  by_cases overflow : BitVec.ssubOverflow x y = true
  · rw [BitVec.ssubOverflow_eq] at overflow
    simp only [Bool.or_eq_true, Bool.and_eq_true, Bool.not_eq_true'] at overflow
    rw [BitVec.ssubOverflow_eq, BitVec.slt_eq_decide]
    -- operands of different signs, and a difference with the sign of the second one
    obtain ⟨⟨hx, hy⟩, hd⟩ | ⟨⟨hx, hy⟩, hd⟩ := overflow
    · have nonneg := BitVec.toInt_nonneg_of_msb_false hx
      have neg := BitVec.toInt_neg_of_msb_true hy
      simp [hx, hy, hd]
      omega
    · have neg := BitVec.toInt_neg_of_msb_true hx
      have nonneg := BitVec.toInt_nonneg_of_msb_false hy
      simp [hx, hy, hd]
      omega
  · have exact_sub :=
      BitVec.toInt_sub_of_not_ssubOverflow (x := x) (y := y) (by simpa using overflow)
    rw [Bool.eq_false_iff.2 overflow, BitVec.msb_eq_toInt, exact_sub, BitVec.slt_eq_decide,
      Bool.bne_false, decide_eq_decide]
    omega

end Flags

/-- Unsigned order, as the borrow and the zero flag tell it. -/
theorem ule_eq_ult_or_beq {w : ℕ} (x y : BitVec w) : x.ule y = (x.ult y || x == y) := by
  rw [Bool.eq_iff_iff]
  simp only [BitVec.ule_eq_decide, BitVec.ult_eq_decide, Bool.or_eq_true, decide_eq_true_eq,
    beq_iff_eq, BitVec.toNat_eq]
  omega

/-- The test named after a condition decides it from the flags of the difference. -/
theorem Condition.passes_ofDifference {w : ℕ} (c : Condition) (x y : BitVec w) :
    c.flagTest.passes (Flags.ofDifference x y) = c.holds x y := by
  have signed := Flags.negative_ne_overflow_ofDifference x y
  cases c <;> simp only [flagTest, FlagTest.passes, holds, signed, Flags.zero_ofDifference,
    Flags.carry_ofDifference]
  case notEqual => rfl
  case lessEqual => rw [BitVec.sle_eq_slt_or_eq, Bool.or_comm]
  case greater => rw [Bool.or_comm, ← BitVec.sle_eq_slt_or_eq, BitVec.sle_eq_not_slt, Bool.not_not]
  case greaterEqual => rw [BitVec.sle_eq_not_slt]
  case belowEqual => rw [ule_eq_ult_or_beq]
  case above => rw [← ule_eq_ult_or_beq, BitVec.ule_eq_not_ult, Bool.not_not]
  case aboveEqual => rw [BitVec.ule_eq_not_ult]

end Multiway
