/-!
# Comparison conditions

The ten orderings that a dispatch strategy may ask for, free of any machine encoding. Four of
them order the operands as signed integers, four as unsigned ones.
-/
namespace Multiway

/-- A comparison between the dispatched value and a key. -/
inductive Condition where
  | equal
  | notEqual
  | less
  | lessEqual
  | greater
  | greaterEqual
  | below
  | belowEqual
  | above
  | aboveEqual
  deriving DecidableEq, Repr

namespace Condition

/-- The condition that holds exactly when this one does not. -/
def negate : Condition → Condition
  | equal => notEqual
  | notEqual => equal
  | less => greaterEqual
  | lessEqual => greater
  | greater => lessEqual
  | greaterEqual => less
  | below => aboveEqual
  | belowEqual => above
  | above => belowEqual
  | aboveEqual => below

/-- Whether the condition holds between two words; `below` and `above` order them as unsigned. -/
def holds {w : Nat} : Condition → BitVec w → BitVec w → Bool
  | equal, x, y => x == y
  | notEqual, x, y => x != y
  | less, x, y => x.slt y
  | lessEqual, x, y => x.sle y
  | greater, x, y => y.slt x
  | greaterEqual, x, y => y.sle x
  | below, x, y => x.ult y
  | belowEqual, x, y => x.ule y
  | above, x, y => y.ult x
  | aboveEqual, x, y => y.ule x

@[simp] theorem negate_negate (c : Condition) : c.negate.negate = c := by cases c <;> rfl

/-- Exactly one of a condition and its negation holds. -/
theorem holds_negate {w : Nat} (c : Condition) (x y : BitVec w) :
    c.negate.holds x y = !c.holds x y := by
  cases c <;> simp only [negate, holds, bne, Bool.not_not, BitVec.ule_eq_not_ult,
    BitVec.sle_eq_not_slt]

end Condition

end Multiway
