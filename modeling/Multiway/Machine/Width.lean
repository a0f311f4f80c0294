/-!
# Operand widths and condition codes

Values are compared and loaded either as 32-bit words or as 64-bit extended words. A compare
instruction sets one set of condition codes for each width.
-/
namespace Multiway

/-- The width of a value that is compared or loaded. -/
inductive Width where
  | word
  | xword
  deriving DecidableEq, Repr, Hashable

/-- A set of integer condition codes: of the 32-bit or of the 64-bit comparison. -/
inductive CodeSet where
  | icc
  | xcc
  deriving DecidableEq, Repr

namespace Width

/-- The size of a value of this width, in bytes. -/
def bytes : Width → Nat
  | word => 4
  | xword => 8

abbrev bits (w : Width) : Nat := 8 * w.bytes

/-- The condition codes that a comparison at this width is read from. -/
def codes : Width → CodeSet
  | word => .icc
  | xword => .xcc

theorem bytes_pos (w : Width) : 0 < w.bytes := by cases w <;> decide

end Width

namespace CodeSet

def text : CodeSet → String
  | icc => "%icc"
  | xcc => "%xcc"

/-- The width of the comparison whose outcome these codes hold. -/
def width : CodeSet → Width
  | icc => .word
  | xcc => .xword

@[simp] theorem width_codes (w : Width) : w.codes.width = w := by cases w <;> rfl

end CodeSet

end Multiway
