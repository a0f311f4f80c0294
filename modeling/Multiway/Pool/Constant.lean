import Multiway.Machine.Width

/-!
# Constants

A constant is a bit pattern together with the width at which memory holds it. Memory is
big-endian, and a word holds the low half of the pattern.
-/
namespace Multiway

/-- A bit pattern and the width at which it is stored. -/
structure Constant where
  bits : BitVec 64
  width : Width
  deriving DecidableEq, Hashable, Repr

instance : EquivBEq Constant := inferInstance

instance : LawfulHashable Constant := inferInstance

namespace Constant

/-- The bytes of a constant in memory, the most significant one first. -/
def bytes (c : Constant) : List UInt8 :=
  (List.range c.width.bytes).reverse.map fun place => UInt8.ofNat (c.bits.toNat >>> (8 * place))

@[simp] theorem length_bytes (c : Constant) : c.bytes.length = c.width.bytes := by
  simp [bytes]

end Constant

end Multiway
