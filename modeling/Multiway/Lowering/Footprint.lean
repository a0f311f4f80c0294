import Multiway.Key.Basic
import Multiway.Machine.Basic

/-!
# Footprints

The size of code and of the constants that it needs. A comparison is priced in its longer form: a
compare instruction, a branch and the branch's delay slot, after one load if the key is pooled.
-/
namespace Multiway

/-- Bytes of instructions and bytes of constants. -/
structure Footprint where
  code : Nat := 0
  data : Nat := 0
  deriving DecidableEq, Repr

namespace Footprint

/-- Code and constants together, as an unsigned 64-bit number. -/
def total (f : Footprint) : Nat := (f.code + f.data) % modulus 64

/-- Footprints are added part by part, as unsigned 64-bit numbers. -/
instance : Add Footprint where
  add f g := ⟨(f.code + g.code) % modulus 64, (f.data + g.data) % modulus 64⟩

def sum (fs : List Footprint) : Footprint := fs.foldl (· + ·) {}

end Footprint

/-- The instructions of a comparison in its longer form. -/
def comparisonLength : Nat := 3

/-- The instructions of a jump: a branch and its delay slot. -/
def jumpLength : Nat := 2

/-- The instructions that build an offset too far for an immediate operand. -/
def farOffsetLength : Nat := 2

/-- The price of a comparison with a key that is loaded from a near slot of its own. -/
def Key.comparisonFootprint (k : Key) : Footprint where
  code := ((if k.isPooled then 1 else 0) + comparisonLength) * instructionBytes
  data := k.poolBytes

end Multiway
