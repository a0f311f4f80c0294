/-!
# Doubles by their bits

A double is given by its 64 bits: a sign, eleven bits of exponent and 52 of fraction. Order and
truncation are read off these bits in exact integer arithmetic.

Apart from the sign, the bits of doubles ascend with their magnitude, so the signed magnitude ranks
all doubles that are numbers. Both zeros have rank zero.
-/
namespace Multiway

/-- A double, by its bits. -/
structure Binary64 where
  bits : BitVec 64
  deriving DecidableEq, Repr

namespace Binary64

/-- Whether the sign bit is set. -/
def isNegative (x : Binary64) : Bool := x.bits.msb

/-- All bits but the sign. -/
def magnitude (x : Binary64) : BitVec 63 := x.bits.extractLsb' 0 63

def exponent (x : Binary64) : BitVec 11 := x.bits.extractLsb' 52 11

def fraction (x : Binary64) : BitVec 52 := x.bits.extractLsb' 0 52

def isFinite (x : Binary64) : Bool := x.exponent != .allOnes 11

def isNaN (x : Binary64) : Bool := !x.isFinite && x.fraction != 0

/-- A natural number with the sign of `x`. -/
def withSign (x : Binary64) (n : Nat) : Int := if x.isNegative then -(n : Int) else n

/-- The place of a number in the order of all doubles. -/
def rank? (x : Binary64) : Option Int :=
  if x.isNaN then none else some (x.withSign x.magnitude.toNat)

/-- Whether both are numbers and the first is smaller. -/
def less (x y : Binary64) : Bool :=
  match x.rank?, y.rank? with
  | some a, some b => a < b
  | _, _ => false

/-- The significand of a finite double as an integer; subnormal numbers have no leading one. -/
def significand (x : Binary64) : Nat :=
  if x.exponent = 0 then x.fraction.toNat else (1#1 ++ x.fraction).toNat

/-- The unit of the significand is two to the power of this number less 1075. -/
def scale (x : Binary64) : Nat := max x.exponent.toNat 1

/-- The magnitude of a finite double rounded down to an integer. -/
def truncatedMagnitude (x : Binary64) : Nat :=
  if 1075 ≤ x.scale then x.significand <<< (x.scale - 1075)
  else x.significand >>> (1075 - x.scale)

/-- The value of a finite double, truncated towards zero. -/
def truncate? (x : Binary64) : Option Int :=
  if x.isFinite then some (x.withSign x.truncatedMagnitude) else none

end Binary64

end Multiway
