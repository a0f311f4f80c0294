import Multiway.Machine.Condition

/-!
# Tests of the condition codes

A comparison subtracts its operands and keeps four flags of the difference. A branch names one of
sixteen tests of those flags; each test and the one eight codes above it exclude each other.
-/
namespace Multiway

/-- The flags that a comparison leaves behind. -/
structure Flags where
  negative : Bool
  zero : Bool
  overflow : Bool
  carry : Bool
  deriving DecidableEq, Repr

/-- The flags of the difference `x - y`; the carry is the borrow of the unsigned subtraction. -/
def Flags.ofDifference {w : Nat} (x y : BitVec w) : Flags where
  negative := (x - y).msb
  zero := x - y == 0
  overflow := BitVec.ssubOverflow x y
  carry := BitVec.usubOverflow x y

/-- A test of the flags, as the condition field of a branch names it. -/
inductive FlagTest where
  | never
  | equal
  | lessEqual
  | less
  | lessEqualUnsigned
  | carrySet
  | negative
  | overflowSet
  | always
  | notEqual
  | greater
  | greaterEqual
  | greaterUnsigned
  | carryClear
  | positive
  | overflowClear
  deriving DecidableEq, Repr

namespace FlagTest

/-- The value of the condition field. -/
def code : FlagTest → BitVec 4
  | never => 0x0
  | equal => 0x1
  | lessEqual => 0x2
  | less => 0x3
  | lessEqualUnsigned => 0x4
  | carrySet => 0x5
  | negative => 0x6
  | overflowSet => 0x7
  | always => 0x8
  | notEqual => 0x9
  | greater => 0xa
  | greaterEqual => 0xb
  | greaterUnsigned => 0xc
  | carryClear => 0xd
  | positive => 0xe
  | overflowClear => 0xf

/-- The suffix of the branch mnemonic. -/
def mnemonic : FlagTest → String
  | never => "n"
  | equal => "e"
  | lessEqual => "le"
  | less => "l"
  | lessEqualUnsigned => "leu"
  | carrySet => "cs"
  | negative => "neg"
  | overflowSet => "vs"
  | always => "a"
  | notEqual => "ne"
  | greater => "g"
  | greaterEqual => "ge"
  | greaterUnsigned => "gu"
  | carryClear => "cc"
  | positive => "pos"
  | overflowClear => "vc"

def passes (f : Flags) : FlagTest → Bool
  | never => false
  | equal => f.zero
  | lessEqual => f.zero || (f.negative != f.overflow)
  | less => f.negative != f.overflow
  | lessEqualUnsigned => f.carry || f.zero
  | carrySet => f.carry
  | negative => f.negative
  | overflowSet => f.overflow
  | always => true
  | notEqual => !f.zero
  | greater => !(f.zero || (f.negative != f.overflow))
  | greaterEqual => !(f.negative != f.overflow)
  | greaterUnsigned => !(f.carry || f.zero)
  | carryClear => !f.carry
  | positive => !f.negative
  | overflowClear => !f.overflow

end FlagTest

/-- The test that decides a condition after a comparison of its two operands. -/
def Condition.flagTest : Condition → FlagTest
  | equal => .equal
  | notEqual => .notEqual
  | less => .less
  | lessEqual => .lessEqual
  | greater => .greater
  | greaterEqual => .greaterEqual
  | below => .carrySet
  | belowEqual => .lessEqualUnsigned
  | above => .greaterUnsigned
  | aboveEqual => .carryClear

end Multiway
