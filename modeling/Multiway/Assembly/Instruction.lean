import Multiway.Assembly.Label
import Multiway.Machine.FlagTest
import Multiway.Machine.Register
import Multiway.Machine.Width

/-!
# Instructions

The instructions that lowered code is made of. Immediates are mathematical integers: a wide one is
representable here and cut to its field only when the instruction is encoded. Branch targets are
labels.
-/
namespace Multiway

/-- The second operand of an instruction. -/
inductive Operand where
  | reg (r : Register)
  | imm (value : Int)
  deriving DecidableEq, Repr

/-- An instruction of the machine. -/
inductive Instruction where
  /-- Compares two values and sets both sets of condition codes. -/
  | compare (left : Register) (right : Operand)
  /-- Branches if the condition codes pass a test. The next instruction is in its delay slot. -/
  | branch (codes : CodeSet) (test : FlagTest) (annul : Bool) (predictTaken : Bool)
      (target : Label)
  /-- Compares two values and branches on the outcome, without a delay slot. -/
  | fused (test : FlagTest) (codes : CodeSet) (left : Register) (right : Operand)
      (target : Label)
  /-- Sets a register to a 22-bit number shifted left by ten. -/
  | setHigh (value : Nat) (dest : Register)
  /-- Bitwise or. -/
  | or (left : Register) (right : Operand) (dest : Register)
  /-- Loads a value from memory and extends it with zeros. -/
  | load (width : Width) (base : Register) (offset : Operand) (dest : Register)
  /-- Does nothing. -/
  | nop
  deriving DecidableEq, Repr

namespace Instruction

/-- Sets a register to `value` with its low ten bits cleared. -/
def setHighOf (value : Nat) (dest : Register) : Instruction :=
  .setHigh (value >>> 10) dest

/-- An unconditional branch; what follows is in its delay slot. -/
def jump (target : Label) : Instruction :=
  .branch .icc .always false true target

def target? : Instruction → Option Label
  | branch _ _ _ _ target => some target
  | fused _ _ _ _ target => some target
  | _ => none

/-- Whether the next instruction is in a delay slot of this one. -/
def hasDelaySlot : Instruction → Bool
  | branch .. => true
  | _ => false

def isFused : Instruction → Bool
  | fused .. => true
  | _ => false

/-- Whether the instruction names a register among its operands or as its destination. -/
def mentions (r : Register) : Instruction → Bool
  | compare left right => left = r || right = .reg r
  | branch .. => false
  | fused _ _ left right _ => left = r || right = .reg r
  | setHigh _ dest => dest = r
  | or left right dest => left = r || dest = r || right = .reg r
  | load _ base offset dest => base = r || dest = r || offset = .reg r
  | nop => false

end Instruction

end Multiway
