import Multiway.Assembly.Instruction
import Multiway.Error
import Multiway.Key.Basic
import Multiway.Machine.Basic
import Multiway.Pool.Basic

/-!
# Load plans

Before a pooled key is compared it is loaded into a scratch register. The instructions that do so
are planned before any of them is emitted, so the place of the branch that follows is known when
its distance is estimated.

The offset of a constant is an immediate operand of the load if it fits one. Otherwise the scratch
register receives the offset first, in two steps: its high 22 bits, then its low ten.
-/
namespace Multiway

/-- Instructions that leave a key in a register; none for a key that is an immediate operand. -/
structure LoadPlan where
  instructions : List Instruction := []
  deriving DecidableEq, Repr

namespace LoadPlan

def length (p : LoadPlan) : Nat := p.instructions.length

def isEmpty (p : LoadPlan) : Bool := p.instructions.isEmpty

/-- The size of the instructions, in bytes. -/
def size (p : LoadPlan) : Nat := p.length * instructionBytes

/-- Whether an offset into the pool is an immediate operand of a load. -/
def IsNear (offset : Nat) : Prop := FitsSigned Key.immediateBits offset

instance (offset : Nat) : Decidable (IsNear offset) := inferInstanceAs (Decidable (FitsSigned _ _))

/-- The load of the value at an offset from `base` into `scratch`. Far offsets are 32-bit
numbers. -/
def atOffset (width : Width) (base scratch : Register) (offset : Nat) : LoadPlan where
  instructions :=
    if IsNear offset then [.load width base (.imm offset) scratch]
    else
      let offset := offset % modulus 32
      [.setHighOf offset scratch, .or scratch (.imm (offset % modulus 10)) scratch,
        .load width base (.reg scratch) scratch]

/-- The load of a key, whose constant is put into the pool. The register that reads as zero is no
base. -/
def forKey (key : Key) (base scratch : Register) (pool : ConstantPool) :
    Except Error (LoadPlan × ConstantPool) :=
  match key.constant? with
  | none => .ok ({}, pool)
  | some constant =>
    if base.isZero then .error .noPoolBase
    else
      let (offset, pool) := pool.intern constant
      .ok (atOffset constant.width base scratch offset, pool)

theorem length_atOffset (width : Width) (base scratch : Register) (offset : Nat) :
    (atOffset width base scratch offset).length = if IsNear offset then 1 else 3 := by
  unfold atOffset length
  split <;> rfl

end LoadPlan

end Multiway
