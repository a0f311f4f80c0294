import Multiway.Number.Modulus

/-!
# The target machine

What code emission has to know about a machine: whether it has fused compare-and-branch
instructions, and how much slack to allow for when a branch distance is only estimated.
-/
namespace Multiway

/-- The size of every instruction, in bytes. -/
def instructionBytes : Nat := 4

/-- The machine that code is emitted for. -/
structure Machine where
  /-- The machine has fused compare-and-branch instructions. -/
  fusedBranches : Bool := false
  /-- How many instructions a branch may move between its estimate and its final place. -/
  slack : Nat := 2
  deriving DecidableEq, Repr

namespace Machine

/-- The slack in bytes, as an unsigned 64-bit number. -/
def slackBytes (m : Machine) : Nat := m.slack * instructionBytes % modulus 64

end Machine

end Multiway
