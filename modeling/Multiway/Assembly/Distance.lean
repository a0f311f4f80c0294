import Multiway.Machine.Immediate
import Multiway.Machine.Basic

/-!
# Branch distances

Positions are unsigned 64-bit numbers of bytes. A distance is a difference of two positions, taken
as a signed 64-bit number, so a target just before the branch has a small negative distance
wherever the two stand. A branch encodes its distance in instructions, rounded towards zero.
-/
namespace Multiway

/-- The signed 64-bit number that is congruent to `d`. -/
def signed64 (d : Int) : Int := d.bmod (modulus 64)

/-- The distance in bytes from one position to another. -/
def distance (source target : Nat) : Int := signed64 (target - source)

/-- A distance in instructions. -/
def inInstructions (d : Int) : Int := d.tdiv instructionBytes

/-- The width of the distance field of a fused compare-and-branch. -/
def fusedReachBits : Nat := 10

/-- The width of the distance field of a branch on condition codes. -/
def branchReachBits : Nat := 19

/-- Whether a fused compare-and-branch may be used for a distance in bytes. -/
def InFusedReach (d : Int) : Prop := d ≠ 0 ∧ FitsSigned fusedReachBits (inInstructions d)

instance (d : Int) : Decidable (InFusedReach d) := inferInstanceAs (Decidable (_ ∧ _))

/-- A distance lengthened by the slack of the machine, away from zero. -/
def Machine.pad (m : Machine) (d : Int) : Int :=
  signed64 (if d < 0 then d - m.slackBytes else d + m.slackBytes)

/-- Reduction changes nothing within the signed 64-bit range. -/
theorem signed64_eq_self {d : Int} (h : FitsSigned 64 d) : signed64 d = d := by
  obtain ⟨lower, upper⟩ := fitsSigned_succ.1 h
  rw [signed64, modulus_succ 63]
  apply Int.bmod_eq_of_le <;> omega

/-- In the lower half of all positions the distance is the plain difference. -/
theorem distance_eq_sub {source target : Nat} (hs : source < modulus 63)
    (ht : target < modulus 63) : distance source target = (target : Int) - source := by
  apply signed64_eq_self
  rw [fitsSigned_succ]
  omega

end Multiway
