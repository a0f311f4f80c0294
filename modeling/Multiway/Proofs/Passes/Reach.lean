import Multiway.Assembly.Distance
import Mathlib.Tactic.Common

/-!
# Reach in instructions

Positions within a buffer are far below the bounds of 64-bit numbers, and so is the slack. There the
reach of a fused branch can be told from plain numbers of instructions: 512 backward and 511
forward, less the slack where the branch is still to be chosen.
-/
namespace Multiway

/-- More instructions than a buffer in memory can hold: no array has more than `2 ^ 63` bytes, and
an instruction takes eight of them at least. -/
def bufferBound : ℕ := modulus 60

variable {m : Machine} {a b : ℕ}

theorem distance_mul_instructionBytes (ha : a < bufferBound) (hb : b < bufferBound) :
    distance (a * instructionBytes) (b * instructionBytes) =
      ((b : Int) - a) * instructionBytes := by
  have bound : modulus 63 = 8 * bufferBound := rfl
  rw [distance_eq_sub] <;> simp only [bound, instructionBytes] <;> omega

theorem slackBytes_eq (slack : m.slack < bufferBound) :
    m.slackBytes = m.slack * instructionBytes := by
  have bound : modulus 63 = 8 * bufferBound := rfl
  apply Nat.mod_eq_of_lt
  rw [modulus_succ, bound]
  simp only [instructionBytes]
  omega

theorem pad_mul_instructionBytes (slack : m.slack < bufferBound) {d : Int}
    (lower : -(bufferBound : Int) < d) (upper : d < bufferBound) :
    m.pad (d * instructionBytes) =
      (if d < 0 then d - m.slack else d + m.slack) * instructionBytes := by
  have bound : modulus 63 = 8 * bufferBound := rfl
  rw [Machine.pad, slackBytes_eq slack]
  simp only [instructionBytes]
  split_ifs
  all_goals
    rw [signed64_eq_self]
    · omega
    · rw [fitsSigned_succ, bound]
      omega

theorem inInstructions_mul (d : Int) : inInstructions (d * instructionBytes) = d :=
  Int.mul_tdiv_cancel d (by decide)

theorem fitsSigned_fusedReachBits {d : Int} : FitsSigned fusedReachBits d ↔ -512 ≤ d ∧ d ≤ 511 := by
  have bound : modulus 9 = 512 := rfl
  unfold fusedReachBits
  rw [fitsSigned_succ, bound]
  omega

theorem inFusedReach_mul {d : Int} :
    InFusedReach (d * instructionBytes) ↔ d ≠ 0 ∧ -512 ≤ d ∧ d ≤ 511 := by
  rw [InFusedReach, inInstructions_mul, fitsSigned_fusedReachBits, instructionBytes]
  omega

/-- A branch backward over a known distance is chosen if slack and distance are in reach. -/
theorem inFusedReach_backward (slack : m.slack < bufferBound) (ha : a < bufferBound) (h : b ≤ a) :
    InFusedReach (m.pad (distance (a * instructionBytes) (b * instructionBytes))) ↔
      (a = b ∧ 0 < m.slack ∧ m.slack ≤ 511) ∨ (b < a ∧ a - b + m.slack ≤ 512) := by
  rw [distance_mul_instructionBytes ha (by omega),
    pad_mul_instructionBytes slack (by omega) (by omega), inFusedReach_mul]
  split_ifs <;> omega

/-- A branch forward over an estimated distance is chosen if slack and distance are in reach. -/
theorem inFusedReach_forward (slack : m.slack < bufferBound) (hb : b < bufferBound) (h : a < b) :
    InFusedReach (m.pad (distance (a * instructionBytes) (b * instructionBytes))) ↔
      b - a + m.slack ≤ 511 := by
  rw [distance_mul_instructionBytes (by omega) hb,
    pad_mul_instructionBytes slack (by omega) (by omega), inFusedReach_mul]
  split_ifs <;> omega

theorem signed64_bounds (d : Int) : -(modulus 63 : Int) ≤ signed64 d ∧ signed64 d < modulus 63 := by
  have pos : 0 < modulus 64 := modulus_pos 64
  have lower := Int.le_bmod (x := d) pos
  have upper := Int.bmod_lt (x := d) pos
  rw [signed64]
  rw [modulus_succ 63] at lower upper ⊢
  omega

/-- Rounding towards zero adds three bytes to the reach backward. -/
theorem fitsSigned_inInstructions {d : Int} :
    FitsSigned fusedReachBits (inInstructions d) ↔ -2052 < d ∧ d < 2048 := by
  rw [fitsSigned_fusedReachBits]
  show -512 ≤ d.tdiv 4 ∧ d.tdiv 4 ≤ 511 ↔ _
  rw [Int.tdiv_eq_ediv, show Int.sign 4 = 1 from rfl]
  split_ifs <;> omega

/-- Lengthening a distance away from zero never brings it into reach, wherever the two positions
are: where it leaves the signed 64-bit range, it is far away on the other side. -/
theorem fitsSigned_of_inFusedReach_pad (slack : m.slack < bufferBound) {source target : ℕ}
    (reach : InFusedReach (m.pad (distance source target))) :
    FitsSigned fusedReachBits (inInstructions (distance source target)) := by
  have bound : modulus 63 = 8 * bufferBound := rfl
  have wide : bufferBound = 1152921504606846976 := rfl
  obtain ⟨lower, upper⟩ := signed64_bounds (target - source)
  rw [← distance] at lower upper
  generalize distance source target = d at *
  obtain ⟨-, fits⟩ := reach
  rw [fitsSigned_inInstructions, Machine.pad, signed64, slackBytes_eq slack, modulus_succ 63,
    bound, wide] at fits
  rw [bound, wide] at lower upper
  rw [wide] at slack
  rw [fitsSigned_inInstructions]
  simp only [instructionBytes] at fits
  split_ifs at fits with negative
  all_goals
    rw [Int.bmod_def] at fits
    split_ifs at fits <;> omega

/-- Whether a fused branch can be encoded. -/
theorem fitsSigned_distance (ha : a < bufferBound) (hb : b < bufferBound) :
    FitsSigned fusedReachBits
        (inInstructions (distance (a * instructionBytes) (b * instructionBytes))) ↔
      a ≤ b + 512 ∧ b ≤ a + 511 := by
  rw [distance_mul_instructionBytes ha hb, inInstructions_mul, fitsSigned_fusedReachBits]
  omega

end Multiway
