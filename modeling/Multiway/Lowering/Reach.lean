import Multiway.Lowering.Draft
import Multiway.Lowering.LoadPlan

/-!
# Reach of fused branches

A fused branch saves two instructions but reaches only 512 of them either way. Whether it reaches
is decided before it is emitted: from the position of its target if the target is bound, else from
a hint of an earlier pass. Either distance is lengthened by the slack of the machine, and a target
of unknown distance counts as out of reach.
-/
namespace Multiway

/-- The lengthened distance in bytes from `probe` to a label, if it can be told. -/
def CodeBuffer.estimate? (b : CodeBuffer) (m : Machine) (probe : Nat) (hint : Hint)
    (target : Label) : Option Int :=
  let measured := match b.position? target with
    | some position => some (distance probe position)
    | none => hint.distance?
  measured.map m.pad

/-- Whether a fused branch at `probe` is taken to reach a label. -/
def CodeBuffer.reaches (b : CodeBuffer) (m : Machine) (probe : Nat) (hint : Hint)
    (target : Label) : Bool :=
  (b.estimate? m probe hint target).any fun d => InFusedReach d

/-- Where a fused branch will stand after a load plan, or `none` if that is a delay slot. Without a
load it may need a `nop` before it. -/
def CodeBuffer.fusedPosition? (b : CodeBuffer) (plan : LoadPlan) : Option Nat :=
  let next := b.position + plan.size
  if plan.isEmpty then
    match b.hazard with
    | .clear => some next
    | .afterFused => some (next + instructionBytes)
    | .delaySlot => none
  else some next

end Multiway
