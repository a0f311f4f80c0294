import Multiway.Lowering.Emission
import Multiway.Lowering.Tally
import Multiway.Search.Strategy

/-!
# Multiway branches

A switch sends the value in a register to one of several targets. It is checked once, and then
priced or emitted any number of times. A switch that cannot be emitted after all leaves no code and
no constants behind.
-/
namespace Multiway

/-- A multiway branch on the value in a register. -/
structure Switch where
  strategy : Strategy
  routes : Routes
  /-- The register that holds the dispatched value. -/
  value : Register
  /-- The width of the dispatched value. -/
  width : Width
  /-- The register that holds the address of the constant pool, if there is one. -/
  base : Option Register
  /-- The register that pooled keys are loaded into. -/
  scratch : Register

namespace Switch

/-- The keys, in the order of their targets. -/
def keys (s : Switch) : Array Key := s.strategy.keys

/-- The first immediate key that does not fit its operand. -/
def wideImmediate? (s : Switch) : Option Int :=
  s.keys.findSome? fun
    | .immediate value =>
      if FitsSigned Key.immediateBits value.toInt then none else some value.toInt
    | _ => none

/-- The switch, if nothing is wrong with it. The register that reads as zero counts as no base. -/
def check (s : Switch) : Except Error Switch := do
  if s.keys.isEmpty then throw .noKeys
  if s.keys.size ≠ s.routes.targets.size then
    throw (.targetCount s.keys.size s.routes.targets.size)
  if let some value := s.wideImmediate? then throw (.immediateTooWide value)
  if s.scratch.isZero then throw .scratchIsZero
  if s.scratch = s.value then throw .scratchIsValue
  let base := s.base.filter (!·.isZero)
  if base.isNone && s.keys.any (·.isPooled) then throw .noPoolBase
  return { s with base }

/-- The switch in front of a label, to which its last test may fall through. -/
def before (s : Switch) (label : Label) : Switch :=
  { s with routes := { s.routes with successor := some label } }

def emission (s : Switch) : Emission where
  keys := s.keys
  value := s.value
  width := s.width
  base := s.base.getD .zero
  scratch := s.scratch

/-- The size of the switch without fused branches and with a constant pool of its own. -/
def footprint (s : Switch) : Except Error Footprint :=
  match (Tally.sink s.keys).run s.routes s.strategy.requests {} with
  | .ok _ tally => .ok tally.footprint
  | .error e _ => .error e

/-- Emits the switch; if that fails, undoes what has been emitted. -/
def emit (s : Switch) : EStateM Error Draft Unit := fun d =>
  match s.emission.sink.run s.routes s.strategy.requests d with
  | .ok _ emitted => .ok () emitted
  | .error e abandoned => .error e (abandoned.rewind d.mark)

end Switch

end Multiway
