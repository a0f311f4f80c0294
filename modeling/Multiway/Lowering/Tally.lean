import Multiway.Dispatch.Sink
import Multiway.Lowering.Footprint
import Multiway.Lowering.LoadPlan

/-!
# Tallies

A tally prices the requests of a strategy instead of emitting code for them. Every comparison is
priced in its longer form, with its constant in a pool that starts empty.
-/
namespace Multiway

/-- What the requests made so far would take. -/
structure Tally where
  labels : Nat := 0
  pool : ConstantPool := {}
  codeBytes : Nat := 0

namespace Tally

def footprint (t : Tally) : Footprint := ⟨t.codeBytes, t.pool.size⟩

def addComparison (t : Tally) (key : Key) : Tally :=
  let codeBytes := t.codeBytes + key.comparisonFootprint.code
  match key.constant? with
  | none => { t with codeBytes }
  | some constant =>
    let (offset, pool) := t.pool.intern constant
    let far := if LoadPlan.IsNear offset then 0 else farOffsetLength * instructionBytes
    { t with codeBytes := codeBytes + far, pool }

/-- Prices requests about the given keys. -/
def sink (keys : Array Key) : Sink Tally where
  test index _ _ := do
    match keys[index]? with
    | some key => modify (·.addComparison key)
    | none => throw (.noSuchKey index)
  jump _ := modify fun t => { t with codeBytes := t.codeBytes + jumpLength * instructionBytes }
  bind _ := pure ()
  makeLabel := modifyGet fun t => (⟨t.labels⟩, { t with labels := t.labels + 1 })

end Tally

end Multiway
