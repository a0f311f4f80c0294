import Multiway.Assembly.Distance
import Multiway.Assembly.Label

/-!
# Distance hints

A hint remembers where a branch to a label was first considered in a pass over the code and, once
the label is bound in that pass, where the label went. The difference estimates the distance of the
same branch in the next pass.
-/
namespace Multiway

/-- Where a label was first asked about, and where it was bound. -/
structure Hint where
  position : Nat
  target : Option Nat
  deriving DecidableEq, Repr

namespace Hint

/-- Whether the hint records a distance. -/
def isComplete (h : Hint) : Bool := h.target.isSome

def distance? (h : Hint) : Option Int := h.target.map (distance h.position)

end Hint

end Multiway
