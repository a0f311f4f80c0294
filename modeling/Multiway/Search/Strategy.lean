import Multiway.Search.Bisection
import Multiway.Search.Linear

/-!
# Strategies

A strategy is a way to find the target of a value: one of the two searches, or any list of requests
about given keys.
-/
namespace Multiway

/-- A way to find the target of a value. -/
inductive Strategy where
  | linear (search : LinearSearch)
  | bisection (search : Bisection)
  | scripted (keys : Array Key) (requests : List Request)

namespace Strategy

/-- The keys, in the order of their targets. -/
def keys : Strategy → Array Key
  | linear search => search.keys
  | bisection search => search.keys
  | scripted keys _ => keys

def requests : Strategy → List Request
  | linear search => search.requests
  | bisection search => search.requests
  | scripted _ requests => requests

/-- The order into which a search puts its keys. -/
def order? : Strategy → Option (List Nat)
  | linear search => some search.order
  | bisection search => some search.order
  | scripted _ _ => none

end Strategy

end Multiway
