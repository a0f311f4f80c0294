import Multiway.Dispatch.Request
import Multiway.Search.Keys

/-!
# Linear search

Linear search tests one key after the other for equality, the most probable one first. Keys of
equal probability keep the order in which they are given, and a probability that is no number is
equal to every other.
-/
namespace Multiway

/-- Keys and the order in which they are tested. -/
structure LinearSearch where
  keys : Array Key
  order : List Nat
  order_ne_nil : order ≠ []

namespace LinearSearch

/-- Indices by descending probability. -/
def byProbability (probabilities : List Binary64) : List Nat :=
  (probabilities.zipIdx.mergeSort fun p q => !p.1.less q.1).map (·.2)

/-- The search over keys that differ, in a given order. -/
def ofOrder (keys : List Key) (order : List Nat) : Except Error LinearSearch :=
  if h : order = [] then .error .noKeys else .ok ⟨keys.toArray, order, h⟩

/-- The search by descending probability. -/
def ofProbabilities (keys : List Key) (probabilities : List Binary64) :
    Except Error LinearSearch :=
  match keyListError? keys with
  | some e => .error e
  | none =>
    if probabilities.length = keys.length then ofOrder keys (byProbability probabilities)
    else .error (.probabilityCount keys.length probabilities.length)

/-- The search in the order in which the keys are given. -/
def ofKeys (keys : List Key) : Except Error LinearSearch :=
  match keyListError? keys with
  | some e => .error e
  | none => ofOrder keys (List.range keys.length)

/-- Equality tests in order; the last one decides between its key and the default target. -/
def requests (s : LinearSearch) : List Request :=
  (s.order.dropLast.map fun index => .testToTarget index .equal) ++
    [.testOrDefault (s.order.getLast s.order_ne_nil) .equal true]

end LinearSearch

end Multiway
