import Multiway.Dispatch.Request
import Multiway.Search.Keys

/-!
# Bisection

Bisection orders the keys by value and splits them at the median until at most three are left,
which are tested one after the other. Only keys of one kind have a common order: signed for
immediate keys, unsigned for pooled ones.

The tree of splits is a value of its own. The requests of a search are read off it from left to
right, and each split makes the label of its upper half when it is reached.
-/
namespace Multiway

/-- A decision tree over key indices. -/
inductive SplitTree where
  /-- The keys that are left: all but the last, and the last. -/
  | leaf (rest : List Nat) (last : Nat)
  /-- The greatest key of the lower half, and both halves. -/
  | split (pivot : Nat) (lower upper : SplitTree)
  deriving DecidableEq, Repr

namespace SplitTree

/-- The greatest number of keys in a leaf. -/
def leafSize : Nat := 3

/-- The tree over indices in ascending order of their keys; of an odd number, the lower half gets
one more. -/
def ofSorted (indices : List Nat) (h : indices ≠ []) : SplitTree :=
  if small : indices.length ≤ leafSize then .leaf indices.dropLast (indices.getLast h)
  else
    let half := (indices.length - 1) / 2 + 1
    have lower_ne_nil : indices.take half ≠ [] := by
      simp [half, h]
    have upper_ne_nil : indices.drop half ≠ [] := by
      simp only [half, leafSize, ne_eq, List.drop_eq_nil_iff] at small ⊢; omega
    .split ((indices.take half).getLast lower_ne_nil)
      (ofSorted (indices.take half) lower_ne_nil) (ofSorted (indices.drop half) upper_ne_nil)
termination_by indices.length
decreasing_by
  all_goals simp only [leafSize, List.length_take, List.length_drop] at small ⊢; omega

/-- The indices of the keys from left to right. -/
def indices : SplitTree → List Nat
  | leaf rest last => rest ++ [last]
  | split _ lower upper => lower.indices ++ upper.indices

/-- The number of splits, which is the number of labels that the requests make. -/
def splits : SplitTree → Nat
  | leaf _ _ => 0
  | split _ lower upper => lower.splits + upper.splits + 1

/-- The requests of a search, where `beyond` tells that a value lies beyond a key in the order of
the keys, and `made` labels have been made before. -/
def requests (beyond : Condition) : SplitTree → Nat → List Request
  | leaf rest last, _ =>
    (rest.map fun index => .testToTarget index .equal) ++ [.testOrDefault last .equal false]
  | split pivot lower upper, made =>
    [.makeLabel, .test pivot beyond (.fresh made)] ++ lower.requests beyond (made + 1) ++
      [.bind (.fresh made)] ++ upper.requests beyond (made + 1 + lower.splits)

/-- The tree of a list holds the list from left to right. -/
@[simp] theorem indices_ofSorted (xs : List Nat) (h : xs ≠ []) :
    (ofSorted xs h).indices = xs := by
  fun_induction ofSorted xs h with
  | case1 xs h small => exact List.dropLast_concat_getLast h
  | case2 xs h small half lower_ne_nil upper_ne_nil lower upper =>
    rw [indices, lower, upper, List.take_append_drop]

end SplitTree

/-- The condition that a value lies beyond a key of this kind. -/
def KeyKind.beyond : KeyKind → Condition
  | immediate => .greater
  | word => .above
  | extended => .above

/-- Keys and the decision tree over them. -/
structure Bisection where
  keys : Array Key
  tree : SplitTree
  beyond : Condition

namespace Bisection

/-- Indices by ascending value of their keys. -/
def byOrdinal (keys : List Key) : List Nat :=
  (keys.zipIdx.mergeSort fun j k => j.1.ordinal ≤ k.1.ordinal).map (·.2)

/-- The search over keys of one kind. -/
def ofKeys (keys : List Key) : Except Error Bisection :=
  match keyListError? keys, keys with
  | some e, _ => .error e
  | none, [] => .error .noKeys
  | none, first :: rest =>
    if rest.all (·.kind = first.kind) then
      if h : byOrdinal keys = [] then .error .noKeys
      else .ok ⟨keys.toArray, .ofSorted (byOrdinal keys) h, first.kind.beyond⟩
    else .error .mixedKinds

/-- The indices of the keys by ascending value. -/
def order (s : Bisection) : List Nat := s.tree.indices

def requests (s : Bisection) : List Request := s.tree.requests s.beyond 0

end Bisection

end Multiway
