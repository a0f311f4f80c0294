import Multiway.Key.Basic

/-!
# Key lists

What every search demands of its keys: that there are some, and that they differ.
-/
namespace Multiway

/-- The index of the first element that equals an earlier one. -/
def firstRepeat? {α : Type} [DecidableEq α] (xs : List α) : Option Nat :=
  (xs.zipIdx.find? fun (x, i) => (xs.take i).contains x).map (·.2)

/-- What is wrong with a list of keys, if anything is. -/
def keyListError? (keys : List Key) : Option Error :=
  if keys.isEmpty then some .noKeys
  else (firstRepeat? keys).map .repeatedKey

end Multiway
