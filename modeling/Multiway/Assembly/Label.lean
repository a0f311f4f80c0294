/-!
# Labels

A label is a place in the code that is known by its index before it has a position.

An index is a number of 32 bits, so at most `2 ^ 32` labels can be told apart. Indices are natural
numbers here, and whatever is said about labels is said of programs that make no more than that.
-/
namespace Multiway

/-- A label, by its index in the table of labels. -/
structure Label where
  index : Nat
  deriving DecidableEq, Hashable, Repr

instance : EquivBEq Label := inferInstance

instance : LawfulHashable Label := inferInstance

/-- Assembly text, such as `L7`. -/
def Label.text (l : Label) : String := "L" ++ toString l.index

end Multiway
