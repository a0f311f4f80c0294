import Multiway.Assembly.Label
import Multiway.Error
import Multiway.Machine.Condition

/-!
# Dispatch requests

A dispatch strategy decides which comparisons a multiway branch makes and in which order. It states
its decisions as a list of requests. What becomes of them is up to the sink that answers them: one
emits code, one counts its size, one keeps a record.

Some requests ask for labels made by earlier ones, so a request names a label either by its index
or by its place among the labels made so far.
-/
namespace Multiway

/-- Where the control flow of a multiway branch leads. -/
structure Routes where
  /-- The target of each key. -/
  targets : Array Label
  /-- The target of all other values. -/
  default : Label
  /-- The label that is bound directly after the branch, if that is known. -/
  successor : Option Label := none
  deriving DecidableEq, Repr

namespace Routes

def target (r : Routes) (index : Nat) : Except Error Label :=
  match r.targets[index]? with
  | some label => .ok label
  | none => .error (.noSuchKey index)

/-- Whether control that falls off the end arrives at a label. -/
def fallsTo (r : Routes) (label : Label) : Bool := r.successor = some label

end Routes

/-- A label as a request names it. -/
inductive LabelRef where
  /-- The label of this index. -/
  | known (label : Label)
  /-- The `n`th label made by this list of requests, counted from zero. -/
  | fresh (n : Nat)
  deriving DecidableEq, Repr

/-- A step of a dispatch strategy. -/
inductive Request where
  /-- Branch to a label if the value compares to a key in a certain way. -/
  | test (index : Nat) (condition : Condition) (target : LabelRef)
  /-- Branch to a label in any case. -/
  | jump (target : LabelRef)
  /-- Bind a label to this place. -/
  | bind (label : LabelRef)
  /-- Make a label. -/
  | makeLabel
  /-- Branch to the target of a key if the value compares to the key in a certain way. -/
  | testToTarget (index : Nat) (condition : Condition)
  /-- Branch to the target of a key if the value compares to it in a certain way, and to the
  default target otherwise; control may be allowed to fall through to either of them. -/
  | testOrDefault (index : Nat) (condition : Condition) (mayFallThrough : Bool)
  /-- Tell the target of a key. -/
  | askTarget (index : Nat)
  /-- Tell the default target. -/
  | askDefault
  /-- Tell whether control falls through to a label. -/
  | askFallsTo (label : LabelRef)
  deriving DecidableEq, Repr

inductive Answer where
  | done
  | label (l : Label)
  | flag (b : Bool)
  deriving DecidableEq, Repr

end Multiway
