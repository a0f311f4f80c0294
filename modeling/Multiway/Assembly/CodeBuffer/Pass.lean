import Multiway.Assembly.CodeBuffer

/-!
# Marks and passes

A mark records how far a buffer has grown, and rewinding undoes what happened since. A label that
was bound since loses its position, a label made since is forgotten together with its hints, and
hints about the labels that remain are kept.

A new pass starts with no code over the same labels. Complete hints become measured ones.
-/
namespace Multiway

/-- How far a buffer has grown. -/
structure CodeBuffer.Mark where
  code : Nat
  labels : Nat
  bindings : Nat
  localsUsed : Nat
  deriving DecidableEq, Repr

namespace CodeBuffer

def mark (b : CodeBuffer) : Mark where
  code := b.code.size
  labels := b.positions.size
  bindings := b.bindings.size
  localsUsed := b.localsUsed

def unbind (b : CodeBuffer) (l : Label) : CodeBuffer :=
  { b with
    positions := b.positions.setIfInBounds l.index none
    hints := b.hints.modify l fun hint => { hint with target := none } }

/-- Undoes what happened since a mark. -/
def rewind (b : CodeBuffer) (m : Mark) : CodeBuffer :=
  let unbound := (b.bindings.drop m.bindings).foldl unbind b
  let remains (l : Label) : Bool := l.index < m.labels
  let locals := b.locals.filter remains
  { code := b.code.take m.code
    positions := unbound.positions.take m.labels
    bindings := b.bindings.take m.bindings
    hints := unbound.hints.filter fun l _ => remains l
    measured := b.measured.filter fun l _ => remains l
    locals := locals
    localsUsed := min m.localsUsed locals.size }

/-- Undoes what happened since a mark, unless the mark counts more bindings than there are. -/
def rewind? (b : CodeBuffer) (m : Mark) : Option CodeBuffer :=
  if m.bindings ≤ b.bindings.size then some (b.rewind m) else none

/-- Starts a new pass over the same labels. -/
def nextPass (b : CodeBuffer) : CodeBuffer where
  positions := Array.replicate b.positions.size none
  measured := b.measured ∪ b.hints.filter fun _ hint => hint.isComplete
  locals := b.locals

end CodeBuffer

end Multiway
