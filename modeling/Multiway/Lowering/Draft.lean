import Multiway.Assembly.CodeBuffer.Layout
import Multiway.Assembly.CodeBuffer.Pass
import Multiway.Pool.Basic

/-!
# Drafts

A draft is everything that one compilation builds: code, its constant pool, and the machine that
both are meant for. When it is finished it becomes an image, the bytes of both.
-/
namespace Multiway

/-- Code and constants under construction. -/
structure Draft where
  code : CodeBuffer := {}
  pool : ConstantPool := {}
  machine : Machine := {}

/-- How far a draft has grown. -/
structure Draft.Mark where
  code : CodeBuffer.Mark
  pool : ConstantPool.Mark
  deriving DecidableEq, Repr

/-- The bytes of finished code and of its constants. -/
structure Image where
  code : List UInt8
  data : List UInt8
  deriving DecidableEq, Repr

namespace Draft

def mark (d : Draft) : Mark := ⟨d.code.mark, d.pool.mark⟩

/-- Undoes what happened since a mark. -/
def rewind (d : Draft) (m : Mark) : Draft :=
  { d with code := d.code.rewind m.code, pool := d.pool.rewind m.pool }

/-- Undoes what happened since a mark, unless the mark counts more bindings than there are. -/
def rewind? (d : Draft) (m : Mark) : Option Draft :=
  (d.code.rewind? m.code).map fun code => { d with code := code, pool := d.pool.rewind m.pool }

/-- Starts a new pass: no code, no constants, the same labels. -/
def nextPass (d : Draft) : Draft := { d with code := d.code.nextPass, pool := .empty }

def finish (d : Draft) : Except Error Image :=
  d.code.layOut.map fun code => { code, data := d.pool.bytes.toList }

end Draft

end Multiway
