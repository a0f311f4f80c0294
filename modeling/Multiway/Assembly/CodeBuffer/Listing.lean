import Multiway.Assembly.CodeBuffer
import Multiway.Assembly.Instruction.Text

/-!
# Listings

A listing shows the code with one line for each instruction and, before the instruction at its
position, one line for each bound label. Labels at one position stand in the order of their
indices; those at the end of the code come last.
-/
namespace Multiway

namespace CodeBuffer

/-- The labels bound to a position, in the order of their indices. -/
def labelsAt (b : CodeBuffer) (position : Nat) : List Label :=
  ((List.range b.labelCount).map Label.mk).filter fun l => b.position? l = some position

/-- The lines that show the place of the `n`th instruction, or the end of the code. -/
def linesAt (b : CodeBuffer) (n : Nat) : List String :=
  (b.labelsAt (n * instructionBytes)).map (fun l => l.text ++ ":") ++
    (b.code[n]?.map fun i => "    " ++ i.text).toList

def listing (b : CodeBuffer) : String :=
  "\n".intercalate ((List.range (b.code.size + 1)).flatMap b.linesAt)

end CodeBuffer

end Multiway
