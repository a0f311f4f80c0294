import Multiway.Assembly.CodeBuffer
import Multiway.Assembly.Instruction.Word

/-!
# Layout

Laying a buffer out turns each instruction into its word, with branch distances computed from the
positions of the labels. The first instruction that cannot be encoded stops the layout.
-/
namespace Multiway

namespace CodeBuffer

def words (b : CodeBuffer) : Except Error (List Word) :=
  b.code.toList.zipIdx.mapM fun (i, n) => i.encode (n * instructionBytes) b.position?

/-- The bytes of the code. -/
def layOut (b : CodeBuffer) : Except Error (List UInt8) :=
  b.words.map fun words => words.flatMap Word.bytes

end CodeBuffer

end Multiway
