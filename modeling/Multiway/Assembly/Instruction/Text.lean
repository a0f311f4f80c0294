import Multiway.Assembly.Instruction
import Multiway.Text.Hex

/-!
# Assembly text

One line of text for each instruction, in the usual order: operands first, destination last.
-/
namespace Multiway

def Operand.text : Operand → String
  | reg r => r.text
  | imm value => toString value

/-- The letter that marks the width of a fused comparison. -/
def CodeSet.letter : CodeSet → String
  | icc => "w"
  | xcc => "x"

def Width.loadMnemonic : Width → String
  | word => "lduw"
  | xword => "ldx"

/-- Assembly text of an instruction, on one line. -/
def Instruction.text : Instruction → String
  | compare left right => "cmp " ++ left.text ++ ", " ++ right.text
  | branch codes test annul predictTaken target =>
    "b" ++ test.mnemonic ++ (if annul then ",a" else "") ++
      (if predictTaken then ",pt " else ",pn ") ++ codes.text ++ ", " ++ target.text
  | fused test codes left right target =>
    "c" ++ codes.letter ++ "b" ++ test.mnemonic ++ " " ++ left.text ++ ", " ++ right.text ++
      ", " ++ target.text
  | setHigh value dest => "sethi " ++ hexLiteral value ++ ", " ++ dest.text
  | or left right dest => "or " ++ left.text ++ ", " ++ right.text ++ ", " ++ dest.text
  | load width base offset dest =>
    width.loadMnemonic ++ " [" ++ base.text ++ " + " ++ offset.text ++ "], " ++ dest.text
  | nop => "nop"

end Multiway
