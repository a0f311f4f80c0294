import Multiway.Assembly.Distance
import Multiway.Assembly.Instruction
import Multiway.Error

/-!
# Machine words

An instruction is encoded in one 32-bit word, the concatenation of its fields from the most
significant bit down. An immediate leaves in its field as many low bits as the field holds. Only
branches depend on where they stand, and only they can fail: their label may have no position, or
its distance may not fit the field.
-/
namespace Multiway

abbrev Word := BitVec 32

namespace Word

/-- The bytes of a word, the most significant one first. -/
def bytes (w : Word) : List UInt8 :=
  [24, 16, 8, 0].map fun shift => UInt8.ofNat (w.toNat >>> shift)

@[simp] theorem length_bytes (w : Word) : w.bytes.length = instructionBytes := rfl

end Word

def Register.field (r : Register) : BitVec 5 := BitVec.ofFin r.number

namespace Operand

/-- The operand field of an arithmetic instruction: a mark for immediates and 13 bits. -/
def field : Operand → BitVec 14
  | reg r => 0#9 ++ r.field
  | imm value => 1#1 ++ BitVec.ofInt 13 value

def isImmediate : Operand → BitVec 1
  | reg _ => 0
  | imm _ => 1

/-- The operand field of a fused branch, without its mark. -/
def shortField : Operand → BitVec 5
  | reg r => r.field
  | imm value => BitVec.ofInt 5 value

end Operand

/-- The field that names a set of condition codes in a branch. -/
def CodeSet.field : CodeSet → BitVec 2
  | icc => 0b00
  | xcc => 0b10

/-- The bit that marks 64-bit comparisons in a fused branch. -/
def CodeSet.isExtended : CodeSet → BitVec 1
  | icc => 0
  | xcc => 1

def Width.loadField : Width → BitVec 6
  | word => 0x00
  | xword => 0x0b

/-- The layout of arithmetic and memory instructions. -/
def Word.format3 (op : BitVec 2) (dest : Register) (operation : BitVec 6) (left : Register)
    (right : Operand) : Word :=
  op ++ dest.field ++ operation ++ left.field ++ right.field

/-- The layout of a branch on condition codes. -/
def Word.ofBranch (codes : CodeSet) (test : FlagTest) (annul predictTaken : Bool)
    (d : BitVec 19) : Word :=
  0#2 ++ BitVec.ofBool annul ++ test.code ++ 0b001#3 ++ codes.field ++
    BitVec.ofBool predictTaken ++ d

/-- The layout of a fused compare-and-branch, which splits both its test and its distance. -/
def Word.ofFused (test : FlagTest) (codes : CodeSet) (left : Register) (right : Operand)
    (d : BitVec 10) : Word :=
  0#2 ++ test.code.extractLsb' 3 1 ++ 1#1 ++ test.code.extractLsb' 0 3 ++ 0b011#3 ++
    codes.isExtended ++ d.extractLsb' 8 2 ++ left.field ++ right.isImmediate ++
    d.extractLsb' 0 8 ++ right.shortField

/-- The layout of the instruction that sets the high bits of a register. -/
def Word.ofSetHigh (value : BitVec 22) (dest : Register) : Word :=
  0#2 ++ dest.field ++ 0b100#3 ++ value

/-- The distance field of a branch at `position` to `target`, in instructions. -/
def branchField (bits position : Nat) (target : Label) (resolve : Label → Option Nat) :
    Except Error (BitVec bits) :=
  match resolve target with
  | none => .error (.neverBound target)
  | some destination =>
    let bytes := distance position destination
    if FitsSigned bits (inInstructions bytes) then .ok (BitVec.ofInt bits (inInstructions bytes))
    else .error (.outOfReach position target bytes)

/-- The word of an instruction at `position`, where `resolve` tells the positions of labels. -/
def Instruction.encode (position : Nat) (resolve : Label → Option Nat) :
    Instruction → Except Error Word
  | compare left right => .ok (Word.format3 2 .zero 0x14 left right)
  | branch codes test annul predictTaken target =>
    (branchField branchReachBits position target resolve).map
      (Word.ofBranch codes test annul predictTaken)
  | fused test codes left right target =>
    (branchField fusedReachBits position target resolve).map (Word.ofFused test codes left right)
  | setHigh value dest => .ok (Word.ofSetHigh (BitVec.ofNat 22 value) dest)
  | or left right dest => .ok (Word.format3 2 dest 0x02 left right)
  | load width base offset dest => .ok (Word.format3 3 dest width.loadField base offset)
  | nop => .ok (Word.ofSetHigh 0 .zero)

end Multiway
