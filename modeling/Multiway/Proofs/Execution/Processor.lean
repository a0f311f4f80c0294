import Multiway.Assembly.Instruction
import Multiway.Proofs.Execution.Run
import Mathlib.Logic.Function.Basic

/-!
# Execution of instructions

Registers hold 64-bit words, and memory holds bytes. A comparison keeps the flags of the difference
at both widths. A branch takes effect after the instruction in its delay slot, which an annulled
branch skips if it is not taken; a fused branch takes effect at once. An immediate operand is cut
to its field and extended with its sign.

Instructions are executed as they stand in a fragment of code, before labels have become distances.
So the place of the next instruction is an index into the fragment or a place outside of it.
-/
namespace Multiway

/-- What is computed with: registers and flags. -/
structure Processor where
  registers : Register → BitVec 64
  flags : CodeSet → Flags

/-- The bytes at all addresses. -/
abbrev Memory := BitVec 64 → UInt8

/-- The number that some bytes from an address on are, the most significant byte first. -/
def Memory.number (m : Memory) (address : BitVec 64) : ℕ → ℕ
  | 0 => 0
  | n + 1 => m.number address n * 256 + (m (address + BitVec.ofNat 64 n)).toNat

namespace Processor

/-- The value of a register; one of them reads as zero. -/
def read (p : Processor) (r : Register) : BitVec 64 := if r.isZero then 0 else p.registers r

def write (p : Processor) (r : Register) (v : BitVec 64) : Processor :=
  { p with registers := Function.update p.registers r v }

/-- The value of an operand, whose immediate field has a number of bits. -/
def operand (p : Processor) (bits : ℕ) : Operand → BitVec 64
  | .reg r => p.read r
  | .imm v => (BitVec.ofInt bits v).signExtend 64

/-- The flags of a comparison, at the width that a set of condition codes is about. -/
def difference (x y : BitVec 64) (codes : CodeSet) : Flags :=
  Flags.ofDifference (x.setWidth codes.width.bits) (y.setWidth codes.width.bits)

@[simp] theorem read_write_self (p : Processor) {r : Register} (h : ¬r.isZero) (v : BitVec 64) :
    (p.write r v).read r = v := by
  simp [read, write, h]

@[simp] theorem read_write_of_ne (p : Processor) {r s : Register} (h : s ≠ r) (v : BitVec 64) :
    (p.write r v).read s = p.read s := by
  simp [read, write, h]

/-- The later of two values is kept. -/
theorem write_write (p : Processor) (r : Register) (v v' : BitVec 64) :
    (p.write r v).write r v' = p.write r v' := by
  simp [write]

end Processor

/-- The width of the immediate operand of an arithmetic or memory instruction. -/
def operandBits : ℕ := 13

/-- The width of the immediate operand of a fused branch. -/
def fusedOperandBits : ℕ := 5

/-- What an instruction does to registers and flags. -/
def Instruction.effect (m : Memory) (p : Processor) : Instruction → Processor
  | .compare left right =>
    { p with flags := Processor.difference (p.read left) (p.operand operandBits right) }
  | .setHigh value dest => p.write dest ((BitVec.ofNat 22 value).setWidth 64 <<< 10)
  | .or left right dest => p.write dest (p.read left ||| p.operand operandBits right)
  | .load width base offset dest =>
    let address := p.read base + p.operand operandBits offset
    p.write dest (BitVec.ofNat 64 (m.number address width.bytes))
  | .branch .. | .fused .. | .nop => p

/-- A place in the code: in a fragment, or some instructions behind a label outside of it. -/
inductive Place where
  | inside (n : ℕ)
  | outside (l : Label) (k : ℕ)
  deriving DecidableEq, Repr

/-- The place of the next instruction in memory. -/
def Place.succ : Place → Place
  | inside n => inside (n + 1)
  | outside l k => outside l (k + 1)

/-- A piece of code, and the labels that are bound in it. -/
structure Fragment where
  code : List Instruction
  site? : Label → Option ℕ

/-- A processor at work: where it is, and where it goes from there. -/
structure Execution where
  processor : Processor
  here : Place
  next : Place

namespace Execution

/-- The processor arrives at a place, and no branch is under way. -/
def arriving (p : Processor) (place : Place) : Execution := ⟨p, place, place.succ⟩

def advance (x : Execution) : Execution := { x with here := x.next, next := x.next.succ }

end Execution

namespace Fragment

variable (f : Fragment) (m : Memory)

def place (l : Label) : Place :=
  match f.site? l with
  | some n => .inside n
  | none => .outside l 0

def execute (x : Execution) (i : Instruction) : Execution :=
  match i with
  | .branch codes test annul _ target =>
    if test.passes (x.processor.flags codes) then
      { x with here := x.next, next := f.place target }
    else if annul then x.advance.advance
    else x.advance
  | .fused test codes left right target =>
    let p := x.processor
    if test.passes (Processor.difference (p.read left) (p.operand fusedOperandBits right) codes)
    then .arriving p (f.place target)
    else x.advance
  | i => { x.advance with processor := i.effect m x.processor }

/-- One step. Control departs properly through a label or at the very end of the code, with no
branch under way. -/
def step (x : Execution) : Except Departure Execution :=
  match x.here with
  | .outside l k => .error (if k = 0 ∧ x.next = x.here.succ then .through l else .astray)
  | .inside n =>
    match f.code[n]? with
    | some i => .ok (f.execute m x i)
    | none => .error (if n = f.code.length ∧ x.next = x.here.succ then .falls else .astray)

end Fragment

end Multiway
