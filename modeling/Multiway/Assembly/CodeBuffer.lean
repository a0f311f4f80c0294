import Multiway.Assembly.Hint
import Multiway.Assembly.Instruction
import Multiway.Error
import Std.Data.ExtHashMap

/-!
# Code buffers

Code is emitted into a buffer from front to back. Labels are bound to positions in it, at most once
in a pass. Code may be emitted in several passes over the same labels, and each pass leaves hints
about branch distances to the next.

Local labels are those whose only identity is the order in which a pass asks for them: the `n`th
one is the same label in every pass.
-/
namespace Multiway

/-- Code under construction. -/
structure CodeBuffer where
  /-- The instructions emitted in this pass. -/
  code : Array Instruction := #[]
  /-- The position of each label, if the label is bound in this pass. -/
  positions : Array (Option Nat) := #[]
  /-- The labels bound in this pass, in the order in which that happened. -/
  bindings : Array Label := #[]
  /-- The hints about labels asked for in this pass. -/
  hints : Std.ExtHashMap Label Hint := ∅
  /-- The complete hints of earlier passes. -/
  measured : Std.ExtHashMap Label Hint := ∅
  /-- The local labels, in the order in which passes ask for them. -/
  locals : Array Label := #[]
  /-- How many local labels this pass has asked for. -/
  localsUsed : Nat := 0

/-- What stands in the way of a fused branch at the end of the code. -/
inductive Hazard where
  /-- Nothing does. -/
  | clear
  /-- The last instruction is a fused branch, and the two have to be separated. -/
  | afterFused
  /-- The last instruction has a delay slot, in which no branch may stand. -/
  | delaySlot
  deriving DecidableEq, Repr

namespace CodeBuffer

def empty : CodeBuffer := {}

/-- The position of the next instruction, in bytes. -/
def position (b : CodeBuffer) : Nat := b.code.size * instructionBytes

def labelCount (b : CodeBuffer) : Nat := b.positions.size

def position? (b : CodeBuffer) (l : Label) : Option Nat := b.positions[l.index]?.join

/-! ## Labels and hints -/

/-- A new label without a position. -/
def newLabel (b : CodeBuffer) : Label × CodeBuffer :=
  (⟨b.positions.size⟩, { b with positions := b.positions.push none })

/-- The next local label of this pass, made anew if no earlier pass got that far. -/
def localLabel (b : CodeBuffer) : Label × CodeBuffer :=
  match b.locals[b.localsUsed]? with
  | some l => (l, { b with localsUsed := b.localsUsed + 1 })
  | none =>
    let (l, b) := b.newLabel
    (l, { b with locals := b.locals.push l, localsUsed := b.localsUsed + 1 })

/-- Binds a label to the present position, and completes the hint about it. -/
def bind (b : CodeBuffer) (l : Label) : Except Error CodeBuffer :=
  match b.positions[l.index]? with
  | none => .error (.unknownLabel l)
  | some (some _) => .error (.alreadyBound l)
  | some none =>
    let here := some b.position
    .ok { b with
      positions := b.positions.setIfInBounds l.index here
      bindings := b.bindings.push l
      hints := b.hints.modify l fun hint => { hint with target := here } }

/-- The best hint about a label: the one measured in an earlier pass, else that of this pass, which
begins with the first question. -/
def hintFor (b : CodeBuffer) (l : Label) : Hint × CodeBuffer :=
  let current := b.hints[l]?.getD ⟨b.position, b.position? l⟩
  (b.measured[l]?.getD current, { b with hints := b.hints.insert l current })

/-! ## Emission -/

def emit (b : CodeBuffer) (i : Instruction) : CodeBuffer := { b with code := b.code.push i }

def emitAll (b : CodeBuffer) (is : List Instruction) : CodeBuffer := is.foldl emit b

/-- What stands in the way of a fused branch at the present position. -/
def hazard (b : CodeBuffer) : Hazard :=
  match b.code.back? with
  | some i => if i.hasDelaySlot then .delaySlot else if i.isFused then .afterFused else .clear
  | none => .clear

/-- Appends a `nop` if the last instruction is a fused branch. -/
def separateFused (b : CodeBuffer) : CodeBuffer :=
  match b.hazard with
  | .afterFused => b.emit .nop
  | _ => b

/-- Appends a fused branch, apart from one that stands before it. -/
def emitFused (b : CodeBuffer) (test : FlagTest) (codes : CodeSet) (left : Register)
    (right : Operand) (target : Label) : CodeBuffer :=
  b.separateFused.emit (.fused test codes left right target)

/-- Appends an unconditional branch and fills its delay slot. -/
def emitJump (b : CodeBuffer) (target : Label) : CodeBuffer :=
  (b.emit (.jump target)).emit .nop

def mentions (b : CodeBuffer) (r : Register) : Bool := b.code.any (·.mentions r)

@[simp] theorem code_emit (b : CodeBuffer) (i : Instruction) :
    (b.emit i).code = b.code.push i := rfl

@[simp] theorem position_emit (b : CodeBuffer) (i : Instruction) :
    (b.emit i).position = b.position + instructionBytes := by
  simp [position, Nat.add_mul]

@[simp] theorem code_emitAll (b : CodeBuffer) (is : List Instruction) :
    (b.emitAll is).code = b.code ++ is := by
  induction is generalizing b with
  | nil => simp [emitAll]
  | cons i is ih => simp only [emitAll, List.foldl_cons] at ih ⊢; simp [ih]

end CodeBuffer

end Multiway
