import Multiway.Dispatch.Sink
import Multiway.Lowering.Reach

/-!
# Emission

This sink turns the requests of a strategy into code. A comparison has a shorter form, one fused
compare-and-branch, and a longer form: a compare instruction, an annulled branch that is predicted
taken, and a `nop` in its delay slot. The shorter form is chosen if the machine has it, the key
fits its operand, and its target is certain to be in reach from where the branch will stand.
-/
namespace Multiway

/-- What the comparisons of one multiway branch have in common. -/
structure Emission where
  keys : Array Key
  /-- The register that holds the dispatched value. -/
  value : Register
  /-- The width of the dispatched value. -/
  width : Width
  /-- The register that holds the address of the constant pool. -/
  base : Register
  /-- The register that pooled keys are loaded into. -/
  scratch : Register
  deriving DecidableEq, Repr

namespace Emission

/-- The width of the immediate operand of a fused branch. -/
def fusedImmediateBits : Nat := 5

/-- The operand that a key is compared as. -/
def operand (e : Emission) : Key → Operand
  | .immediate value => .imm value.toInt
  | .word _ | .extended _ => .reg e.scratch

/-- The condition codes that a comparison with a key is read from. -/
def codes (e : Emission) : Key → CodeSet
  | .immediate _ => e.width.codes
  | .word _ => Width.word.codes
  | .extended _ => Width.xword.codes

/-- Whether a key fits the operand of a fused branch. -/
def FitsFused : Key → Prop
  | .immediate value => FitsSigned fusedImmediateBits value.toInt
  | .word _ | .extended _ => True

instance : (key : Key) → Decidable (FitsFused key)
  | .immediate value => inferInstanceAs (Decidable (FitsSigned _ value.toInt))
  | .word _ | .extended _ => inferInstanceAs (Decidable True)

/-- Whether a comparison takes the shorter form after a load plan. -/
def takesFused (m : Machine) (b : CodeBuffer) (plan : LoadPlan) (hint : Hint) (key : Key)
    (target : Label) : Bool :=
  m.fusedBranches && decide (FitsFused key) &&
    (b.fusedPosition? plan).any fun probe => b.reaches m probe hint target

/-- Emits a comparison with a key and the branch on its outcome. -/
def compare (e : Emission) (key : Key) (condition : Condition) (target : Label) :
    EStateM Error Draft Unit := fun d =>
  let (hint, code) := d.code.hintFor target
  match LoadPlan.forKey key e.base e.scratch d.pool with
  | .error error => .error error { d with code }
  | .ok (plan, pool) =>
    let fused := takesFused d.machine code plan hint key target
    let test := condition.flagTest
    let loaded := code.emitAll plan.instructions
    let code :=
      if fused then loaded.emitFused test (e.codes key) e.value (e.operand key) target
      else loaded.emitAll
        [.compare e.value (e.operand key), .branch (e.codes key) test true true target, .nop]
    .ok () { d with code, pool }

/-- Emits code for requests. -/
def sink (e : Emission) : Sink Draft where
  test index condition target :=
    match e.keys[index]? with
    | some key => e.compare key condition target
    | none => throw (.noSuchKey index)
  jump target := modify fun d => { d with code := d.code.emitJump target }
  bind label := fun d =>
    match d.code.bind label with
    | .ok code => .ok () { d with code }
    | .error error => .error error d
  makeLabel := modifyGet fun d =>
    let (label, code) := d.code.localLabel
    (label, { d with code })

end Emission

end Multiway
