import Multiway.Proofs.Execution.Processor

/-!
# Straight code and branches

How a processor gets through the pieces that code is made of: instructions that are executed one
after the other, and branches at their end. Each piece is found in a fragment at an index, and leads
from the arrival at that index to the arrival at another place.
-/
namespace Multiway

/-- Control passes from the instruction to the next one. -/
def Instruction.isPlain : Instruction → Bool
  | .branch .. | .fused .. => false
  | _ => true

/-- What plain instructions do to registers and flags. -/
def Processor.after (m : Memory) (p : Processor) (is : List Instruction) : Processor :=
  is.foldl (Instruction.effect m) p

theorem Processor.after_append (m : Memory) (p : Processor) (is js : List Instruction) :
    p.after m (is ++ js) = (p.after m is).after m js := List.foldl_append

namespace Fragment

variable {f : Fragment} {m : Memory} {p : Processor} {n : ℕ}

/-- The instructions stand in the fragment from an index on. -/
def Has (f : Fragment) : ℕ → List Instruction → Prop
  | _, [] => True
  | n, i :: is => f.code[n]? = some i ∧ f.Has (n + 1) is

theorem has_append {is js : List Instruction} :
    f.Has n (is ++ js) ↔ f.Has n is ∧ f.Has (n + is.length) js := by
  induction is generalizing n with
  | nil => simp [Has]
  | cons i is ih =>
    simp only [List.cons_append, Has, ih, List.length_cons, and_assoc]
    rw [Nat.add_right_comm, Nat.add_assoc]

/-- A fragment has what its code is made of. -/
theorem has_of_code_eq {before is rest : List Instruction} (h : f.code = before ++ is ++ rest) :
    f.Has before.length is := by
  induction is generalizing before with
  | nil => trivial
  | cons i is ih =>
    refine ⟨by simp [h], ?_⟩
    have later : f.code = (before ++ [i]) ++ is ++ rest := by
      simp [h]
    simpa using ih later

theorem step_arriving {i : Instruction} (h : f.code[n]? = some i) :
    f.step m (.arriving p (.inside n)) = .ok (f.execute m (.arriving p (.inside n)) i) := by
  simp [step, Execution.arriving, h]

theorem execute_plain {i : Instruction} (h : i.isPlain) (place : Place) :
    f.execute m (.arriving p place) i = .arriving (i.effect m p) place.succ := by
  cases i <;> simp_all [Instruction.isPlain, execute, Execution.arriving, Execution.advance]

theorem path_plain {is : List Instruction} (has : f.Has n is) (plain : is.all (·.isPlain)) :
    Path (f.step m) is.length (.arriving p (.inside n))
      (.arriving (p.after m is) (.inside (n + is.length))) := by
  induction is generalizing n p with
  | nil => exact .stay _
  | cons i is ih =>
    obtain ⟨first, rest⟩ := has
    simp only [List.all_cons, Bool.and_eq_true] at plain
    have once := step_arriving (m := m) (p := p) first
    rw [execute_plain plain.1] at once
    rw [List.length_cons, ← Nat.add_assoc, Nat.add_right_comm]
    exact .step once (ih rest plain.2)

/-- A branch that is taken, with nothing to do in its delay slot. -/
theorem path_branch_taken {codes : CodeSet} {test : FlagTest} {annul hint : Bool} {l : Label}
    (has : f.Has n [.branch codes test annul hint l, .nop]) (passes : test.passes (p.flags codes)) :
    Path (f.step m) 2 (.arriving p (.inside n)) (.arriving p (f.place l)) := by
  obtain ⟨first, second, -⟩ := has
  have taken := step_arriving (m := m) (p := p) first
  refine .step taken (.step ?_ (.stay _))
  simp [execute, Execution.arriving, passes, step, Place.succ, second, Execution.advance,
    Instruction.effect]

/-- A branch that is not taken skips its delay slot if it is annulled. -/
theorem path_branch_passed {codes : CodeSet} {test : FlagTest} {hint : Bool} {l : Label}
    (has : f.Has n [.branch codes test true hint l, .nop])
    (passes : ¬test.passes (p.flags codes)) :
    Path (f.step m) 1 (.arriving p (.inside n)) (.arriving p (.inside (n + 2))) := by
  obtain ⟨first, -⟩ := has
  have passed := step_arriving (m := m) (p := p) first
  refine .step passed ?_
  simp only [execute, Execution.arriving, passes, Execution.advance, Place.succ]
  exact .stay _

theorem path_fused {codes : CodeSet} {test : FlagTest} {left : Register} {right : Operand}
    {l : Label} (has : f.Has n [.fused test codes left right l]) :
    Path (f.step m) 1 (.arriving p (.inside n))
      (.arriving p
        (if test.passes
          (Processor.difference (p.read left) (p.operand fusedOperandBits right) codes)
        then f.place l else .inside (n + 1))) := by
  obtain ⟨first, -⟩ := has
  have once := step_arriving (m := m) (p := p) first
  refine .step once ?_
  by_cases passes : test.passes
      (Processor.difference (p.read left) (p.operand fusedOperandBits right) codes)
  · simp only [execute, Execution.arriving, passes, if_true]
    exact .stay _
  · simp only [execute, Execution.arriving, passes, Execution.advance, Place.succ]
    exact .stay _

end Fragment

end Multiway
