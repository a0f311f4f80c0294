import Multiway.Proofs.Execution.Processor

/-!
# What code leaves alone

An instruction writes one register at most. All other registers are the same after it, and after any
number of steps in a fragment if none of its instructions writes them.
-/
namespace Multiway

namespace Instruction

def dest? : Instruction → Option Register
  | setHigh _ dest => some dest
  | or _ _ dest => some dest
  | load _ _ _ dest => some dest
  | _ => none

theorem read_effect {i : Instruction} {r : Register} (h : i.dest? ≠ some r) (m : Memory)
    (p : Processor) : (i.effect m p).read r = p.read r := by
  have other {dest : Register} (h : some dest ≠ some r) (v : BitVec 64) :
      (p.write dest v).read r = p.read r :=
    p.read_write_of_ne (fun same => h (by rw [same])) v
  cases i with
  | setHigh value dest => exact other h _
  | or left right dest => exact other h _
  | load width base offset dest => exact other h _
  | compare left right => rfl
  | branch | fused | nop => rfl

end Instruction

namespace Fragment

variable {f : Fragment} {m : Memory} {x y : Execution} {r : Register}

theorem read_execute {i : Instruction} (h : i.dest? ≠ some r) :
    (f.execute m x i).processor.read r = x.processor.read r := by
  cases i with
  | branch =>
    simp only [execute]
    split_ifs <;> rfl
  | fused =>
    simp only [execute]
    split_ifs <;> rfl
  | compare | setHigh | or | load | nop => exact Instruction.read_effect h m x.processor

theorem read_step (unwritten : ∀ i ∈ f.code, i.dest? ≠ some r) (taken : f.step m x = .ok y) :
    y.processor.read r = x.processor.read r := by
  unfold step at taken
  split at taken
  · contradiction
  · split at taken
    · next i found =>
      cases taken
      exact read_execute (unwritten i (List.mem_of_getElem? found))
    · contradiction

/-- A register that no instruction writes is never changed. -/
theorem read_path (unwritten : ∀ i ∈ f.code, i.dest? ≠ some r) {n : ℕ}
    (path : Path (f.step m) n x y) : y.processor.read r = x.processor.read r := by
  induction path with
  | stay x => rfl
  | step taken _ ih => exact ih.trans (read_step unwritten taken)

end Fragment

end Multiway
