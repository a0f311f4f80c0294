import Multiway.Proofs.Lowering.Block
import Multiway.Proofs.Lowering.Plan

/-!
# Where a fused branch stands

The place of a fused branch is told from the load plan and the last instruction before anything of
the comparison is emitted. A load leaves nothing in the way of a fused branch, so what has to be
looked at is the last instruction if there is no load. In this way the place that is told is the
one where the branch comes to stand.
-/
namespace Multiway

namespace Key

variable {key : Key} {base scratch : Register} {p : ConstantPool}

theorem isEmpty_loadPlan (key : Key) (base scratch : Register) (p : ConstantPool) :
    (key.loadPlan base scratch p).isEmpty = !key.isPooled := by
  unfold loadPlan isPooled
  cases key.constant? with
  | none => rfl
  | some c =>
    simp only [LoadPlan.isEmpty, LoadPlan.atOffset]
    split_ifs <;> rfl

theorem loadPlan_of_not_isPooled (h : key.isPooled = false) :
    key.loadPlan base scratch p = {} := by
  unfold isPooled at h
  unfold loadPlan
  rw [Option.isSome_eq_false_iff, Option.isNone_iff_eq_none] at h
  rw [h]

end Key

namespace CodeBuffer

variable {b : CodeBuffer}

theorem hazard_eq_delaySlot_iff :
    b.hazard = .delaySlot ↔ ∃ i, b.code.back? = some i ∧ i.hasDelaySlot := by
  unfold hazard
  cases b.code.back? with
  | none => simp
  | some i => cases i <;> simp [Instruction.hasDelaySlot, Instruction.isFused]

theorem hazard_eq_afterFused_iff :
    b.hazard = .afterFused ↔ ∃ i, b.code.back? = some i ∧ i.isFused := by
  unfold hazard
  cases b.code.back? with
  | none => simp
  | some i => cases i <;> simp [Instruction.hasDelaySlot, Instruction.isFused]

/-- Behind a load nothing stands in the way of a fused branch. -/
theorem hazard_emitAll_loadPlan (b : CodeBuffer) (key : Key) (base scratch : Register)
    (p : ConstantPool) :
    (b.emitAll (key.loadPlan base scratch p).instructions).hazard =
      if key.isPooled then .clear else b.hazard := by
  have empty := key.isEmpty_loadPlan base scratch p
  cases pooled : key.isPooled with
  | false =>
    rw [Key.loadPlan_of_not_isPooled pooled]
    rfl
  | true =>
    rw [pooled] at empty
    obtain none | ⟨width, offset, last⟩ := key.getLast?_loadPlan base scratch p
    · rw [none] at empty
      contradiction
    · rw [hazard, code_emitAll, ← Array.getLast?_toList, Array.toList_appendList,
        List.getLast?_append, last]
      rfl

end CodeBuffer

namespace Emission

variable {e : Emission} {key : Key} {condition : Condition} {target : Label} {d d' : Draft}

/-- The form that a comparison takes in a draft. -/
def fuses (e : Emission) (key : Key) (target : Label) (d : Draft) : Bool :=
  takesFused d.machine (d.code.hintFor target).2 (key.loadPlan e.base e.scratch d.pool)
    (d.code.hintFor target).1 key target

/-- What stands before a fused branch: the load of the key, or a `nop` behind another fused
branch. -/
def approach (e : Emission) (key : Key) (d : Draft) : List Instruction :=
  (key.loadPlan e.base e.scratch d.pool).instructions ++
    if !key.isPooled && d.code.hazard = .afterFused then [.nop] else []

/-- What a comparison emits where the draft is what it is before. -/
def comparisonIn (e : Emission) (key : Key) (condition : Condition) (target : Label) (d : Draft) :
    List Instruction :=
  if e.fuses key target d then
    e.approach key d ++ [.fused condition.flagTest (e.codes key) e.value (e.operand key) target]
  else
    (key.loadPlan e.base e.scratch d.pool).instructions ++ [.compare e.value (e.operand key),
      .branch (e.codes key) condition.flagTest true true target, .nop]

theorem comparisonIn_eq (e : Emission) (key : Key) (condition : Condition) (target : Label)
    (d : Draft) :
    e.comparisonIn key condition target d =
      e.comparison (key.loadPlan e.base e.scratch d.pool) key condition target
        (e.fuses key target d) (!key.isPooled && d.code.hazard = .afterFused) := by
  unfold comparisonIn comparison approach
  cases e.fuses key target d with
  | false => rfl
  | true => exact List.append_assoc _ _ _

/-- A comparison succeeds exactly if its key can be loaded, and then it has emitted its code. -/
theorem run_compare_eq_ok_iff :
    (e.compare key condition target).run d = .ok () d' ↔
      (key.isPooled → ¬e.base.isZero) ∧ d' = { d with
        code := (d.code.hintFor target).2.emitAll (e.comparisonIn key condition target d)
        pool := key.reserve d.pool } := by
  have padded : decide (((d.code.hintFor target).2.emitAll
      (key.loadPlan e.base e.scratch d.pool).instructions).hazard = .afterFused) =
        (!key.isPooled && decide (d.code.hazard = .afterFused)) := by
    rw [CodeBuffer.hazard_emitAll_loadPlan]
    cases key.isPooled
    · rfl
    · rfl
  rw [EStateM.run, compare_eq, comparisonIn_eq]
  constructor
  · intro h
    cases planned : LoadPlan.forKey key e.base e.scratch d.pool with
    | error error => simp [planned] at h
    | ok result =>
      obtain ⟨plan, pool⟩ := result
      obtain ⟨rfl, rfl⟩ := Key.eq_of_forKey planned
      simp only [planned, padded, EStateM.Result.ok.injEq, true_and] at h
      refine ⟨fun pooled zero => ?_, h.symm⟩
      obtain ⟨c, constant⟩ := Option.isSome_iff_exists.1 (show key.constant?.isSome from pooled)
      simp [LoadPlan.forKey, constant, zero] at planned
  · rintro ⟨loadable, rfl⟩
    simp only [Key.forKey_eq loadable, padded]
    rfl

/-- A comparison in its shorter form needs a machine that has it, a key that fits, and a place that
is no delay slot, from where the target is taken to be in reach. -/
theorem fuses_iff :
    e.fuses key target d ↔ d.machine.fusedBranches ∧ FitsFused key ∧
      ∃ probe, d.code.fusedPosition? (key.loadPlan e.base e.scratch d.pool) = some probe ∧
        (d.code.hintFor target).2.reaches d.machine probe (d.code.hintFor target).1 target := by
  have same : (d.code.hintFor target).2.fusedPosition? (key.loadPlan e.base e.scratch d.pool) =
      d.code.fusedPosition? (key.loadPlan e.base e.scratch d.pool) := rfl
  simp only [fuses, takesFused, Bool.and_eq_true, decide_eq_true_eq, same, and_assoc]
  rw [Option.any_eq_true]

/-- A fused branch stands where it is told to, unless that is a delay slot. -/
theorem fusedPosition?_eq_some_iff {probe : ℕ} :
    d.code.fusedPosition? (key.loadPlan e.base e.scratch d.pool) = some probe ↔
      (key.isPooled = false → d.code.hazard ≠ .delaySlot) ∧
        probe = (d.code.emitAll (e.approach key d)).position := by
  rw [CodeBuffer.position_emitAll, CodeBuffer.fusedPosition?, Key.isEmpty_loadPlan, approach,
    List.length_append, Nat.add_mul]
  cases key.isPooled with
  | true => simp [LoadPlan.size, LoadPlan.length, eq_comm]
  | false =>
    cases d.code.hazard <;>
      simp [LoadPlan.size, LoadPlan.length, instructionBytes, eq_comm, Nat.add_assoc]

/-- Nothing that stands before a fused branch is one. -/
theorem not_isFused_of_mem_approach {x : Instruction} (mem : x ∈ e.approach key d) :
    ¬x.isFused := by
  obtain mem | mem := List.mem_append.1 mem
  · have loading := Key.isLoading_of_mem_loadPlan mem
    cases x <;> simp_all [Key.IsLoading, Instruction.isFused]
  · split_ifs at mem
    · obtain rfl := List.mem_singleton.1 mem
      exact Bool.false_ne_true
    · contradiction

/-- The only fused branch of a comparison is the last instruction of its shorter form. -/
theorem eq_of_isFused {j : ℕ} {x : Instruction}
    (found : (e.comparisonIn key condition target d)[j]? = some x) (isFused : x.isFused) :
    e.fuses key target d ∧ j = (e.approach key d).length ∧
      x = .fused condition.flagTest (e.codes key) e.value (e.operand key) target := by
  unfold comparisonIn at found
  split_ifs at found with fuses
  · refine ⟨fuses, ?_⟩
    rw [List.getElem?_append] at found
    split_ifs at found with before
    · exact absurd isFused (not_isFused_of_mem_approach (List.mem_of_getElem? found))
    · obtain ⟨inside, last⟩ := List.getElem?_eq_some_iff.1 found
      simp only [List.length_singleton] at inside
      have first : j - (e.approach key d).length = 0 := by omega
      simp only [first, List.getElem_cons_zero] at last
      exact ⟨by omega, last.symm⟩
  · obtain mem | mem := List.mem_append.1 (List.mem_of_getElem? found)
    · have loading := Key.isLoading_of_mem_loadPlan mem
      cases x <;> simp_all [Key.IsLoading, Instruction.isFused]
    · simp only [List.mem_cons, List.not_mem_nil, or_false] at mem
      obtain rfl | rfl | rfl := mem <;> contradiction

end Emission

end Multiway
