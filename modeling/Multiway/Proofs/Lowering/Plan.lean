import Multiway.Lowering.LoadPlan
import Mathlib.Tactic.Common

/-!
# Load plans of keys

What is emitted to load a key, and what becomes of the pool, depends on the key and the pool only.
It fails only for a pooled key without a base register.
-/
namespace Multiway

theorem LoadPlan.isNear_iff {offset : ℕ} : IsNear offset ↔ offset < modulus 12 := by
  unfold IsNear Key.immediateBits
  rw [fitsSigned_succ]
  omega

namespace Key

/-- The instructions that load a key, where the pool is what it is before. -/
def loadPlan (key : Key) (base scratch : Register) (p : ConstantPool) : LoadPlan :=
  match key.constant? with
  | none => {}
  | some c => .atOffset c.width base scratch (p.intern c).1

/-- The pool that holds a key's constant, if the key has one. -/
def reserve (key : Key) (p : ConstantPool) : ConstantPool :=
  match key.constant? with
  | none => p
  | some c => (p.intern c).2

theorem forKey_eq {key : Key} {base : Register} (h : key.isPooled → ¬base.isZero)
    (scratch : Register) (p : ConstantPool) :
    LoadPlan.forKey key base scratch p = .ok (key.loadPlan base scratch p, key.reserve p) := by
  unfold LoadPlan.forKey loadPlan reserve
  unfold isPooled at h
  cases constant : key.constant? with
  | none => rfl
  | some c =>
    have base : ¬base.isZero := h (by rw [constant]; rfl)
    simp only
    rw [if_neg base]

theorem eq_of_forKey {key : Key} {base scratch : Register} {p : ConstantPool} {plan : LoadPlan}
    {p' : ConstantPool} (h : LoadPlan.forKey key base scratch p = .ok (plan, p')) :
    plan = key.loadPlan base scratch p ∧ p' = key.reserve p := by
  unfold LoadPlan.forKey at h
  unfold loadPlan reserve
  cases constant : key.constant? with
  | none =>
    simp only [constant] at h
    cases h
    exact ⟨rfl, rfl⟩
  | some c =>
    simp only [constant] at h
    split_ifs at h
    simp only [Except.ok.injEq, Prod.mk.injEq] at h
    exact ⟨h.1.symm, h.2.symm⟩

/-- What loads a key is neither a comparison nor a branch. -/
def IsLoading : Instruction → Prop
  | .setHigh .. | .or .. | .load .. => True
  | _ => False

theorem isLoading_of_mem_atOffset {width : Width} {base scratch : Register} {offset : ℕ}
    {x : Instruction} (h : x ∈ (LoadPlan.atOffset width base scratch offset).instructions) :
    IsLoading x := by
  simp only [LoadPlan.atOffset] at h
  split_ifs at h
  · rw [List.mem_singleton.1 h]
    trivial
  · simp only [List.mem_cons, List.not_mem_nil, or_false] at h
    obtain rfl | rfl | rfl := h <;> trivial

theorem isLoading_of_mem_loadPlan {key : Key} {base scratch : Register} {p : ConstantPool}
    {x : Instruction} (h : x ∈ (key.loadPlan base scratch p).instructions) : IsLoading x := by
  unfold loadPlan at h
  cases constant : key.constant? with
  | none =>
    rw [constant] at h
    exact absurd h List.not_mem_nil
  | some c =>
    rw [constant] at h
    exact isLoading_of_mem_atOffset h

/-- The last instruction that loads a key is a load. -/
theorem getLast?_loadPlan (key : Key) (base scratch : Register) (p : ConstantPool) :
    (key.loadPlan base scratch p).isEmpty ∨ ∃ width offset,
      (key.loadPlan base scratch p).instructions.getLast? =
        some (.load width base offset scratch) := by
  unfold loadPlan
  cases key.constant? with
  | none => exact Or.inl rfl
  | some c =>
    right
    simp only [LoadPlan.atOffset]
    split_ifs
    · exact ⟨_, _, rfl⟩
    · exact ⟨_, _, rfl⟩

end Key

end Multiway
