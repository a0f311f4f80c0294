import Multiway.Proofs.Lowering.Block
import Multiway.Proofs.Lowering.Load
import Multiway.Proofs.Machine.Comparison

/-!
# Execution of a comparison

A load plan leaves its key in the scratch register. Then a comparison arrives at its target or at
its end, in its shorter form and in its longer one, and it goes to the target exactly if the value
compares so to the key. It changes nothing but the scratch register and the flags.
-/
namespace Multiway

/-- Whether a dispatched value compares to the key in a certain way. An immediate key is compared at
the width of the value, a pooled one at its own width. -/
def Key.compares (width : Width) (condition : Condition) (x : BitVec 64) : Key → Bool
  | .immediate value =>
    condition.holds (x.setWidth width.bits) (BitVec.ofInt width.bits value.toInt)
  | .word bits => condition.holds (x.setWidth 32) bits
  | .extended bits => condition.holds x bits

theorem setWidth_bits_ofInt (w : Width) (v : ℤ) :
    (BitVec.ofInt 64 v).setWidth w.bits = BitVec.ofInt w.bits v := by
  apply BitVec.eq_of_toNat_eq
  rw [BitVec.toNat_setWidth, BitVec.toNat_ofInt, BitVec.toNat_ofInt]
  cases w with
  | word =>
    show (v % (18446744073709551616 : ℕ)).toNat % 4294967296 = (v % (4294967296 : ℕ)).toNat
    omega
  | xword =>
    show (v % (18446744073709551616 : ℕ)).toNat % 18446744073709551616 =
      (v % (18446744073709551616 : ℕ)).toNat
    omega

namespace Emission

/-- Whether the dispatched value compares in a certain way to the key of this index. -/
def holds (e : Emission) (x : BitVec 64) (index : ℕ) (condition : Condition) : Bool :=
  e.keys[index]?.any (·.compares e.width condition x)

/-- What the check of a switch establishes. -/
structure Checked (e : Emission) : Prop where
  scratch_ne_zero : ¬e.scratch.isZero
  value_ne_scratch : e.value ≠ e.scratch
  immediates : ∀ {value : Int32}, .immediate value ∈ e.keys →
    FitsSigned Key.immediateBits value.toInt

/-- The second processor differs from the first one in the scratch register and in flags only. -/
def Agrees (e : Emission) (p q : Processor) : Prop := ∀ r, r ≠ e.scratch → q.read r = p.read r

variable {e : Emission} {pool : ConstantPool} {m : Memory} {p q : Processor} {f : Fragment} {n : ℕ}

/-- A load plan leaves its key in the scratch register. -/
theorem Loads.effect (checked : e.Checked) (base : e.base ≠ e.scratch) (sound : pool.Sound)
    (small : pool.size < modulus 32) (memory : m.HoldsPool (p.read e.base) pool) {key : Key}
    {plan : LoadPlan} (loads : e.Loads pool key plan) (agrees : e.Agrees p q) :
    plan.instructions.all (·.isPlain) ∧ e.Agrees p (q.after m plan.instructions) ∧
      ∀ c, key.constant? = some c → (q.after m plan.instructions).read e.scratch = c.bits := by
  unfold Loads at loads
  cases constant : key.constant? with
  | none =>
    simp only [constant] at loads
    subst loads
    exact ⟨rfl, agrees, fun c h => by contradiction⟩
  | some c =>
    simp only [constant] at loads
    obtain ⟨-, o, held, rfl⟩ := loads
    have inside := sound.lt_size held
    obtain ⟨others, scratch⟩ := LoadPlan.after_atOffset (m := m) (p := q) c.width
      checked.scratch_ne_zero base (inside.trans small)
    refine ⟨LoadPlan.plain_atOffset .., ?_, ?_⟩
    · intro r hr
      rw [others r hr, agrees r hr]
    · rintro _ ⟨⟩
      rw [scratch, agrees _ base]
      exact Memory.number_of_offset? memory sound (Key.fits_constant constant) held

/-- The test of a comparison passes exactly if the value compares so to the key. -/
theorem passes_difference {key : Key} (bits : ℕ) (condition : Condition)
    (loaded : ∀ c, key.constant? = some c → q.read e.scratch = c.bits)
    (fits : ∀ value, key = .immediate value → FitsSigned (bits + 1) value.toInt) :
    condition.flagTest.passes (Processor.difference (q.read e.value)
      (q.operand (bits + 1) (e.operand key)) (e.codes key)) =
      key.compares e.width condition (q.read e.value) := by
  unfold Processor.difference
  rw [Condition.passes_ofDifference]
  cases key with
  | immediate value =>
    have field : q.operand (bits + 1) (.imm value.toInt) = BitVec.ofInt 64 value.toInt :=
      signExtend_ofInt (fits value rfl)
    simp only [operand, field, codes, Key.compares, setWidth_bits_ofInt]
    rw [CodeSet.width_codes]
  | word bits =>
    have scratch := loaded _ rfl
    simp only [operand, Processor.operand, scratch, codes, Key.compares]
    show condition.holds _ ((bits.setWidth 64).setWidth 32) = _
    rw [BitVec.setWidth_setWidth_of_le _ (by decide), BitVec.setWidth_eq]
    rfl
  | extended bits =>
    have scratch := loaded _ rfl
    simp only [operand, Processor.operand, scratch, codes, Key.compares]
    show condition.holds ((q.read e.value).setWidth 64) (bits.setWidth 64) = _
    rw [BitVec.setWidth_eq, BitVec.setWidth_eq]

section

variable {key : Key} {plan : LoadPlan} {condition : Condition} {l : Label} {padded : Bool}

/-- A comparison in its shorter form arrives at its target or at its end. -/
theorem path_comparison_fused (plain : plan.instructions.all (·.isPlain))
    (loaded : ∀ c, key.constant? = some c →
      (q.after m plan.instructions).read e.scratch = c.bits)
    (short : FitsFused key) (has : f.Has n (e.comparison plan key condition l true padded)) :
    ∃ k q', 0 < k ∧ (∀ r, q'.read r = (q.after m plan.instructions).read r) ∧
      Path (f.step m) k (.arriving q (.inside n)) (.arriving q'
        (if key.compares e.width condition ((q.after m plan.instructions).read e.value)
          then f.place l
          else .inside (n + (e.comparison plan key condition l true padded).length))) := by
  let pad : List Instruction := if padded then [.nop] else []
  have pad_plain : pad.all (·.isPlain) := by
    cases padded <;> rfl
  have pad_after : q.after m (plan.instructions ++ pad) = q.after m plan.instructions := by
    cases padded <;> simp [pad, Processor.after, Instruction.effect]
  have code : e.comparison plan key condition l true padded = (plan.instructions ++ pad) ++
      [.fused condition.flagTest (e.codes key) e.value (e.operand key) l] := by
    simp [comparison, pad]
  have length : (e.comparison plan key condition l true padded).length =
      (plan.instructions ++ pad).length + 1 := by
    rw [code, List.length_append]
    rfl
  rw [code, Fragment.has_append] at has
  obtain ⟨first, last⟩ := has
  have approach := Fragment.path_plain (m := m) (p := q) first
    (by rw [List.all_append, plain, pad_plain]; rfl)
  have decision := Fragment.path_fused (m := m) (p := q.after m (plan.instructions ++ pad)) last
  have test := passes_difference (e := e) 4 condition loaded (by
    rintro value rfl
    exact short)
  rw [pad_after] at approach decision
  rw [show fusedOperandBits = 4 + 1 from rfl, test] at decision
  rw [length, ← Nat.add_assoc]
  exact ⟨_, _, Nat.succ_pos _, fun _ => rfl, approach.trans decision⟩

/-- A comparison in its longer form arrives at its target or at its end. -/
theorem path_comparison_longer (plain : plan.instructions.all (·.isPlain))
    (loaded : ∀ c, key.constant? = some c →
      (q.after m plan.instructions).read e.scratch = c.bits)
    (fits : ∀ value, key = .immediate value → FitsSigned Key.immediateBits value.toInt)
    (has : f.Has n (e.comparison plan key condition l false padded)) :
    ∃ k q', 0 < k ∧ (∀ r, q'.read r = (q.after m plan.instructions).read r) ∧
      Path (f.step m) k (.arriving q (.inside n)) (.arriving q'
        (if key.compares e.width condition ((q.after m plan.instructions).read e.value)
          then f.place l
          else .inside (n + (e.comparison plan key condition l false padded).length))) := by
  let front := plan.instructions ++ [Instruction.compare e.value (e.operand key)]
  let q' := q.after m front
  have code : e.comparison plan key condition l false padded =
      front ++ [.branch (e.codes key) condition.flagTest true true l, .nop] := by
    simp [comparison, front]
  have compared : q' = { q.after m plan.instructions with
      flags := Processor.difference ((q.after m plan.instructions).read e.value)
        ((q.after m plan.instructions).operand operandBits (e.operand key)) } := by
    simp [q', front, Processor.after, Instruction.effect]
  have flags : condition.flagTest.passes (q'.flags (e.codes key)) =
      key.compares e.width condition ((q.after m plan.instructions).read e.value) := by
    rw [compared]
    exact passes_difference 12 condition loaded fits
  have reads (r : Register) : q'.read r = (q.after m plan.instructions).read r := by
    rw [compared]
    rfl
  have length : (e.comparison plan key condition l false padded).length = front.length + 2 := by
    rw [code, List.length_append]
    rfl
  rw [code, Fragment.has_append] at has
  obtain ⟨first, last⟩ := has
  have approach := Fragment.path_plain (m := m) (p := q) first
    (by rw [List.all_append, plain]; rfl)
  rw [length, ← Nat.add_assoc, ← flags]
  by_cases taken : condition.flagTest.passes (q'.flags (e.codes key)) = true
  · rw [if_pos taken]
    exact ⟨_, q', Nat.succ_pos _, reads, approach.trans (Fragment.path_branch_taken last taken)⟩
  · rw [if_neg taken]
    exact ⟨_, q', Nat.succ_pos _, reads, approach.trans (Fragment.path_branch_passed last taken)⟩

end

/-- The block of a test arrives at the target of the test or at its end. -/
theorem path_test (checked : e.Checked) (base : e.base ≠ e.scratch) (sound : pool.Sound)
    (small : pool.size < modulus 32) (memory : m.HoldsPool (p.read e.base) pool)
    (agrees : e.Agrees p q) {index : ℕ} {condition : Condition} {l : Label}
    {is : List Instruction} (lowers : e.Lowers pool (.test index condition l) is)
    (has : f.Has n is) :
    ∃ k q', 0 < k ∧ e.Agrees p q' ∧ Path (f.step m) k (.arriving q (.inside n)) (.arriving q'
      (if e.holds (p.read e.value) index condition then f.place l
        else .inside (n + is.length))) := by
  cases lowers with
  | @test _ key _ _ plan fused padded held loads short =>
    obtain ⟨plain, kept, loaded⟩ := loads.effect checked base sound small memory agrees
    have value := kept e.value checked.value_ne_scratch
    have decides : e.holds (p.read e.value) index condition =
        key.compares e.width condition ((q.after m plan.instructions).read e.value) := by
      rw [value, holds, held]
      rfl
    have arrives : ∃ k q', 0 < k ∧ (∀ r, q'.read r = (q.after m plan.instructions).read r) ∧
        Path (f.step m) k (.arriving q (.inside n)) (.arriving q'
          (if key.compares e.width condition ((q.after m plan.instructions).read e.value)
            then f.place l
            else .inside (n + (e.comparison plan key condition l fused padded).length))) := by
      cases fused with
      | true => exact path_comparison_fused plain loaded (short rfl) has
      | false =>
        refine path_comparison_longer plain loaded ?_ has
        rintro value rfl
        exact checked.immediates (Array.mem_of_getElem? held)
    obtain ⟨k, q', positive, reads, path⟩ := arrives
    rw [decides]
    exact ⟨k, q', positive, fun r hr => (reads r).trans (kept r hr), path⟩

theorem path_jump {l : Label} {is : List Instruction} (lowers : e.Lowers pool (.jump l) is)
    (has : f.Has n is) :
    Path (f.step m) 2 (.arriving q (.inside n)) (.arriving q (f.place l)) := by
  cases lowers
  exact Fragment.path_branch_taken has rfl

end Emission

end Multiway
