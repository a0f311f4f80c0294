import Multiway.Proofs.Execution.Straight
import Multiway.Proofs.Lowering.Block

/-!
# Loads from the constant pool

Where memory holds the bytes of a sound pool from the base register on, a load plan leaves its
constant in the scratch register and changes no other register. A near offset is the immediate
operand of the load. A far one is put together from its high 22 bits and its low ten, which is exact
as long as the pool ends below the first offset of more than 32 bits.
-/
namespace Multiway

/-- An immediate that fits its field is extended to the number that it stands for. -/
theorem signExtend_ofInt {n : ℕ} {v : ℤ} (h : FitsSigned (n + 1) v) :
    (BitVec.ofInt (n + 1) v).signExtend 64 = BitVec.ofInt 64 v := by
  rw [BitVec.signExtend, h.toInt_ofInt]

/-- High and low bits of a number of 32 bits make up the number. -/
theorem high_or_low {n : ℕ} (h : n < modulus 32) :
    (BitVec.ofNat 22 (n >>> 10)).setWidth 64 <<< 10 ||| BitVec.ofNat 64 (n % modulus 10) =
      BitVec.ofNat 64 n := by
  have h' : n < 4294967296 := h
  have low : n % 1024 < 1024 := Nat.mod_lt _ (by decide)
  apply BitVec.eq_of_toNat_eq
  rw [BitVec.toNat_or, BitVec.toNat_shiftLeft, BitVec.toNat_setWidth, BitVec.toNat_ofNat,
    BitVec.toNat_ofNat, BitVec.toNat_ofNat, Nat.shiftRight_eq_div_pow, Nat.shiftLeft_eq]
  show n / 1024 % 4194304 % 18446744073709551616 * 1024 % 18446744073709551616 |||
    n % 1024 % 18446744073709551616 = n % 18446744073709551616
  have high : n / 1024 % 4194304 % 18446744073709551616 * 1024 % 18446744073709551616 =
      1024 * (n / 1024) := by omega
  have rest : n % 1024 % 18446744073709551616 = n % 1024 := by omega
  have whole : n % 18446744073709551616 = 1024 * (n / 1024) + n % 1024 := by omega
  have joined : 1024 * (n / 1024) + n % 1024 = 1024 * (n / 1024) ||| n % 1024 :=
    Nat.two_pow_add_eq_or_of_lt (i := 10) low (n / 1024)
  rw [high, rest, whole, joined]

namespace Memory

/-- Memory holds the bytes of a pool from an address on. -/
def HoldsPool (m : Memory) (address : BitVec 64) (p : ConstantPool) : Prop :=
  ∀ {i : ℕ} {b : UInt8}, p.bytes[i]? = some b → m (address + BitVec.ofNat 64 i) = b

/-- Bytes that are cut out of a number make up the number again. -/
theorem number_eq {m : Memory} {address : BitVec 64} {v n : ℕ}
    (h : ∀ i < n, m (address + BitVec.ofNat 64 i) = UInt8.ofNat (v >>> (8 * (n - 1 - i)))) :
    m.number address n = v % modulus (8 * n) := by
  induction n generalizing v with
  | zero => simp [number, modulus, Nat.mod_one]
  | succ n ih =>
    have high : m.number address n = v / 256 % modulus (8 * n) := by
      apply ih
      intro i hi
      rw [h i (by omega), ← Nat.shiftRight_eq_div_pow v 8, ← Nat.shiftRight_add]
      congr 2
      omega
    have low : (m (address + BitVec.ofNat 64 n)).toNat = v % 256 := by
      rw [h n (by omega)]
      simp
    have whole : modulus (8 * (n + 1)) = 256 * modulus (8 * n) := by
      rw [Nat.mul_add, modulus_add, Nat.mul_comm]
      rfl
    rw [number, high, low, whole, Nat.mod_mul]
    omega

end Memory

/-- The pattern of a constant fits its width. -/
def Constant.Fits (c : Constant) : Prop := c.bits.toNat < modulus c.width.bits

theorem Key.fits_constant {key : Key} {c : Constant} (h : key.constant? = some c) : c.Fits := by
  cases key with
  | immediate value => contradiction
  | word bits =>
    cases h
    have := bits.isLt
    show (bits.setWidth 64).toNat < 4294967296
    rw [BitVec.toNat_setWidth]
    omega
  | extended bits =>
    cases h
    have := bits.isLt
    show bits.toNat < 18446744073709551616
    omega

theorem Constant.getElem?_bytes (c : Constant) {i : ℕ} (h : i < c.width.bytes) :
    c.bytes[i]? = some (UInt8.ofNat (c.bits.toNat >>> (8 * (c.width.bytes - 1 - i)))) := by
  simp [bytes, h]

/-- What a load reads at the offset of a constant is the constant. -/
theorem Memory.number_of_offset? {m : Memory} {address : BitVec 64} {p : ConstantPool}
    {c : Constant} {o : ℕ} (holds : m.HoldsPool address p) (sound : p.Sound) (fits : c.Fits)
    (held : p.offset? c = some o) :
    BitVec.ofNat 64 (m.number (address + BitVec.ofNat 64 o) c.width.bytes) = c.bits := by
  have number : m.number (address + BitVec.ofNat 64 o) c.width.bytes = c.bits.toNat := by
    rw [number_eq (v := c.bits.toNat), Nat.mod_eq_of_lt fits]
    intro i hi
    have content := sound.content held i hi
    rw [c.getElem?_bytes hi] at content
    rw [BitVec.add_assoc, ← BitVec.ofNat_add]
    exact holds content
  rw [number, BitVec.ofNat_toNat, BitVec.setWidth_eq]

namespace LoadPlan

variable {m : Memory} {p : Processor} {base scratch : Register} {o : ℕ}

/-- The instructions that build an offset too far for an immediate operand. -/
def offsetCode (scratch : Register) (o : ℕ) : List Instruction :=
  if IsNear o then []
  else [.setHighOf (o % modulus 32) scratch,
    .or scratch (.imm (o % modulus 32 % modulus 10 : ℕ)) scratch]

/-- The operand that an offset is loaded by. -/
def offsetOperand (scratch : Register) (o : ℕ) : Operand :=
  if IsNear o then .imm o else .reg scratch

/-- The plan builds the offset in an operand of its one load. -/
theorem instructions_atOffset (width : Width) (base scratch : Register) (o : ℕ) :
    (atOffset width base scratch o).instructions =
      offsetCode scratch o ++ [.load width base (offsetOperand scratch o) scratch] := by
  unfold atOffset offsetCode offsetOperand
  split_ifs <;> rfl

/-- The operand has the value of the offset, and only the scratch register has been changed. -/
theorem after_offsetCode (hs : ¬scratch.isZero) (hb : base ≠ scratch) (ho : o < modulus 32) :
    let q := p.after m (offsetCode scratch o)
    q.operand operandBits (offsetOperand scratch o) = BitVec.ofNat 64 o ∧
      q.read base = p.read base ∧ ∀ v, q.write scratch v = p.write scratch v := by
  unfold offsetCode offsetOperand
  split_ifs with near
  · have field : p.operand operandBits (.imm o) = BitVec.ofNat 64 o := signExtend_ofInt near
    exact ⟨field, rfl, fun v => rfl⟩
  · have field (q : Processor) : q.operand operandBits (.imm (o % modulus 10 : ℕ)) =
        BitVec.ofNat 64 (o % modulus 10) := by
      have low : o % modulus 10 < modulus 10 := Nat.mod_lt _ (modulus_pos 10)
      have h10 : modulus 10 ≤ modulus 12 := modulus_le (by decide)
      have fits : FitsSigned 13 ((o % modulus 10 : ℕ) : ℤ) := by
        rw [fitsSigned_succ]
        omega
      exact signExtend_ofInt fits
    simp only [Processor.after, List.foldl_cons, List.foldl_nil, Instruction.effect,
      Instruction.setHighOf, Nat.mod_eq_of_lt ho, field]
    refine ⟨?_, ?_, fun v => ?_⟩
    · show Processor.read _ scratch = _
      rw [Processor.read_write_self _ hs, Processor.read_write_self _ hs, high_or_low ho]
    · rw [Processor.read_write_of_ne _ hb, Processor.read_write_of_ne _ hb]
    · rw [Processor.write_write, Processor.write_write]

/-- The plan computes the address of the constant and loads from there. -/
theorem after_atOffset_eq (width : Width) (hs : ¬scratch.isZero) (hb : base ≠ scratch)
    (ho : o < modulus 32) :
    p.after m (atOffset width base scratch o).instructions = p.write scratch
      (BitVec.ofNat 64 (m.number (p.read base + BitVec.ofNat 64 o) width.bytes)) := by
  obtain ⟨operand, untouched, written⟩ := after_offsetCode (m := m) (p := p) hs hb ho
  rw [instructions_atOffset, Processor.after_append]
  show (Processor.after _ _ _).write scratch _ = _
  rw [operand, untouched, written]

theorem after_atOffset (width : Width) (hs : ¬scratch.isZero) (hb : base ≠ scratch)
    (ho : o < modulus 32) :
    (∀ r, r ≠ scratch →
      (p.after m (atOffset width base scratch o).instructions).read r = p.read r) ∧
    (p.after m (atOffset width base scratch o).instructions).read scratch =
      BitVec.ofNat 64 (m.number (p.read base + BitVec.ofNat 64 o) width.bytes) := by
  rw [after_atOffset_eq width hs hb ho]
  exact ⟨fun r hr => p.read_write_of_ne hr _, p.read_write_self hs _⟩

theorem plain_atOffset (width : Width) (base scratch : Register) (o : ℕ) :
    (atOffset width base scratch o).instructions.all (·.isPlain) := by
  unfold atOffset
  split_ifs <;> rfl

end LoadPlan

end Multiway
