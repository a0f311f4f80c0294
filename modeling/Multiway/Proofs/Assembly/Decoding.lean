import Multiway.Assembly.Instruction.Word
import Multiway.Proofs.Passes.Reach

/-!
# Reading words back

A word tells everything about the instruction that it encodes but the name of a label: a branch
tells the position that it goes to. The formats are told apart by their operation fields, and each
field is read from the bits that it was put into. No two fields overlap, so every one is recovered
as it was, an immediate if it fits.
-/
namespace Multiway

/-- What a word tells about an instruction. -/
inductive Decoded where
  | compare (left : Register) (right : Operand)
  | branch (codes : CodeSet) (test : FlagTest) (annul predictTaken : Bool) (destination : Int)
  | fused (test : FlagTest) (codes : CodeSet) (left : Register) (right : Operand)
      (destination : Int)
  | setHigh (value : ℕ) (dest : Register)
  | or (left : Register) (right : Operand) (dest : Register)
  | load (width : Width) (base : Register) (offset : Operand) (dest : Register)
  | nop
  deriving DecidableEq, Repr

/-! ## Fields -/

def FlagTest.ofCode? (c : BitVec 4) : Option FlagTest :=
  [never, equal, lessEqual, less, lessEqualUnsigned, carrySet, negative, overflowSet, always,
    notEqual, greater, greaterEqual, greaterUnsigned, carryClear, positive, overflowClear].find?
    (·.code = c)

/-- The condition codes that a field of a branch names. -/
def CodeSet.ofField? (f : BitVec 2) : Option CodeSet := [icc, xcc].find? (·.field = f)

/-- The condition codes that a bit of a fused branch names. -/
def CodeSet.ofExtended? (f : BitVec 1) : Option CodeSet := [icc, xcc].find? (·.isExtended = f)

def Width.ofLoadField? (f : BitVec 6) : Option Width := [word, xword].find? (·.loadField = f)

@[simp] theorem FlagTest.ofCode?_code (t : FlagTest) : ofCode? t.code = some t := by
  cases t <;> rfl

@[simp] theorem CodeSet.ofField?_field (c : CodeSet) : ofField? c.field = some c := by
  cases c <;> rfl

@[simp] theorem CodeSet.ofExtended?_isExtended (c : CodeSet) :
    ofExtended? c.isExtended = some c := by
  cases c <;> rfl

@[simp] theorem Width.ofLoadField?_loadField (w : Width) : ofLoadField? w.loadField = some w := by
  cases w <;> rfl

/-- Whether an operand fits a field of some number of bits if it is an immediate. -/
def Operand.Fits (bits : ℕ) : Operand → Prop
  | reg _ => True
  | imm value => FitsSigned bits value

instance (bits : ℕ) : (o : Operand) → Decidable (o.Fits bits)
  | .reg _ => inferInstanceAs (Decidable True)
  | .imm value => inferInstanceAs (Decidable (FitsSigned bits value))

namespace Word

open BitVec

/-- The register in the five bits from a place on. -/
def register (w : Word) (start : ℕ) : Register := ⟨(w.extractLsb' start 5).toFin⟩

/-- The operand in the low bits: a register, or a signed immediate of some number of bits. -/
def operand (w : Word) (bits : ℕ) : Operand :=
  if w.extractLsb' 13 1 = 1#1 then .imm (w.extractLsb' 0 bits).toInt else .reg (w.register 0)

/-- What a word tells whose operation field marks branches: a branch, or an instruction that sets
high bits. To set the register that reads as zero to zero is to do nothing. -/
def decodeBranch (position : ℕ) (w : Word) : Option Decoded :=
  if w.extractLsb' 22 3 = 0b100#3 then
    if w = ofSetHigh 0 .zero then some .nop
    else some (.setHigh (w.extractLsb' 0 22).toNat (w.register 25))
  else if w.extractLsb' 22 3 = 0b001#3 then do
    let codes ← CodeSet.ofField? (w.extractLsb' 20 2)
    let test ← FlagTest.ofCode? (w.extractLsb' 25 4)
    let distance := (w.extractLsb' 0 19).toInt * instructionBytes
    some (.branch codes test (w.extractLsb' 29 1 = 1#1) (w.extractLsb' 19 1 = 1#1)
      (position + distance))
  else if w.extractLsb' 22 3 = 0b011#3 ∧ w.extractLsb' 28 1 = 1#1 then do
    let codes ← CodeSet.ofExtended? (w.extractLsb' 21 1)
    let test ← FlagTest.ofCode? (w.extractLsb' 29 1 ++ w.extractLsb' 25 3)
    let distance := (w.extractLsb' 19 2 ++ w.extractLsb' 5 8).toInt * instructionBytes
    some (.fused test codes (w.register 14) (w.operand 5) (position + distance))
  else none

/-- What a word at a position tells, if it encodes an instruction at all. -/
def decode (position : ℕ) (w : Word) : Option Decoded :=
  if w.extractLsb' 30 2 = 0#2 then w.decodeBranch position
  else if w.extractLsb' 30 2 = 2#2 then
    if w.extractLsb' 19 6 = 0x14#6 ∧ w.extractLsb' 25 5 = Register.zero.field then
      some (.compare (w.register 14) (w.operand 13))
    else if w.extractLsb' 19 6 = 0x02#6 then
      some (.or (w.register 14) (w.operand 13) (w.register 25))
    else none
  else if w.extractLsb' 30 2 = 3#2 then
    (Width.ofLoadField? (w.extractLsb' 19 6)).map fun width =>
      .load width (w.register 14) (w.operand 13) (w.register 25)
  else none

theorem register_eq {w : Word} {start : ℕ} {r : Register}
    (field : w.extractLsb' start 5 = r.field) : w.register start = r := by
  rw [register, field]
  rfl

theorem operand_reg {w : Word} {bits : ℕ} {r : Register} (mark : w.extractLsb' 13 1 = 0#1)
    (field : w.extractLsb' 0 5 = r.field) : w.operand bits = .reg r := by
  rw [operand, mark, if_neg (by decide), register_eq field]

theorem operand_imm {w : Word} {bits : ℕ} {value : Int} (fits : FitsSigned (bits + 1) value)
    (mark : w.extractLsb' 13 1 = 1#1)
    (field : w.extractLsb' 0 (bits + 1) = BitVec.ofInt (bits + 1) value) :
    w.operand (bits + 1) = .imm value := by
  rw [operand, mark, if_pos rfl, field, fits.toInt_ofInt]

theorem fields_format3 (op : BitVec 2) (dest : Register) (operation : BitVec 6) (left : Register)
    (right : Operand) :
    let w := format3 op dest operation left right
    w.extractLsb' 30 2 = op ∧ w.extractLsb' 25 5 = dest.field ∧ w.extractLsb' 19 6 = operation ∧
      w.extractLsb' 14 5 = left.field := by
  intro w
  unfold w format3
  refine ⟨?_, ?_, ?_, ?_⟩
  all_goals
    simp (disch := omega) only [extractLsb'_append_eq_of_le, extractLsb'_append_eq_of_add_le,
      Nat.reduceSub, extractLsb'_eq_self]

theorem operand_format3 (op : BitVec 2) (dest : Register) (operation : BitVec 6)
    (left : Register) {right : Operand} (fits : right.Fits 13) :
    (format3 op dest operation left right).operand 13 = right := by
  cases right with
  | reg r =>
    apply operand_reg
    all_goals
      unfold format3 Operand.field
      simp (disch := omega) only [extractLsb'_append_eq_of_le, extractLsb'_append_eq_of_add_le,
        Nat.reduceSub, extractLsb'_eq_self]
    rfl
  | imm value =>
    apply operand_imm fits
    all_goals
      unfold format3 Operand.field
      simp (disch := omega) only [extractLsb'_append_eq_of_le, extractLsb'_append_eq_of_add_le,
        Nat.reduceSub, extractLsb'_eq_self]

theorem fields_ofBranch (codes : CodeSet) (test : FlagTest) (annul predictTaken : Bool)
    (d : BitVec 19) :
    let w := ofBranch codes test annul predictTaken d
    w.extractLsb' 30 2 = 0#2 ∧ w.extractLsb' 29 1 = BitVec.ofBool annul ∧
      w.extractLsb' 25 4 = test.code ∧ w.extractLsb' 22 3 = 0b001#3 ∧
      w.extractLsb' 20 2 = codes.field ∧ w.extractLsb' 19 1 = BitVec.ofBool predictTaken ∧
      w.extractLsb' 0 19 = d := by
  intro w
  unfold w ofBranch
  refine ⟨?_, ?_, ?_, ?_, ?_, ?_, ?_⟩
  all_goals
    simp (disch := omega) only [extractLsb'_append_eq_of_le, extractLsb'_append_eq_of_add_le,
      Nat.reduceSub, extractLsb'_eq_self]

theorem fields_ofFused (test : FlagTest) (codes : CodeSet) (left : Register) (right : Operand)
    (d : BitVec 10) :
    let w := ofFused test codes left right d
    w.extractLsb' 30 2 = 0#2 ∧ w.extractLsb' 29 1 ++ w.extractLsb' 25 3 = test.code ∧
      w.extractLsb' 28 1 = 1#1 ∧ w.extractLsb' 22 3 = 0b011#3 ∧
      w.extractLsb' 21 1 = codes.isExtended ∧ w.extractLsb' 19 2 ++ w.extractLsb' 5 8 = d ∧
      w.extractLsb' 14 5 = left.field ∧ w.extractLsb' 13 1 = right.isImmediate ∧
      w.extractLsb' 0 5 = right.shortField := by
  intro w
  unfold w ofFused
  refine ⟨?_, ?_, ?_, ?_, ?_, ?_, ?_, ?_, ?_⟩
  all_goals
    simp (disch := omega) only [extractLsb'_append_eq_of_le, extractLsb'_append_eq_of_add_le,
      Nat.reduceSub, extractLsb'_eq_self, extractLsb'_append_extractLsb']

theorem fields_ofSetHigh (value : BitVec 22) (dest : Register) :
    let w := ofSetHigh value dest
    w.extractLsb' 30 2 = 0#2 ∧ w.extractLsb' 25 5 = dest.field ∧
      w.extractLsb' 22 3 = 0b100#3 ∧ w.extractLsb' 0 22 = value := by
  intro w
  unfold w ofSetHigh
  refine ⟨?_, ?_, ?_, ?_⟩
  all_goals
    simp (disch := omega) only [extractLsb'_append_eq_of_le, extractLsb'_append_eq_of_add_le,
      Nat.reduceSub, extractLsb'_eq_self]

/-! ## Words of instructions -/

variable (position : ℕ)

theorem decode_compare {left : Register} {right : Operand} (fits : right.Fits 13) :
    (format3 2 .zero 0x14 left right).decode position = some (.compare left right) := by
  obtain ⟨op, dest, operation, field⟩ := fields_format3 2 .zero 0x14 left right
  rw [decode, op, if_neg (by decide), if_pos (by decide), operation, dest, if_pos ⟨rfl, rfl⟩,
    register_eq field, operand_format3 _ _ _ _ fits]

theorem decode_or {left dest : Register} {right : Operand} (fits : right.Fits 13) :
    (format3 2 dest 0x02 left right).decode position = some (.or left right dest) := by
  obtain ⟨op, field, operation, field'⟩ := fields_format3 2 dest 0x02 left right
  rw [decode, op, if_neg (by decide), if_pos (by decide), operation,
    if_neg (fun h => absurd h.1 (by decide)), if_pos (by decide), register_eq field,
    register_eq field', operand_format3 _ _ _ _ fits]

theorem decode_load {width : Width} {base dest : Register} {offset : Operand}
    (fits : offset.Fits 13) :
    (format3 3 dest width.loadField base offset).decode position =
      some (.load width base offset dest) := by
  obtain ⟨op, field, operation, field'⟩ := fields_format3 3 dest width.loadField base offset
  rw [decode, op, if_neg (by decide), if_neg (by decide), if_pos (by decide), operation,
    Width.ofLoadField?_loadField, register_eq field, register_eq field',
    operand_format3 _ _ _ _ fits]
  rfl

theorem decode_branch (codes : CodeSet) (test : FlagTest) (annul predictTaken : Bool) {n : Int}
    (fits : FitsSigned 19 n) :
    (ofBranch codes test annul predictTaken (BitVec.ofInt 19 n)).decode position =
      some (.branch codes test annul predictTaken (position + n * instructionBytes)) := by
  obtain ⟨op, annulled, code, operation, field, predicted, distance⟩ :=
    fields_ofBranch codes test annul predictTaken (BitVec.ofInt 19 n)
  rw [decode, op, if_pos rfl, decodeBranch, operation, if_neg (by decide), if_pos rfl, field, code,
    annulled, predicted, distance, fits.toInt_ofInt]
  simp only [CodeSet.ofField?_field, FlagTest.ofCode?_code]
  cases annul <;> cases predictTaken <;> rfl

theorem decode_fused (test : FlagTest) (codes : CodeSet) (left : Register) {right : Operand}
    (fits : right.Fits 5) {n : Int} (near : FitsSigned 10 n) :
    (ofFused test codes left right (BitVec.ofInt 10 n)).decode position =
      some (.fused test codes left right (position + n * instructionBytes)) := by
  obtain ⟨op, code, bit, operation, field, distance, register, mark, value⟩ :=
    fields_ofFused test codes left right (BitVec.ofInt 10 n)
  have operand : (ofFused test codes left right (BitVec.ofInt 10 n)).operand 5 = right := by
    cases right with
    | reg r => exact operand_reg mark value
    | imm v => exact operand_imm fits mark value
  rw [decode, op, if_pos rfl, decodeBranch, operation, if_neg (by decide), if_neg (by decide), bit,
    if_pos ⟨rfl, rfl⟩, field, code, distance, near.toInt_ofInt, register_eq register, operand]
  simp only [CodeSet.ofExtended?_isExtended, FlagTest.ofCode?_code]
  rfl

theorem decode_setHigh {value : ℕ} (small : value < modulus 22) (dest : Register) :
    (ofSetHigh (BitVec.ofNat 22 value) dest).decode position =
      some (if value = 0 ∧ dest = .zero then .nop else .setHigh value dest) := by
  obtain ⟨op, field, operation, low⟩ := fields_ofSetHigh (BitVec.ofNat 22 value) dest
  have number : (BitVec.ofNat 22 value).toNat = value := by
    rw [BitVec.toNat_ofNat]
    exact Nat.mod_eq_of_lt small
  have zero : ofSetHigh (BitVec.ofNat 22 value) dest = ofSetHigh 0 .zero ↔
      value = 0 ∧ dest = .zero := by
    constructor
    · intro same
      obtain ⟨-, field', -, low'⟩ := fields_ofSetHigh 0 .zero
      rw [← same] at field' low'
      refine ⟨?_, ?_⟩
      · rw [← number, ← low, low']
        rfl
      · rw [← register_eq field, register_eq field']
    · rintro ⟨rfl, rfl⟩
      rfl
  rw [decode, op, if_pos rfl, decodeBranch, operation, if_pos rfl, register_eq field, low, number]
  simp only [zero]
  split_ifs <;> rfl

end Word

end Multiway
