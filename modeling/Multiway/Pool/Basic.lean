import Multiway.Pool.Constant
import Std.Data.ExtHashMap

/-!
# The constant pool

Constants that fit no immediate operand are kept in a region of memory which a base register
points to. A constant is stored once for each width at which it is asked for, at the next multiple
of that width, and the gaps are filled with zeros.

Rewinding cuts the region back to a former length and forgets the constants that began beyond it.
-/
namespace Multiway

/-- A region of constants and the offset of each of them. -/
structure ConstantPool where
  bytes : Array UInt8 := #[]
  offsets : Std.ExtHashMap Constant Nat := ∅

/-- A length that a pool can be cut back to. -/
structure ConstantPool.Mark where
  size : Nat
  deriving DecidableEq, Repr

/-- The least multiple of `unit` that is at least `n`. -/
def alignUp (n unit : Nat) : Nat := (n + unit - 1) / unit * unit

namespace ConstantPool

def empty : ConstantPool := {}

/-- The length of the region, in bytes. -/
def size (p : ConstantPool) : Nat := p.bytes.size

def isEmpty (p : ConstantPool) : Bool := p.bytes.isEmpty

def offset? (p : ConstantPool) (c : Constant) : Option Nat := p.offsets[c]?

/-- The offset of a constant, and the pool that holds it there. -/
def intern (p : ConstantPool) (c : Constant) : Nat × ConstantPool :=
  match p.offset? c with
  | some offset => (offset, p)
  | none =>
    let offset := alignUp p.size c.width.bytes
    let gap := Array.replicate (offset - p.size) 0
    (offset, { bytes := p.bytes ++ gap ++ c.bytes, offsets := p.offsets.insert c offset })

def mark (p : ConstantPool) : Mark := ⟨p.size⟩

/-- Cuts the pool back to a mark. -/
def rewind (p : ConstantPool) (m : Mark) : ConstantPool where
  bytes := p.bytes.take m.size
  offsets := p.offsets.filter fun _ offset => offset < m.size

/-- A constant that the pool holds is found again. -/
theorem intern_of_offset? {p : ConstantPool} {c : Constant} {offset : Nat}
    (h : p.offset? c = some offset) : p.intern c = (offset, p) := by
  simp [intern, h]

/-- After interning, the pool holds the constant at the offset returned. -/
@[simp] theorem offset?_intern (p : ConstantPool) (c : Constant) :
    (p.intern c).2.offset? c = some (p.intern c).1 := by
  cases h : p.offset? c with
  | some offset => simp [intern, h]
  | none => simp [intern, h]; simp [offset?]

end ConstantPool

theorem alignUp_dvd (n unit : Nat) : unit ∣ alignUp n unit := Nat.dvd_mul_left ..

theorem le_alignUp (n : Nat) {unit : Nat} (h : 0 < unit) : n ≤ alignUp n unit := by
  have := Nat.div_add_mod (n + unit - 1) unit
  have := Nat.mod_lt (n + unit - 1) h
  rw [alignUp, Nat.mul_comm]
  omega

/-- The gap before a slot is smaller than the slot's unit. -/
theorem alignUp_lt_add (n : Nat) {unit : Nat} (h : 0 < unit) : alignUp n unit < n + unit := by
  have := Nat.div_add_mod (n + unit - 1) unit
  rw [alignUp, Nat.mul_comm]
  omega

/-- A multiple of the unit stays where it is. -/
theorem alignUp_mul (k : Nat) {unit : Nat} (h : 0 < unit) :
    alignUp (k * unit) unit = k * unit := by
  have gap : (unit - 1) / unit = 0 := Nat.div_eq_of_lt (by omega)
  rw [alignUp, Nat.add_sub_assoc h, Nat.add_comm, Nat.add_mul_div_right _ _ h, gap, Nat.zero_add]

end Multiway
