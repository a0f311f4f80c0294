import Multiway.Proofs.Lowering.Comparison
import Multiway.Search.Bisection

/-!
# Values and keys

What a comparison with a key reads of a dispatched value depends on the kind of the key alone. Keys
of one kind are numbers that this reading is compared with, so a value matches at most one of them,
and it is found by their order. Keys of different kinds read different parts of the value, and
nothing keeps one value from matching two of them.
-/
namespace Multiway

/-- What a comparison with a key of this kind reads of a dispatched value: a signed number of the
width of the value for immediate keys, an unsigned number of their own width for pooled ones. -/
def KeyKind.reading (width : Width) (x : BitVec 64) : KeyKind → ℤ
  | immediate => (x.setWidth width.bits).toInt
  | word => (x.setWidth 32).toNat
  | extended => x.toNat

namespace Key

variable {width : Width} {x : BitVec 64} {j k : Key}

theorem compares_negate (width : Width) (c : Condition) (x : BitVec 64) (k : Key) :
    k.compares width c.negate x = !k.compares width c x := by
  cases k <;> exact Condition.holds_negate c _ _

/-- An immediate operand stands for its value at the width of the comparison. -/
theorem toInt_ofInt_immediate (width : Width) (value : Int32) :
    (BitVec.ofInt width.bits value.toInt).toInt = value.toInt := by
  have fits : FitsSigned 32 value.toInt := ⟨value.le_toInt, value.toInt_lt⟩
  cases width with
  | word => exact fits.toInt_ofInt
  | xword => exact (fits.mono (n := 64) (by decide)).toInt_ofInt

/-- A key is matched exactly by the values whose reading is its number. -/
theorem compares_equal_iff :
    k.compares width .equal x ↔ k.kind.reading width x = k.ordinal := by
  cases k with
  | immediate value =>
    show (_ == _) = true ↔ _ = value.toInt
    rw [beq_iff_eq, ← BitVec.toInt_inj, toInt_ofInt_immediate]
    rfl
  | word bits =>
    show (_ == _) = true ↔ ((_ : ℕ) : ℤ) = (bits.toNat : ℤ)
    rw [beq_iff_eq, ← BitVec.toNat_inj, Int.ofNat_inj]
  | extended bits =>
    show (_ == _) = true ↔ ((_ : ℕ) : ℤ) = (bits.toNat : ℤ)
    rw [beq_iff_eq, ← BitVec.toNat_inj, Int.ofNat_inj]

/-- A value lies beyond a key exactly if its reading is greater than the number of the key. -/
theorem compares_beyond_iff :
    k.compares width k.kind.beyond x ↔ k.ordinal < k.kind.reading width x := by
  cases k with
  | immediate value =>
    show BitVec.slt _ _ = true ↔ value.toInt < _
    rw [BitVec.slt_iff_toInt_lt, toInt_ofInt_immediate]
    rfl
  | word bits =>
    show BitVec.ult _ _ = true ↔ (bits.toNat : ℤ) < ((_ : ℕ) : ℤ)
    rw [BitVec.ult_iff_lt, BitVec.lt_def, Int.ofNat_lt]
  | extended bits =>
    show BitVec.ult _ _ = true ↔ (bits.toNat : ℤ) < ((_ : ℕ) : ℤ)
    rw [BitVec.ult_iff_lt, BitVec.lt_def, Int.ofNat_lt]

/-- A value matches at most one key of each kind. -/
theorem eq_of_compares_equal (kinds : j.kind = k.kind) (hj : j.compares width .equal x)
    (hk : k.compares width .equal x) : j = k := by
  rw [compares_equal_iff] at hj hk
  exact eq_of_kind_of_ordinal kinds (by rw [← hj, ← hk, kinds])

/-- Whether a value compares in a certain way to the key of an index. -/
def comparesAt (keys : Array Key) (width : Width) (x : BitVec 64) (index : ℕ)
    (condition : Condition) : Bool :=
  keys[index]?.any (·.compares width condition x)

theorem comparesAt_eq {keys : List Key} {index : ℕ} (found : keys[index]? = some k)
    (width : Width) (x : BitVec 64) (condition : Condition) :
    comparesAt keys.toArray width x index condition = k.compares width condition x := by
  simp [comparesAt, found]

end Key

/-- A comparison with a key that is there fails exactly if its negation holds. -/
theorem Emission.holds_notEqual {e : Emission} {x : BitVec 64} {index : ℕ}
    (h : index < e.keys.size) : e.holds x index .notEqual = !e.holds x index .equal := by
  simp only [holds, Array.getElem?_eq_getElem h, Option.any_some]
  exact Key.compares_negate e.width .equal x _

end Multiway
