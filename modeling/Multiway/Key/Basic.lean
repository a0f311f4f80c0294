import Multiway.Error
import Multiway.Machine.Immediate
import Multiway.Number.Binary64
import Multiway.Pool.Constant

/-!
# Keys

A key is a constant that the dispatched value is compared with. Small keys are immediate operands
of the comparison. Words and extended words are pooled: they are loaded from the constant pool
before they are compared.
-/
namespace Multiway

/-- A constant that the dispatched value is compared with. -/
inductive Key where
  | immediate (value : Int32)
  | word (bits : BitVec 32)
  | extended (bits : BitVec 64)
  deriving DecidableEq, Repr

/-- How a key is compared. Keys of one kind have a common order. -/
inductive KeyKind where
  | immediate
  | word
  | extended
  deriving DecidableEq, Repr

namespace Key

/-- The width of the immediate operand of a comparison. -/
def immediateBits : Nat := 13

/-- The greatest signed number of 64 bits. -/
def greatestSigned : Int := modulus 63 - 1

/-- The immediate key of a value; values beyond 64 bits are reported as the greatest signed
number. -/
def ofInt (value : Int) : Except Error Key :=
  if FitsSigned 64 value then
    if FitsSigned immediateBits value then .ok (.immediate (Int32.ofInt value))
    else .error (.immediateTooWide value)
  else .error (.immediateTooWide greatestSigned)

/-- The immediate key of a double, truncated towards zero. -/
def ofBinary64 (value : Binary64) : Except Error Key :=
  match value.truncate? with
  | some integer => ofInt integer
  | none => .error (.immediateTooWide greatestSigned)

/-- The pooled key of a bit pattern at a width, if the width holds the pattern. -/
def ofBits (bits : BitVec 64) : Width → Except Error Key
  | .word =>
    if bits.toNat < modulus 32 then .ok (word (bits.setWidth 32))
    else .error (.constantTooWide bits.toNat)
  | .xword => .ok (extended bits)

/-- The constant of a pooled key; a word is extended with zeros. -/
def constant? : Key → Option Constant
  | immediate _ => none
  | word bits => some ⟨bits.setWidth 64, .word⟩
  | extended bits => some ⟨bits, .xword⟩

def kind : Key → KeyKind
  | immediate _ => .immediate
  | word _ => .word
  | extended _ => .extended

/-- Whether a key has to be loaded from the constant pool. -/
def isPooled (k : Key) : Bool := k.constant?.isSome

/-- The place of a key among those of its kind: immediate keys are signed, pooled ones unsigned. -/
def ordinal : Key → Int
  | immediate value => value.toInt
  | word bits => bits.toNat
  | extended bits => bits.toNat

/-- The bytes of constant pool that a key needs of its own. -/
def poolBytes (k : Key) : Nat := (k.constant?.map (·.width.bytes)).getD 0

def text : Key → String
  | immediate value => "#" ++ toString value.toInt
  | word bits => "#narrow(" ++ hexLiteral bits.toNat ++ ")"
  | extended bits => "#full(" ++ hexLiteral bits.toNat ++ ")"

/-- Keys of one kind are told apart by their place in its order. -/
theorem eq_of_kind_of_ordinal {j k : Key} (hkind : j.kind = k.kind)
    (hord : j.ordinal = k.ordinal) : j = k := by
  cases j <;> cases k <;> cases hkind
  · exact congrArg immediate (Int32.toInt_inj.1 hord)
  · exact congrArg word (BitVec.eq_of_toNat_eq (Int.ofNat_inj.1 hord))
  · exact congrArg extended (BitVec.eq_of_toNat_eq (Int.ofNat_inj.1 hord))

end Key

end Multiway
