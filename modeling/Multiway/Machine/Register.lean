/-!
# Integer registers

The machine has 32 integer registers in four banks of eight. Register zero, the first of the
globals, reads as zero and discards what is written to it.
-/
namespace Multiway

/-- The four register banks, in the order of their numbers. -/
inductive Bank where
  | globals
  | outs
  | locals
  | ins
  deriving DecidableEq, Repr

/-- The number of the first register of a bank. -/
def Bank.first : Bank → Nat
  | .globals => 0
  | .outs => 8
  | .locals => 16
  | .ins => 24

/-- The letter that stands for a bank in assembly text. -/
def Bank.letter : Bank → String
  | .globals => "g"
  | .outs => "o"
  | .locals => "l"
  | .ins => "i"

/-- An integer register, given by the number that instructions encode. -/
structure Register where
  number : Fin 32
  deriving DecidableEq, Repr

namespace Register

/-- The register that reads as zero. -/
def zero : Register := ⟨0⟩

def isZero (r : Register) : Bool := r = zero

def ofNat? (n : Nat) : Option Register :=
  if h : n < 32 then some ⟨⟨n, h⟩⟩ else none

/-- The register at a place in a bank; only the low three bits of the place count. -/
def inBank (b : Bank) (place : Nat) : Register :=
  ⟨⟨b.first + place % 8, by
    have := Nat.mod_lt place (show 0 < 8 by decide)
    cases b <;> simp [Bank.first] <;> omega⟩⟩

def bank (r : Register) : Bank :=
  if r.number.val < 8 then .globals
  else if r.number.val < 16 then .outs
  else if r.number.val < 24 then .locals
  else .ins

def place (r : Register) : Nat := r.number.val % 8

/-- Assembly text, such as `%o0`. -/
def text (r : Register) : String :=
  "%" ++ r.bank.letter ++ toString r.place

/-- Bank and place name the register. -/
@[simp] theorem inBank_bank_place (r : Register) : inBank r.bank r.place = r := by
  revert r
  suffices ∀ n : Fin 32, inBank (bank ⟨n⟩) (place ⟨n⟩) = ⟨n⟩ from fun r => this r.number
  decide

@[simp] theorem ofNat?_val (r : Register) : ofNat? r.number.val = some r := by
  simp [ofNat?]

end Register

end Multiway
