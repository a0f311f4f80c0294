import Multiway.Assembly.Label
import Multiway.Text.Hex

/-!
# Errors

Everything that can go wrong while a multiway branch is checked, lowered or laid out. Each cause
has one constructor, and `Error.message` holds the wording.
-/
namespace Multiway

/-- Why a request was refused. -/
inductive Error where
  /-- A multiway branch has no key at all. -/
  | noKeys
  /-- The numbers of keys and of key targets differ. -/
  | targetCount (keys targets : Nat)
  /-- The numbers of keys and of key probabilities differ. -/
  | probabilityCount (keys probabilities : Nat)
  /-- A key has to be loaded, and no register holds the base of the constant pool. -/
  | noPoolBase
  /-- The scratch register is the register that reads as zero. -/
  | scratchIsZero
  /-- The scratch register is the register that holds the dispatched value. -/
  | scratchIsValue
  /-- A key does not fit the immediate operand of a compare instruction. -/
  | immediateTooWide (value : Int)
  /-- A constant of word width has more than 32 significant bits. -/
  | constantTooWide (bits : Nat)
  /-- No key has this index. -/
  | noSuchKey (index : Nat)
  /-- The key at this index equals an earlier one. -/
  | repeatedKey (index : Nat)
  /-- Keys of several kinds have no common order. -/
  | mixedKinds
  /-- No register has this number. -/
  | noSuchRegister (number : Nat)
  /-- A label already has a position in this pass. -/
  | alreadyBound (label : Label)
  /-- A branch goes to a label without a position. -/
  | neverBound (label : Label)
  /-- A label is not in the table of labels. -/
  | unknownLabel (label : Label)
  /-- A branch target is beyond the reach of its encoding. -/
  | outOfReach (position : Nat) (target : Label) (displacement : Int)
  deriving DecidableEq, Repr

def Error.message : Error → String
  | noKeys => "cannot lower a switch without keys"
  | targetCount keys targets =>
    "switch has " ++ toString keys ++ " keys but " ++ toString targets ++ " key targets"
  | probabilityCount keys probabilities =>
    "switch has " ++ toString keys ++ " keys but " ++ toString probabilities ++
      " key probabilities"
  | noPoolBase =>
    "a key must be loaded from the constant table, but no base register was given"
  | scratchIsZero => "the zero register cannot be used as a scratch register"
  | scratchIsValue => "the scratch register aliases the key register"
  | immediateTooWide value => "key " ++ toString value ++ " does not fit in a compare immediate"
  | constantTooWide bits => "key " ++ hexLiteral bits ++ " does not fit in a compressed constant"
  | noSuchKey index => "key index " ++ toString index ++ " is out of bounds"
  | repeatedKey index => "key #" ++ toString index ++ " appears more than once"
  | mixedKinds => "keys of different kinds cannot be ordered"
  | noSuchRegister number => "register number " ++ toString number ++ " is out of range"
  | alreadyBound label => "label " ++ label.text ++ " is already bound"
  | neverBound label => "label " ++ label.text ++ " is never bound"
  | unknownLabel label => "label " ++ label.text ++ " does not belong to this assembler"
  | outOfReach position target displacement =>
    "branch at " ++ hexLiteral position ++ " cannot reach " ++ target.text ++ " (" ++
      toString displacement ++ " bytes away)"

end Multiway
