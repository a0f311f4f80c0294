import Multiway.Key.Basic

/-!
# Random keys

Keys drawn from a stream of uniformly distributed 32-bit words. A kind is drawn first, then a value
that the kind allows. A number below a bound is the high half of the product of a word and the
bound; words whose product has too great a low half are skipped, which makes all numbers below the
bound equally likely.
-/
namespace Multiway

/-- A stream of random words of which finitely many are left. -/
abbrev WordStream := List (BitVec 32)

namespace WordStream

def word : WordStream → Option (BitVec 32 × WordStream)
  | [] => none
  | w :: rest => some (w, rest)

/-- The next two words as one number, the low half first. -/
def doubleWord : WordStream → Option (BitVec 64 × WordStream)
  | low :: high :: rest => some (high ++ low, rest)
  | _ => none

/-- The greatest low half that a product of a word and `bound` may have: the greatest number of
the form `bound * 2 ^ i - 1` that a word holds. -/
def zone (bound : Nat) : Nat := bound <<< (31 - bound.log2) - 1

/-- A number below `bound`. -/
def below (bound : Nat) : WordStream → Option (Nat × WordStream)
  | [] => none
  | w :: rest =>
    let product := w.toNat * bound
    if product % modulus 32 ≤ zone bound then some (product / modulus 32, rest)
    else below bound rest

end WordStream

namespace Key

/-- A random key, or `none` if the words run out. -/
def sample (words : WordStream) : Option (Key × WordStream) := do
  let (kind, words) ← words.below 3
  match kind with
  | 0 =>
    let (offset, words) ← words.below 8192
    return (.immediate (Int32.ofInt (offset - 4096)), words)
  | 1 =>
    let (bits, words) ← words.word
    return (.word bits, words)
  | _ =>
    let (bits, words) ← words.doubleWord
    return (.extended bits, words)

/-- A number of random keys, drawn one after the other. -/
def samples : Nat → WordStream → Option (List Key × WordStream)
  | 0, words => some ([], words)
  | n + 1, words => do
    let (key, words) ← sample words
    let (keys, words) ← samples n words
    return (key :: keys, words)

end Key

end Multiway
