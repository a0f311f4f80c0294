/-!
# Hexadecimal text

Unsigned numbers are written in lower case, with as few digits as possible, after a `0x` mark.
-/
namespace Multiway

/-- The hexadecimal literal of `n`, such as `0x1f`. -/
def hexLiteral (n : Nat) : String :=
  "0x" ++ String.ofList (Nat.toDigits 16 n)

end Multiway
