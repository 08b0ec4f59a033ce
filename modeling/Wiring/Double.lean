/-!
# The range of double precision

A number is in range if rounding it to double precision does not lead beyond the greatest double.
-/

namespace Wiring.Double

/-- The least number that rounds beyond the greatest double. -/
def limit : Nat :=
  Nat.pow 2 1024 - Nat.pow 2 970

/-- The nearest number with 53 significant bits; a tie goes to the even one. -/
def roundTo53Bits (n : Nat) : Nat :=
  let unit := Nat.pow 2 (n.log2 + 1 - 53)
  let quotient := n / unit
  let remainder := n % unit
  if 2 * remainder > unit ∨ (2 * remainder = unit ∧ quotient % 2 = 1) then (quotient + 1) * unit
  else quotient * unit

/-- Whether a significand times a power of ten is in range. -/
def isInRange (significand : Nat) (exponent : Int) : Bool :=
  if significand = 0 then true
  else if 0 ≤ exponent then
    decide (exponent ≤ 308) && decide (significand * Nat.pow 10 exponent.toNat < limit)
  else if significand.log2 < exponent.natAbs then true
  else decide (significand < limit * Nat.pow 10 exponent.natAbs)

/-- Whether a significand times a power of ten is in range if both are rounded before they are
multiplied. -/
def isRoundedInRange (significand : Nat) (exponent : Int) : Bool :=
  if significand = 0 then true
  else if 0 ≤ exponent then
    decide (exponent ≤ 308) &&
      decide (roundTo53Bits significand * roundTo53Bits (Nat.pow 10 exponent.toNat) < limit)
  else true

end Wiring.Double
