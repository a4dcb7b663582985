import Shorthand.Decimal.Double

/-! # The size of JSON numbers

A number that is no integer of 64 bits is taken for a double, which is the product of two doubles:
one for as many of its digits as 64 bits hold, and one for the power of ten. A number is too large
if that power is, or if the product is infinite; so some numbers are refused that are just below the
greatest double. -/

namespace Shorthand
open Text

namespace Json

/-- Integers have 64 bits. -/
def numberLimit : Nat := Nat.pow 2 64

/-- The number that digits go on writing behind `n`, as long as it is below `numberLimit`, and the
digits that are left then. -/
def gather (n : Nat) : List Char → Nat × List Char
  | [] => (n, [])
  | d :: ds =>
    let m := n * 10 + natOfDigits 10 [d]
    if m < numberLimit then gather m ds else (n, d :: ds)

/-- Digits in front of and behind a point and a power of ten, without the digits that 64 bits do not
hold. Those in front of the point count as zeros. -/
def roundedDown (whole fraction : List Char) (power : Int) : Decimal :=
  let (n, zeros) := gather 0 whole
  let (m, ignored) := gather n fraction
  ⟨m, power + zeros.length - (fraction.length - ignored.length)⟩

end Json

namespace Decimal

/-- The greatest power of ten that is a finite double. -/
def greatestPower : Nat := 308

/-- Whether the product of the doubles for the mantissa and for the power of ten is infinite. -/
def overflows (d : Decimal) : Bool :=
  if d.mantissa = 0 ∨ d.exponent < 0 then false
  else if greatestPower < d.exponent then true
  else
    let power := Double.roundUnits (Nat.pow 10 d.exponent.toNat) 1
    overflowBound ≤ Double.roundUnits d.mantissa 1 * power

end Decimal
end Shorthand
