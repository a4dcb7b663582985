import Shorthand.Decimal.Basic

/-! # Doubles

A `Double` is a floating-point number of 64 bits. Its finite values are whole multiples of the least
positive one, which is two to the power of -1074; `ofDecimal` gives the nearest to a decimal, and of
two equally near ones that with the even significand. -/

namespace Shorthand

/-- A floating-point number of 64 bits. -/
inductive Double
  /-- `units` times the least positive number. -/
  | finite (negative : Bool) (units : Nat)
  | infinite (negative : Bool)
  | nan
deriving DecidableEq, Repr

namespace Double

/-- The quotient of two numbers, rounded to the nearest; a tie goes to the even one. -/
def roundDiv (n d : Nat) : Nat :=
  let q := n / d
  let twice := 2 * (n % d)
  if twice < d ∨ (twice = d ∧ q % 2 = 0) then q else q + 1

/-- Rounding moves a quotient by at most a half, up or down. -/
theorem roundDiv_near (n : Nat) {d : Nat} (hd : 0 < d) :
    2 * (d * roundDiv n d) ≤ 2 * n + d ∧ 2 * n ≤ 2 * (d * roundDiv n d) + d := by
  have hn := Nat.div_add_mod n d
  simp only [roundDiv]
  split
  · next h => omega
  · next h =>
    rw [Nat.mul_add, Nat.mul_one]
    have := Nat.mod_lt n hd
    omega

/-- A significand has 53 bits, so that numbers around `units` are two to this power apart. -/
def spacing (units : Nat) : Nat := Nat.log2 units - 52

/-- The units of the number nearest to `n / d` units. -/
def roundUnits (n d : Nat) : Nat :=
  let step := Nat.pow 2 (spacing (n / d))
  roundDiv n (d * step) * step

/-- How many units make one. -/
def one : Nat := Nat.pow 2 1074

/-- The units of the number nearest to a decimal that is not too large. -/
def unitsOfDecimal (d : Decimal) : Nat :=
  if d.mantissa = 0 ∨ d.magnitude < -330 then 0
  else if 0 ≤ d.exponent then roundUnits (d.mantissa * Nat.pow 10 d.exponent.toNat * one) 1
  else roundUnits (d.mantissa * one) (Nat.pow 10 (-d.exponent).toNat)

/-- The number nearest to a decimal, or to what it is the absolute value of. -/
def ofDecimal (negative : Bool) (d : Decimal) : Double :=
  if d.tooLarge then infinite negative else finite negative (unitsOfDecimal d)

/-- Whether a number is zero, of either sign. -/
def isZero : Double → Bool
  | finite _ units => units == 0
  | _ => false

end Double
end Shorthand
