import Shorthand.Decimal.Double

/-! # The shortest text of a double

Of all decimals that a double is the nearest to, its text shows the one with the fewest digits, and
of several such the one that is nearest to the double. The digits are those of a point on a grid of
decimals; the coarsest grid with a point that is near enough has the fewest digits. Numbers are
written without an exponent. -/

namespace Shorthand
namespace Double

/-- An interval of numbers in quarters of a unit. -/
structure Interval where
  lower : Nat
  upper : Nat
  /-- Whether the ends belong to it. -/
  closed : Bool

/-- The numbers that are rounded to `units`: half the way to the neighbours on both sides, of which
the lower one is nearer at a power of two. -/
def rounding (units : Nat) : Interval :=
  let k := spacing units
  let step := Nat.pow 2 k
  { lower := 4 * units - (if 0 < k ∧ units = Nat.pow 2 (k + 52) then step else 2 * step)
    upper := 4 * units + 2 * step
    closed := (units / step) % 2 == 0 }

/-- Whether the number `n / d`, in quarters of a unit, lies in the interval. -/
def Interval.contains (i : Interval) (n d : Nat) : Bool :=
  if i.closed then i.lower * d ≤ n && n ≤ i.upper * d else i.lower * d < n && n < i.upper * d

/-- A point of the grid of the multiples of `10 ^ exponent` that is rounded to `units`, namely the
nearest one. Of two equally near ones it is the upper one. -/
def onGrid? (units : Nat) (exponent : Int) : Option Decimal :=
  -- quarters of a unit between two points of the grid are `n / d`
  let n := 4 * one * Nat.pow 10 exponent.toNat
  let d := Nat.pow 10 (-exponent).toNat
  let below := 4 * units * d / n
  let near (m : Nat) : Bool := (rounding units).contains (m * n) d
  let upperNearer := (2 * below + 1) * n ≤ 8 * units * d
  if near (below + 1) ∧ (!near below ∨ upperNearer) then some ⟨below + 1, exponent⟩
  else if near below then some ⟨below, exponent⟩
  else none

/-- The first of so many grids, each ten times finer than the one before it, with a point that is
rounded to `units`. -/
def firstOnGrids (units : Nat) : Nat → Int → Decimal
  | 0, exponent => ⟨0, exponent⟩
  | grids + 1, exponent =>
    match onGrid? units exponent with
    | some d => d
    | none => firstOnGrids units grids (exponent - 1)

/-- The shortest decimal that is rounded to `units`, which are not zero. The coarsest grid has
points beyond all numbers, the finest has points closer than a unit. -/
def shortest (units : Nat) : Decimal := firstOnGrids units 634 309

end Double

namespace Decimal

/-- A decimal without an exponent; the digits behind the point end with the last of the mantissa. -/
def positional (d : Decimal) : List Char :=
  let digits := Nat.toDigits 10 d.mantissa
  if 0 ≤ d.exponent then digits ++ List.replicate d.exponent.toNat '0'
  else
    let places := (-d.exponent).toNat
    let padded := List.replicate (places + 1 - digits.length) '0' ++ digits
    padded.take (padded.length - places) ++ '.' :: padded.drop (padded.length - places)

end Decimal

namespace Double

def sign (negative : Bool) : List Char := if negative then ['-'] else []

/-- A number in the fewest digits that read back as it. -/
def chars : Double → List Char
  | finite negative units =>
    sign negative ++ if units = 0 then ['0'] else (shortest units).positional
  | infinite negative => sign negative ++ "inf".toList
  | nan => "NaN".toList

/-- The shortest text of a number. A whole number has no point. -/
def text (x : Double) : String := String.ofList x.chars

/-- The shortest text of a number, with a point in every finite one. -/
def pointedText (x : Double) : String :=
  match x with
  | finite .. => if '.' ∈ x.chars then x.text else x.text ++ ".0"
  | _ => x.text

end Double
end Shorthand
