import Shorthand.Text.Digit

/-! # Decimal numerals

A `Decimal` is a natural number times a power of ten, as a numeral with a point and an exponent
writes it. `tooLarge` says when the nearest floating-point number of 64 bits is infinite; it never
computes a power that the numeral does not call for. -/

namespace Shorthand
open Text

/-- The number `mantissa * 10 ^ exponent`. -/
structure Decimal where
  mantissa : Nat
  exponent : Int
deriving DecidableEq, Repr

namespace Decimal

/-- The value of digits in front of and behind a point, times a power of ten. -/
def ofParts (whole fraction : List Char) (exponent : Int) : Decimal :=
  ⟨natOfDigits 10 (whole ++ fraction), exponent - fraction.length⟩

/-- An exponent: a sign or none, and digits up to the end. -/
def exponent? : List Char → Option Int
  | '+' :: cs => digits? cs
  | '-' :: cs => (digits? cs).map (- ·)
  | cs => digits? cs
where
  digits? (cs : List Char) : Option Int :=
    if cs ≠ [] ∧ cs.all Char.isDigit then some (natOfDigits 10 cs) else none

/-- Reads a numeral without a sign: digits, a point and further digits, an exponent. The point and
the exponent may be left out, and so may the digits on one side of the point. -/
def ofChars? (cs : List Char) : Option Decimal :=
  let whole := cs.takeWhile Char.isDigit
  let (fraction, rest) := match cs.dropWhile Char.isDigit with
    | '.' :: cs => (cs.takeWhile Char.isDigit, cs.dropWhile Char.isDigit)
    | cs => ([], cs)
  if whole.isEmpty && fraction.isEmpty then none
  else match rest with
    | [] => some (ofParts whole fraction 0)
    | c :: cs =>
      if c = 'e' ∨ c = 'E' then (exponent? cs).map (ofParts whole fraction) else none

/-- The number from which on doubles round to infinity. -/
def overflowBound : Nat := Nat.pow 2 1024 - Nat.pow 2 970

/-- The power of ten that is the least above the number, unless this is zero. -/
def magnitude (d : Decimal) : Int := (Nat.toDigits 10 d.mantissa).length + d.exponent

/-- Whether the double nearest to the number is infinite. -/
def tooLarge (d : Decimal) : Bool :=
  if d.mantissa = 0 then false
  else if 310 < d.magnitude then true
  else if d.magnitude < 300 then false
  else if 0 ≤ d.exponent then overflowBound ≤ d.mantissa * Nat.pow 10 d.exponent.toNat
  else overflowBound * Nat.pow 10 (-d.exponent).toNat ≤ d.mantissa

end Decimal
end Shorthand
