import Shorthand.Text.Digit
import Shorthand.Toml.Reader
import Shorthand.Toml.Value

/-! # TOML numbers

Integers of 64 bits in base ten, sixteen, eight and two, and floating-point numbers. Between two
digits there may be an underscore. -/

namespace Shorthand.Toml
open Reader Text

/-- The digits behind the first one. An underscore stands in front of a digit. -/
def moreDigits (test : Char → Bool) : Reader (List Char) :=
  many (either (one test) (do char '_'; commit (one test)))

/-- At least one digit, and single `_` between digits. -/
def digits (test : Char → Bool) : Reader (List Char) := do
  return (← one test) :: (← moreDigits test)

/-- A sign; the answer is whether it is a minus. -/
def sign : Reader Bool := do
  match ← maybe (one fun c => c == '+' || c == '-') with
  | some c => return c == '-'
  | none => return false

/-- A sign or none, and digits of which the first is not zero, or a zero. -/
def wholeNumber : Reader (Bool × List Char) := do
  let negative ← sign
  let ds ← either (do return (← one fun c => c.isDigit && c != '0') :: (← moreDigits Char.isDigit))
    (do return [← one Char.isDigit])
  return (negative, ds)

/-- The integers have 64 bits. -/
def integer? (negative : Bool) (n : Nat) : Option Int :=
  if negative then if n ≤ Nat.pow 2 63 then some (-n) else none
  else if n < Nat.pow 2 63 then some n else none

/-- An integer behind a zero and the letter for its base. -/
def basedInteger (letter : Char) (base : Nat) : Reader Int :=
  refine (do
    word ['0', letter]
    commit (digits (isDigitOf base))) fun ds => integer? false (natOfDigits base ds)

/-- An integer of 64 bits, in one of the four bases. -/
def integer : Reader Int := do
  match ← get with
  | '0' :: 'x' :: _ => commit (basedInteger 'x' 16)
  | '0' :: 'o' :: _ => commit (basedInteger 'o' 8)
  | '0' :: 'b' :: _ => commit (basedInteger 'b' 2)
  | start =>
    let (negative, ds) ← wholeNumber
    match integer? negative (natOfDigits 10 ds) with
    | some n => return n
    | none => set start; commit fail

/-- What stands behind a decimal point. -/
def fractionDigits : Reader (List Char) := do
  char '.'
  commit (digits Char.isDigit)

/-- The power of ten behind an `e`. -/
def exponent : Reader Int := do
  let _ ← one fun c => c == 'e' || c == 'E'
  let negative ← sign
  let n := natOfDigits 10 (← commit (digits Char.isDigit))
  return if negative then -n else n

/-- Digits behind a point, an exponent, or both. -/
def fractionAndExponent : Reader (List Char × Int) :=
  either (do return ([], ← exponent)) do
    let fraction ← fractionDigits
    return (fraction, (← maybe exponent).getD 0)

/-- The word for an infinite number, without its sign. -/
def infinity : Reader Unit := word "inf".toList

/-- The word for what is no number. -/
def notANumber : Reader Unit := word "nan".toList

/-- A float that is written as a word; the sign of `nan` is lost. -/
def specialFloat : Reader Double := do
  let negative ← sign
  either (do infinity; return .infinite negative) (do notANumber; return .nan)

/-- A number with digits behind a point or with an exponent. A positive one that is too large is
refused; a negative one becomes infinite. -/
def decimalFloat : Reader Double := do
  let start ← get
  let (negative, whole) ← wholeNumber
  let (fraction, power) ← fractionAndExponent
  let x := Double.ofDecimal negative (.ofParts whole fraction power)
  if x = .infinite false then set start; commit fail
  else return x

/-- A float, in digits or as a word. -/
def float : Reader Double := either decimalFloat specialFloat

end Shorthand.Toml
