import Shorthand.Decimal.Double

/-! # TOML values

What the keys of a TOML document stand for. -/

namespace Shorthand.Toml

/-- A day of the calendar. -/
structure Date where
  year : Nat
  month : Nat
  day : Nat
deriving DecidableEq, Repr

/-- A time of day. -/
structure Time where
  hour : Nat
  minute : Nat
  second : Nat
  nanosecond : Nat
deriving DecidableEq, Repr

/-- The distance of local time from universal time. -/
inductive Offset
  | zero
  | minutes (n : Int)
deriving DecidableEq, Repr

/-- What a document can say about time. -/
inductive Moment
  | date (d : Date)
  | time (t : Time)
  | dateTime (d : Date) (t : Time) (offset : Option Offset)
deriving DecidableEq, Repr

/-- A value of a document. -/
inductive Value
  | text (s : String)
  | integer (n : Int)
  | float (x : Double)
  | boolean (b : Bool)
  | moment (m : Moment)
  | list (items : List Value)
  | table (entries : List (String × Value))

/-- The keys of a table, in the order of their names, and what they stand for. -/
abbrev Entries := List (String × Value)

/-- A number with at least so many digits. -/
def padded (width n : Nat) : List Char :=
  let digits := Nat.toDigits 10 n
  List.replicate (width - digits.length) '0' ++ digits

def Date.chars (d : Date) : List Char :=
  padded 4 d.year ++ '-' :: padded 2 d.month ++ '-' :: padded 2 d.day

/-- A fraction of a second, without zeros at its end. -/
def fraction (nanosecond : Nat) : List Char :=
  if nanosecond = 0 then []
  else '.' :: ((padded 9 nanosecond).reverse.dropWhile (· = '0')).reverse

/-- A time of day, with as many decimals of a second as it needs. -/
def Time.chars (t : Time) : List Char :=
  padded 2 t.hour ++ ':' :: padded 2 t.minute ++ ':' :: padded 2 t.second ++ fraction t.nanosecond

/-- An offset in hours and minutes, or `Z`. -/
def Offset.chars : Offset → List Char
  | zero => ['Z']
  | minutes n =>
    let m := n.natAbs
    (if n < 0 then '-' else '+') :: padded 2 (m / 60) ++ ':' :: padded 2 (m % 60)

/-- A moment in the notation of the document, with a `T` between its parts. -/
def Moment.chars : Moment → List Char
  | date d => d.chars
  | time t => t.chars
  | dateTime d t offset => d.chars ++ 'T' :: t.chars ++ (offset.map (·.chars)).getD []

/-- A date or a time in the form in which it is written in a document. -/
def Moment.text (m : Moment) : String := String.ofList m.chars

end Shorthand.Toml
