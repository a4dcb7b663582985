import Shorthand.Text.Digit
import Shorthand.Toml.Reader
import Shorthand.Toml.Value

/-! # TOML dates and times

A date, a time, or a date and a time with or without the distance from universal time. -/

namespace Shorthand.Toml
open Reader Text

/-- A number of just so many digits. -/
def fixedDigits (width : Nat) : Reader Nat := do
  let cs ← get
  if cs.length < width ∨ !(cs.take width).all Char.isDigit then fail
  else
    set (cs.drop width)
    return natOfDigits 10 (cs.take width)

/-- A number of two digits between two bounds. -/
def twoDigits (least greatest : Nat) : Reader Nat :=
  refine (fixedDigits 2) fun n => if least ≤ n ∧ n ≤ greatest then some n else none

/-- Whether February has 29 days in a year of the Gregorian calendar. -/
def isLeapYear (year : Nat) : Bool := year % 4 == 0 && (year % 100 != 0 || year % 400 == 0)

/-- The length of a month, which only for February depends on the year. -/
def daysInMonth (year month : Nat) : Nat :=
  if month = 2 then if isLeapYear year then 29 else 28
  else if month ∈ [4, 6, 9, 11] then 30 else 31

/-- A date; behind its first `-` it cannot be anything else. -/
def date : Reader Date := do
  let year ← fixedDigits 4
  char '-'
  commit do
    let month ← twoDigits 1 12
    char '-'
    let day ← refine (twoDigits 1 31) fun day =>
      if day ≤ daysInMonth year month then some day else none
    return ⟨year, month, day⟩

/-- The digits of a fraction of a second. Those beyond the ninth do not count. -/
def nanoseconds : Reader Nat := do
  char '.'
  let ds ← someRun Char.isDigit
  return natOfDigits 10 ((ds ++ List.replicate 9 '0').take 9)

/-- A time of day, whose seconds must be written; 60 is a leap second. -/
def time : Reader Time := do
  let hour ← twoDigits 0 23
  char ':'
  commit do
    let minute ← twoDigits 0 59
    char ':'
    let second ← twoDigits 0 60
    return ⟨hour, minute, second, (← maybe nanoseconds).getD 0⟩

/-- The distance from universal time, in minutes or as `Z`. -/
def offset : Reader Offset :=
  either (do let _ ← one (fun c => c == 'Z' || c == 'z'); return .zero) do
    let direction ← one fun c => c == '+' || c == '-'
    commit do
      let hour ← twoDigits 0 23
      char ':'
      let minute ← twoDigits 0 59
      let n : Int := hour * 60 + minute
      return .minutes (if direction = '-' then -n else n)

/-- What stands between a date and a time. -/
def isDelimiter (c : Char) : Bool := c == 'T' || c == 't' || c == ' '

/-- A date, a time, or both with an offset that may be missing. -/
def moment : Reader Moment :=
  either (do
    let d ← date
    match ← maybe (do let _ ← one isDelimiter; return (← time, ← maybe offset)) with
    | some (t, o) => return .dateTime d t o
    | none => return .date d) (do return .time (← time))

/-- The moment that a text writes, if it writes nothing else. -/
def Moment.ofText? (s : String) : Option Moment :=
  match EStateM.run (do let m ← moment; ended; return m) s.toList with
  | .ok m _ => some m
  | .error .. => none

end Shorthand.Toml
