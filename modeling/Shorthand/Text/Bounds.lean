/-! # Classes of characters by their bounds

A large class of characters is given by its bounds in increasing order: by turns the first character
of a run that belongs to the class and the first one behind it. -/

namespace Shorthand.Text

/-- Whether a number lies in one of the runs with the given bounds. -/
def isWithin (bounds : List Nat) (n : Nat) : Bool := (bounds.takeWhile (· ≤ n)).length % 2 == 1

/-- Whether a character lies in a class with the given bounds below U+10000 and from there on. -/
def liesIn (bounds supplementary : List Nat) (c : Char) : Bool :=
  isWithin (if c.toNat < 0x10000 then bounds else supplementary) c.toNat

end Shorthand.Text
