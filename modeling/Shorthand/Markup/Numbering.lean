import Shorthand.Text.Digit

/-! # Numbered copies

A template is a text with placeholders: each run of `$`, with an optional suffix `@`, then `-`, then
decimal digits. `multiply` writes a template a number of times, with the number of the copy in the
place of every placeholder. The suffix says where to start and which way to count. -/

namespace Shorthand.Markup
open Text

/-- The part of a placeholder from its `@` on. -/
structure Suffix where
  descending : Bool
  /-- Decimal digits of any script. -/
  digits : List Char
deriving DecidableEq, Repr

/-- A run of `$` and what is written behind it. -/
structure Placeholder where
  /-- The length of the run of `$`. -/
  width : Nat
  suffix : Option Suffix
deriving DecidableEq, Repr

/-- A template consists of characters and placeholders. -/
inductive Piece
  | literal (c : Char)
  | placeholder (p : Placeholder)
deriving DecidableEq, Repr

namespace Suffix

/-- The number to start from: the digits, if they are ASCII digits of a number below `2 ^ 63`, and
otherwise one. -/
def base (s : Suffix) : Nat :=
  if s.digits ≠ [] ∧ s.digits.all Char.isDigit ∧ natOfDigits 10 s.digits < Nat.pow 2 63 then
    natOfDigits 10 s.digits
  else 1

/-- Splits the suffix off a text that follows a run of `$`. -/
def split : List Char → Option Suffix × List Char
  | '@' :: '-' :: cs =>
    (some ⟨true, cs.takeWhile isDecimalDigit⟩, cs.dropWhile isDecimalDigit)
  | '@' :: cs => (some ⟨false, cs.takeWhile isDecimalDigit⟩, cs.dropWhile isDecimalDigit)
  | cs => (none, cs)

/-- The characters that a suffix is written with. -/
def spelling (s : Suffix) : List Char :=
  '@' :: if s.descending then '-' :: s.digits else s.digits

theorem length_split_le (cs : List Char) : (split cs).2.length ≤ cs.length := by
  have h (cs : List Char) := (List.dropWhile_sublist (l := cs) isDecimalDigit).length_le
  fun_cases split cs
  · next cs => have := h cs; simp; omega
  · next cs _ => have := h cs; simp; omega
  · exact Nat.le_refl _

end Suffix

/-- The pieces of a template. Every run of `$` and every suffix is as long as it can be. -/
def pieces : List Char → List Piece
  | [] => []
  | c :: cs =>
    if c = '$' then
      let found := Suffix.split (cs.dropWhile (· == '$'))
      .placeholder ⟨(cs.takeWhile (· == '$')).length + 1, found.1⟩ :: pieces found.2
    else .literal c :: pieces cs
termination_by cs => cs.length
decreasing_by
  · have h₁ := Suffix.length_split_le (cs.dropWhile (· == '$'))
    have h₂ := (List.dropWhile_sublist (l := cs) (· == '$')).length_le
    simp only [List.length_cons]
    omega
  · simp

namespace Placeholder

/-- The characters that a placeholder is written with. -/
def spelling (p : Placeholder) : List Char :=
  List.replicate p.width '$' ++ (p.suffix.map Suffix.spelling).getD []

/-- The number that counting starts from, 1 unless it is written. -/
def base (p : Placeholder) : Nat := (p.suffix.map Suffix.base).getD 1

/-- Whether the numbers go down. -/
def descending (p : Placeholder) : Bool := (p.suffix.map Suffix.descending).getD false

/-- The number of a copy, where `i` counts the copies from zero. -/
def number (p : Placeholder) (count i : Nat) : Nat :=
  if p.descending then p.base + (count - 1 - i) else p.base + i

/-- The decimal digits of `n`, with leading zeros to at least the width of the placeholder. -/
def padded (p : Placeholder) (n : Nat) : List Char :=
  let digits := Nat.toDigits 10 n
  List.replicate (p.width - digits.length) '0' ++ digits

end Placeholder

namespace Piece

/-- What a piece becomes in copy `i` of `count`. -/
def numbered (count i : Nat) : Piece → List Char
  | literal c => [c]
  | placeholder p => p.padded (p.number count i)

end Piece

def copy (template : List Piece) (count i : Nat) : String :=
  String.ofList (template.flatMap (Piece.numbered count i))

/-- The numbered copies of a template, one behind the other. Without a count the template stands as
it is written. -/
def multiply (template : String) (count : Nat) : String :=
  if count = 0 then template
  else String.join ((List.range count).map (copy (pieces template.toList) count))

end Shorthand.Markup
