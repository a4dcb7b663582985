import Shorthand.Data

/-! # JSON text

Data written as JSON, on one line or with a line for every field and item. A string escapes quotes,
backslashes and the characters below U+0020, and nothing else. -/

namespace Shorthand.Json

/-- The hexadecimal digit for a number below sixteen. -/
def hexDigit (n : Nat) : Char := "0123456789abcdef".toList.getD n '0'

/-- A character inside a string. -/
def escapeChar (c : Char) : List Char :=
  if c = '"' then ['\\', '"']
  else if c = '\\' then ['\\', '\\']
  else if c = '\x08' then ['\\', 'b']
  else if c = '\x0c' then ['\\', 'f']
  else if c = '\n' then ['\\', 'n']
  else if c = '\r' then ['\\', 'r']
  else if c = '\t' then ['\\', 't']
  else if c.toNat < 0x20 then
    ['\\', 'u', '0', '0', hexDigit (c.toNat / 16), hexDigit (c.toNat % 16)]
  else [c]

def stringChars (s : String) : List Char :=
  '"' :: (s.toList.flatMap escapeChar ++ ['"'])

/-- Where blanks go between the parts of a text. -/
structure Layout where
  /-- What stands in front of a field or an item that is so many levels deep, and in front of the
  bracket that ends them. -/
  lineBreak : Nat → List Char
  /-- What stands between the colon and the value of a field. -/
  gap : List Char

/-- Everything on one line, without blanks. -/
def Layout.compact : Layout := ⟨fun _ => [], []⟩

/-- A line for every field and item, indented by two spaces for each level. -/
def Layout.pretty : Layout := ⟨fun depth => '\n' :: List.replicate (2 * depth) ' ', [' ']⟩

mutual
/-- A value whose lines are indented by `depth` levels. -/
def write (l : Layout) (depth : Nat) : Data → List Char
  | .text s => stringChars s
  | .number n => Nat.toDigits 10 n
  | .record [] => ['{', '}']
  | .record (f :: fs) =>
    '{' :: (l.lineBreak (depth + 1) ++ (writeField l (depth + 1) f ++
      (writeFields l (depth + 1) fs ++ (l.lineBreak depth ++ ['}']))))
  | .list [] => ['[', ']']
  | .list (d :: ds) =>
    '[' :: (l.lineBreak (depth + 1) ++ (write l (depth + 1) d ++
      (writeItems l (depth + 1) ds ++ (l.lineBreak depth ++ [']']))))
def writeField (l : Layout) (depth : Nat) : String × Data → List Char
  | (name, d) => stringChars name ++ ':' :: (l.gap ++ write l depth d)
/-- The fields behind the first one. -/
def writeFields (l : Layout) (depth : Nat) : List (String × Data) → List Char
  | [] => []
  | f :: fs => ',' :: (l.lineBreak depth ++ (writeField l depth f ++ writeFields l depth fs))
/-- The items behind the first one. -/
def writeItems (l : Layout) (depth : Nat) : List Data → List Char
  | [] => []
  | d :: ds => ',' :: (l.lineBreak depth ++ (write l depth d ++ writeItems l depth ds))
end

/-- A value on a single line, without blanks. -/
def compact (d : Data) : String := String.ofList (write .compact 0 d)

/-- Data over several lines, without a line break at the end. -/
def pretty (d : Data) : String := String.ofList (write .pretty 0 d)

end Shorthand.Json
