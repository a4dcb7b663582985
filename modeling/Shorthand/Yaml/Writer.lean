import Shorthand.Data
import Shorthand.Text.Blank
import Shorthand.Yaml.Scalar

/-! # YAML text

Data written as a YAML document of block style. Nested records are indented by two columns; the
items of a list start with a dash in the column of the list's own key. -/

namespace Shorthand.Yaml
open Text

def spaces (n : Nat) : List Char := List.replicate n ' '

/-- A scalar and the end of its line, which a literal may have written already. -/
def endLine (cs : List Char) : List Char := if endsWith isBreak cs then cs else cs ++ ['\n']

/-- The longest key in bytes that stands on one line with its value. -/
def keyLimit : Nat := 128

/-- Whether a key stands on one line with its value. -/
def isSimpleKey (s : String) : Bool :=
  !s.toList.any isBreak && utf8Length s.toList ≤ keyLimit

/-- A key in the given column, up to and including its colon. -/
def key (column : Nat) (s : String) : List Char :=
  if isSimpleKey s then scalar (column + 2) s ++ [':']
  else '?' :: ' ' :: (endLine (scalar (column + 2) s) ++ spaces column ++ [':'])

mutual
/-- What stands behind the colon of a key in the given column. -/
def fieldValue (column : Nat) : Data → List Char
  | .text s => ' ' :: endLine (scalar (column + 2) s)
  | .number n => ' ' :: endLine (Nat.toDigits 10 n)
  | .record [] => [' ', '{', '}', '\n']
  | .record (f :: fs) =>
    '\n' :: (spaces (column + 2) ++ (field (column + 2) f ++ moreFields (column + 2) fs))
  | .list [] => [' ', '[', ']', '\n']
  | .list (d :: ds) => '\n' :: (item column d ++ moreItems column ds)
def field (column : Nat) : String × Data → List Char
  | (name, d) => key column name ++ fieldValue column d
/-- The fields behind the first one of a record. -/
def moreFields (column : Nat) : List (String × Data) → List Char
  | [] => []
  | f :: fs => spaces column ++ (field column f ++ moreFields column fs)
/-- An item with its dash in the given column. -/
def item (column : Nat) : Data → List Char
  | .text s => spaces column ++ '-' :: ' ' :: endLine (scalar (column + 2) s)
  | .number n => spaces column ++ '-' :: ' ' :: endLine (Nat.toDigits 10 n)
  | .record [] => spaces column ++ ['-', ' ', '{', '}', '\n']
  | .record (f :: fs) =>
    spaces column ++ '-' :: ' ' :: (field (column + 2) f ++ moreFields (column + 2) fs)
  | .list [] => spaces column ++ ['-', ' ', '[', ']', '\n']
  | .list (d :: ds) =>
    spaces column ++ '-' :: '\n' :: (item (column + 2) d ++ moreItems (column + 2) ds)
/-- The items behind the first one of a list. -/
def moreItems (column : Nat) : List Data → List Char
  | [] => []
  | d :: ds => item column d ++ moreItems column ds
end

/-- A whole document, which ends its last line. -/
def document : Data → List Char
  | .text s => endLine (scalar 0 s)
  | .number n => endLine (Nat.toDigits 10 n)
  | .record [] => ['{', '}', '\n']
  | .record (f :: fs) => field 0 f ++ moreFields 0 fs
  | .list [] => ['[', ']', '\n']
  | .list (d :: ds) => item 0 d ++ moreItems 0 ds

def write (d : Data) : String := String.ofList (document d)

end Shorthand.Yaml
