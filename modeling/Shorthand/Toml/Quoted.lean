import Shorthand.Text.Digit
import Shorthand.Toml.Reader

/-! # TOML strings

A string stands between double quotes, where a backslash begins an escape, or between single quotes,
where nothing is an escape. Three quotes enclose a string of several lines. -/

namespace Shorthand.Toml
open Reader Text

/-- A character given by so many hexadecimal digits. -/
def codePoint (width : Nat) : Reader Char :=
  refine (do
    let cs ← get
    let digits := (cs.take width).takeWhile (isDigitOf 16)
    set (cs.drop digits.length)
    return digits) fun digits =>
      let n := natOfDigits 16 digits
      if digits.length = width ∧ n.isValidChar then some (Char.ofNat n) else none

/-- The escapes of one character and what they stand for. -/
def simpleEscape? : Char → Option Char
  | 'b' => some '\x08'
  | 'f' => some '\x0c'
  | 'n' => some '\n'
  | 'r' => some '\r'
  | 't' => some '\t'
  | '\\' => some '\\'
  | '"' => some '"'
  | _ => none

/-- An escape. A character beyond ASCII behind the backslash is itself to blame, another one only
brings on the failure at the character behind it. -/
def escape : Reader Char := do
  char '\\'
  match ← get with
  | [] => fail
  | c :: cs =>
    if c.toNat < 0x80 then set cs
    match simpleEscape? c with
    | some d => return d
    | none =>
      if c = 'u' then commit (codePoint 4)
      else if c = 'U' then commit (codePoint 8)
      else commit fail

/-- A backslash at the end of a line, which takes with it the blanks and line breaks behind it. -/
def continuation : Reader Unit := do
  char '\\'
  blanks
  newline
  let _ ← many (either (do let _ ← one isBlank) newline)

/-- Whether a character may stand between double quotes as it is. -/
def isBasic (c : Char) : Bool := isPrintable c && c != '"' && c != '\\'

/-- Whether a character may stand between single quotes. -/
def isLiteral (c : Char) : Bool := isPrintable c && c != '\''

/-- A string in double quotes, on one line. -/
def basicString : Reader (List Char) := do
  char '"'
  let cs ← many (either (one isBasic) escape)
  commit (char '"')
  return cs

/-- A string in single quotes, on one line and without escapes. -/
def literalString : Reader (List Char) := do
  char '\''
  let cs ← run isLiteral
  commit (char '\'')
  return cs

/-- One or two quotes in front of something else. -/
def quotesBefore (quote : Char) (rest : Reader Unit) : Reader (List Char) :=
  either (do char quote; char quote; ahead rest; return [quote, quote])
    (do char quote; ahead rest; return [quote])

/-- A string of several lines. Up to two quotes may stand together in it, also at its end. After
quotes inside it there comes what `behind` reads. -/
def blockString (quote : Char) (content behind : Reader (List Char)) : Reader (List Char) := do
  let delimiter := word [quote, quote, quote]
  delimiter
  let _ ← maybe newline
  let body ← commit do
    let first ← many content
    let more ← many do
      return (← quotesBefore quote (do let _ ← one (· ≠ quote))) ++ (← behind)
    let last ← maybe (quotesBefore quote delimiter)
    return first.flatten ++ more.flatten ++ last.getD []
  commit delimiter
  return body

/-- A line break inside a string, which counts as `\n` however it is written. -/
def lineBreak : Reader (List Char) := do newline; return ['\n']

/-- What stands between quotes in a string of several lines with escapes. -/
def basicContent : Reader (List Char) :=
  either (do return [← one isBasic])
    (either (do continuation; return [])
      (either (do return [← escape]) lineBreak))

/-- A string in three double quotes, over several lines. -/
def basicBlock : Reader (List Char) :=
  blockString '"' basicContent (do return (← many basicContent).flatten)

/-- What stands between quotes in a string of several lines without escapes. -/
def literalContent : Reader (List Char) := either (do return [← one isLiteral]) lineBreak

/-- A string in three single quotes, over several lines and without escapes. -/
def literalBlock : Reader (List Char) :=
  blockString '\'' literalContent (do return (← oneOrMore literalContent).flatten)

/-- A string in any of the four notations; three quotes are tried before one. -/
def string : Reader String := do
  return String.ofList
    (← either basicBlock (either basicString (either literalBlock literalString)))

/-- Whether a character may stand in a name without quotes. -/
def isBare (c : Char) : Bool := c.isAlphanum || c == '_' || c == '-'

/-- A name in a key, and where it stands. -/
structure Name where
  text : String
  place : Place

/-- A name in a key, bare or between quotes. -/
def name : Reader Name := do
  let place ← get
  let text ← match place with
    | [] => fail
    | '"' :: _ => basicString
    | '\'' :: _ => literalString
    | _ :: _ => someRun isBare
  return ⟨String.ofList text, place⟩

/-- Keys and values are nested less deeply than this. -/
def nestingLimit : Nat := 80

/-- The names of a key, with dots between them. -/
def key : Reader (List Name) :=
  refine (separated (do blanks; let n ← name; blanks; return n) (char '.')) fun names =>
    if names.length < nestingLimit then some names else none

end Shorthand.Toml
