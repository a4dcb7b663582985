import Shorthand.Decimal.Basic

/-! # YAML scalars

How a text is written as a scalar of block style. Plain text is preferred; a text that would read
back as something else than a string is put in single quotes, one with line feeds becomes a literal
block, and what neither form can hold is put in double quotes with escapes. -/

namespace Shorthand.Yaml
open Text

/-- Whether a character ends a line. -/
def isBreak (c : Char) : Bool :=
  c == '\n' || c == '\r' || c.toNat == 0x85 || c.toNat == 0x2028 || c.toNat == 0x2029

/-- What separates an indicator from what follows it, the end of the text aside. -/
def isSeparator (c : Char) : Bool :=
  c == ' ' || c == '\t' || c.toNat == 0 || isBreak c

/-- The characters that can stand in a scalar without an escape. -/
def isPrintable (c : Char) : Bool :=
  let n := c.toNat
  n == 0x0A || (0x20 ≤ n && n ≤ 0x7E) ||
    (0xA0 ≤ n && n != 0xFEFF && n != 0xFFFE && n != 0xFFFF)

/-- What reads as nothing. -/
def nullTexts : List String := ["", "null", "Null", "NULL", "~"]

/-- What reads as a truth value. -/
def booleanTexts : List String := ["true", "True", "TRUE", "false", "False", "FALSE"]

/-- What reads as an infinite number, behind a sign or without. -/
def infinityTexts : List String := [".inf", ".Inf", ".INF"]

/-- What reads as no number. -/
def nanTexts : List String := [".nan", ".NaN", ".NAN"]

/-- A text without one leading sign out of `signs`. -/
def dropSign (signs : List Char) : List Char → List Char
  | c :: cs => if signs.contains c then cs else c :: cs
  | [] => []

/-- Zeros and digits behind a leading zero. Such a text is a string by the standard, but older
readers take it for a number. -/
def isZeroPadded (cs : List Char) : Bool :=
  match dropSign ['+', '-'] cs with
  | '0' :: d :: ds => (d :: ds).all Char.isDigit
  | _ => false

/-- Whether `cs` writes a number up to `limit` in the given base. -/
def isNatural (base limit : Nat) (cs : List Char) : Bool :=
  !cs.isEmpty && cs.all (isDigitOf base) && natOfDigits base cs ≤ limit

/-- Whether a text without its sign is an integer up to `limit`, in base ten or with a prefix. -/
def isMagnitude (limit : Nat) : List Char → Bool
  | '0' :: 'x' :: cs => isNatural 16 limit cs
  | '0' :: 'o' :: cs => isNatural 8 limit cs
  | '0' :: 'b' :: cs => isNatural 2 limit cs
  | cs => isNatural 10 limit cs

/-- Integers of 128 bits, with a sign or without. -/
def isInteger (cs : List Char) : Bool :=
  match cs with
  | '-' :: cs => isMagnitude (Nat.pow 2 127) cs
  | cs => isMagnitude (Nat.pow 2 128 - 1) (dropSign ['+'] cs)

/-- Finite floating-point numbers, with a sign or without. -/
def isFloat (cs : List Char) : Bool :=
  (Decimal.ofChars? (dropSign ['+', '-'] cs)).any (!·.tooLarge)

/-- Whether a reader would take the plain text for something else than a string. -/
def readsAsOther (s : String) : Bool :=
  let cs := s.toList
  nullTexts.contains s || booleanTexts.contains s || nanTexts.contains s ||
    infinityTexts.contains (String.ofList (dropSign ['+', '-'] cs)) ||
    isInteger cs || isFloat cs || isZeroPadded cs

/-- Whether some character of the first class stands directly before one of the second. -/
def hasPair (p q : Char → Bool) : List Char → Bool
  | a :: b :: cs => (p a && q b) || hasPair p q (b :: cs)
  | _ => false

def isSpace (c : Char) : Bool := c == ' '

/-- The characters that a plain scalar does not start with. -/
def isIndicator (c : Char) : Bool := "#,[]\x7b\x7d&*!|>'\"%@`".toList.contains c

/-- Whether a plain scalar that starts so would be taken for a mark of the document or for the
start of something else. -/
def startsLikeMarkup : List Char → Bool
  | '-' :: '-' :: '-' :: _ => true
  | '.' :: '.' :: '.' :: _ => true
  | c :: cs =>
    isIndicator c || ((c == '?' || c == ':' || c == '-') && cs.head?.all isSeparator)
  | [] => false

/-- Whether a colon ends a key inside the text, or a `#` starts a comment. -/
def hasInnerIndicator : List Char → Bool
  | [] => false
  | c :: cs =>
    (c == ':' && cs.head?.all isSeparator) || (isSeparator c && cs.head? == some '#') ||
      hasInnerIndicator cs

def endsWith (p : Char → Bool) (cs : List Char) : Bool := cs.getLast?.any p

/-- Whether a text can stand without quotes. -/
def allowsPlain (cs : List Char) : Bool :=
  cs.all (fun c => isPrintable c && !isBreak c) && !cs.head?.any isSpace && !endsWith isSpace cs &&
    !startsLikeMarkup cs && !hasInnerIndicator cs

/-- Whether a text can stand in single quotes, where blanks around a line break are lost. -/
def allowsSingle (cs : List Char) : Bool :=
  cs.all isPrintable && !hasPair isSpace isBreak cs && !hasPair isBreak isSpace cs

/-- Whether a text can stand as a block, where blanks at the end of a line are lost. -/
def allowsLiteral (cs : List Char) : Bool :=
  cs.all isPrintable && !endsWith isSpace cs && !hasPair isSpace isBreak cs

/-- How a text is written. -/
inductive Style
  | plain
  | single
  | double
  | literal
deriving DecidableEq, Repr

/-- The style that a text is written in. -/
def styleOf (s : String) : Style :=
  let cs := s.toList
  if cs.contains '\n' then
    if allowsLiteral cs then .literal else .double
  else if !readsAsOther s && allowsPlain cs then .plain
  else if allowsSingle cs then .single
  else .double

/-! ### Writing -/

/-- The content between single quotes: a quote is doubled, and what follows line breaks is indented.
The flag says whether a line break has just been written. -/
def singleQuoted (indent : Nat) : Bool → List Char → List Char
  | afterBreak, [] => if afterBreak then List.replicate indent ' ' else []
  | afterBreak, c :: cs =>
    if isBreak c then c :: singleQuoted indent true cs
    else
      (if afterBreak then List.replicate indent ' ' else []) ++
        (if c = '\'' then ['\'', '\''] else [c]) ++ singleQuoted indent false cs

/-- The upper-case hexadecimal digits of a number, with leading zeros to the given width. -/
def hexDigits (width n : Nat) : List Char :=
  let digits := (Nat.toDigits 16 n).map Char.toUpper
  List.replicate (width - digits.length) '0' ++ digits

/-- The letter that stands for a character behind a backslash. -/
def escapeLetter? (c : Char) : Option Char :=
  [(0x00, '0'), (0x07, 'a'), (0x08, 'b'), (0x09, 't'), (0x0A, 'n'), (0x0B, 'v'), (0x0C, 'f'),
    (0x0D, 'r'), (0x1B, 'e'), (0x22, '"'), (0x5C, '\\'), (0x85, 'N'), (0x2028, 'L'),
    (0x2029, 'P')].lookup c.toNat

/-- A character in double quotes, escaped if it has to be. -/
def doubleQuotedChar (c : Char) : List Char :=
  if isPrintable c && !isBreak c && c != '"' && c != '\\' then [c]
  else match escapeLetter? c with
    | some letter => ['\\', letter]
    | none =>
      if c.toNat < 0x100 then '\\' :: 'x' :: hexDigits 2 c.toNat
      else '\\' :: 'u' :: hexDigits 4 c.toNat

/-- The marks behind the bar of a literal: the indentation, if the text starts with a blank, and
what becomes of the line breaks at its end. -/
def literalMarks (cs : List Char) : List Char :=
  let start := if cs.head?.any (fun c => isSpace c || isBreak c) then ['2'] else []
  let chomp := match cs.reverse with
    | [] => ['-']
    | [c] => if isBreak c then ['+'] else ['-']
    | c :: d :: _ => if !isBreak c then ['-'] else if isBreak d then ['+'] else []
  start ++ chomp

/-- The lines of a literal: the first character of each line that is not empty is indented. The
flag says whether a line has just ended. -/
def literalLines (indent : Nat) : Bool → List Char → List Char
  | _, [] => []
  | atStart, c :: cs =>
    if isBreak c then c :: literalLines indent true cs
    else (if atStart then List.replicate indent ' ' else []) ++ c :: literalLines indent false cs

/-- A text as a scalar whose further lines are indented by `indent`. -/
def scalar (indent : Nat) (s : String) : List Char :=
  let cs := s.toList
  match styleOf s with
  | .plain => cs
  | .single => '\'' :: (singleQuoted indent false cs ++ ['\''])
  | .double => '"' :: (cs.flatMap doubleQuotedChar ++ ['"'])
  | .literal => '|' :: (literalMarks cs ++ '\n' :: literalLines indent true cs)

end Shorthand.Yaml
