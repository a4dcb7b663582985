import Shorthand.Json.Magnitude
import Shorthand.Text.Blank

/-! # Reading JSON

The parts of a JSON text: blanks, strings, numbers, the items of a list, the fields of a record, and
values that are skipped. A reader of a certain shape is put together from these; the first thing in
the text that is wrong decides the error. -/

namespace Shorthand.Json
open Text

/-- Why no value was read. -/
inductive ReadError
  /-- The text ends too soon. -/
  | ended
  /-- The text is not JSON. -/
  | malformed
  /-- The text is JSON, but not of the shape that is read. -/
  | mistyped
deriving DecidableEq, Repr

/-- Reads a part of the text and leaves the rest. -/
abbrev Reader (α : Type) := StateT (List Char) (Except ReadError) α

/-- Whether a character may stand between the parts of a value. -/
def isBlank (c : Char) : Bool := c == ' ' || c == '\n' || c == '\t' || c == '\r'

/-- The error where something else should stand, if the text goes on there. -/
def misplaced {α : Type} : Reader α := do
  match ← get with
  | [] => throw .ended
  | _ :: _ => throw .malformed

/-- Skips what may stand between the parts of a value. -/
def skipBlanks : Reader Unit := modify (·.dropWhile isBlank)

def take : Reader Char := do
  match ← get with
  | [] => throw .ended
  | c :: cs => set cs; return c

/-- The next character that is not blank, which stays to be read. -/
def upcoming : Reader Char := do
  skipBlanks
  match ← get with
  | [] => throw .ended
  | c :: _ => return c

def word : List Char → Reader Unit
  | [] => return ()
  | e :: es => do if (← take) = e then word es else throw .malformed

/-- The longest run of characters that pass a test. -/
def takeWhile (p : Char → Bool) : Reader (List Char) :=
  modifyGet fun cs => (cs.takeWhile p, cs.dropWhile p)

/-- The number that four hexadecimal digits write. -/
def fourHex : Reader Nat := do
  let cs ← get
  if 4 ≤ cs.length ∧ (cs.take 4).all (isDigitOf 16) then
    set (cs.drop 4)
    return natOfDigits 16 (cs.take 4)
  else if utf8Length (cs.take 4) < 4 then throw .ended
  else throw .malformed

/-- Whether a code unit is the first half of a pair. -/
def isLeadingSurrogate (n : Nat) : Bool := 0xD800 ≤ n && n < 0xDC00

/-- Whether a code unit is the second half of a pair. -/
def isTrailingSurrogate (n : Nat) : Bool := 0xDC00 ≤ n && n < 0xE000

/-- A character written in hexadecimal; one beyond U+FFFF as two surrogates. -/
def codePoint : Reader Char := do
  let n ← fourHex
  if isTrailingSurrogate n then throw .malformed
  else if isLeadingSurrogate n then
    word ['\\', 'u']
    let m ← fourHex
    if isTrailingSurrogate m then
      return Char.ofNat (0x10000 + (n - 0xD800) * 0x400 + (m - 0xDC00))
    else throw .malformed
  else return Char.ofNat n

/-- What stands behind a backslash. Unless `checked`, any code unit will do, and which character it
stands for does not matter. -/
def escape (checked : Bool) : Reader Char := do
  match ← take with
  | '"' => return '"'
  | '\\' => return '\\'
  | '/' => return '/'
  | 'b' => return '\x08'
  | 'f' => return '\x0c'
  | 'n' => return '\n'
  | 'r' => return '\r'
  | 't' => return '\t'
  | 'u' =>
    if checked then codePoint
    else
      let _ ← fourHex
      return ' '
  | _ => throw .malformed

/-- The rest of a string of at most `bound` characters; `read` is what came before, backwards. -/
def stringFrom (checked : Bool) : Nat → List Char → Reader String
  | 0, _ => throw .ended
  | bound + 1, read => do
    let c ← take
    if c = '"' then return String.ofList read.reverse
    else if c = '\\' then stringFrom checked bound ((← escape checked) :: read)
    else if c.toNat < 0x20 then throw .malformed
    else stringFrom checked bound (c :: read)

/-- A string behind its opening quote. -/
def stringBody (checked : Bool) : Reader String := do
  stringFrom checked (← get).length []

/-- Digits, of which there must be at least one. -/
def digits (checked : Bool) : Reader (List Char) := do
  match ← takeWhile Char.isDigit with
  | [] => if checked then misplaced else throw .malformed
  | ds => return ds

/-- The digits in front of a point. A zero stands alone there. -/
def wholeDigits (checked : Bool) : Reader (List Char) := do
  match ← digits checked with
  | '0' :: _ :: _ => throw .malformed
  | ds => return ds

/-- The digits behind a decimal point, if there is one. -/
def fractionDigits (checked : Bool) : Reader (Option (List Char)) := do
  match ← get with
  | '.' :: cs => set cs; return some (← digits checked)
  | _ => return none

/-- The power of ten, if one is written. -/
def exponent (checked : Bool) : Reader (Option Int) := do
  match ← get with
  | c :: cs =>
    if c = 'e' ∨ c = 'E' then
      match cs with
      | '-' :: cs => set cs; return some (-(natOfDigits 10 (← digits checked)))
      | '+' :: cs => set cs; return some (natOfDigits 10 (← digits checked))
      | cs => set cs; return some (natOfDigits 10 (← digits checked))
    else return none
  | [] => return none

/-- A number. The answer is its value if it is natural, has no point and no exponent, and is below
`numberLimit`. If `checked`, the number must not be too large. -/
def number (checked : Bool) : Reader (Option Nat) := do
  let negative ← match ← get with
    | '-' :: cs => set cs; pure true
    | _ => pure false
  let whole ← wholeDigits checked
  let fraction ← fractionDigits checked
  let power ← exponent checked
  if checked ∧ (roundedDown whole (fraction.getD []) (power.getD 0)).overflows then
    throw .malformed
  else if !negative ∧ fraction.isNone ∧ power.isNone ∧ natOfDigits 10 whole < numberLimit then
    return some (natOfDigits 10 whole)
  else return none

/-- The items from the next one on, at most `bound`, and the closing bracket. -/
def itemsFrom {α : Type} (item : Reader α) : Nat → Reader (List α)
  | 0 => throw .ended
  | bound + 1 => do
    let a ← item
    match ← upcoming with
    | ']' => let _ ← take; return [a]
    | ',' => let _ ← take; return a :: (← itemsFrom item bound)
    | _ => throw .malformed

/-- A list behind its opening bracket. -/
def items {α : Type} (item : Reader α) : Reader (List α) := do
  match ← upcoming with
  | ']' => let _ ← take; return []
  | _ => itemsFrom item (← get).length

def colon : Reader Unit := do
  match ← upcoming with
  | ':' => let _ ← take
  | _ => throw .malformed

def fieldName (checked : Bool) : Reader String := do
  match ← upcoming with
  | '"' => let _ ← take; stringBody checked
  | _ => throw .malformed

/-- The fields from the next one on, at most `bound`, and the closing brace. What a field means for
the state is told by `field`, which reads from the colon on. -/
def fieldsFrom {σ : Type} (checked : Bool) (field : String → σ → Reader σ) :
    Nat → σ → Reader σ
  | 0, _ => throw .ended
  | bound + 1, s => do
    let s ← field (← fieldName checked) s
    match ← upcoming with
    | '}' => let _ ← take; return s
    | ',' => let _ ← take; fieldsFrom checked field bound s
    | _ => throw .malformed

/-- The fields of a record behind its opening brace, taken in one after the other. -/
def fields {σ : Type} (checked : Bool) (field : String → σ → Reader σ) (s : σ) : Reader σ := do
  match ← upcoming with
  | '}' => let _ ← take; return s
  | _ => fieldsFrom checked field (← get).length s

/-- Skips a value that is at most `bound` levels deep. -/
def skipAtMost : Nat → Reader Unit
  | 0 => throw .ended
  | bound + 1 => do
    match ← upcoming with
    | 'n' => word "null".toList
    | 't' => word "true".toList
    | 'f' => word "false".toList
    | '"' =>
      let _ ← take
      let _ ← stringBody false
    | '[' =>
      let _ ← take
      let _ ← items (skipAtMost bound)
    | '{' =>
      let _ ← take
      let _ ← fields false (fun _ _ => do colon; skipAtMost bound) ()
    | c =>
      if c = '-' ∨ c.isDigit then
        let _ ← number false
      else throw .malformed

/-- Any value, of which nothing is kept. -/
def skip : Reader Unit := do skipAtMost (← get).length

/-- The error for a value of the wrong shape: a scalar that is not even JSON is reported as such. -/
def wrongShape {α : Type} : Reader α := do
  match ← upcoming with
  | 'n' => word "null".toList; throw .mistyped
  | 't' => word "true".toList; throw .mistyped
  | 'f' => word "false".toList; throw .mistyped
  | '"' =>
    let _ ← take
    let _ ← stringBody true
    throw .mistyped
  | '[' | '{' => throw .mistyped
  | c =>
    if c = '-' ∨ c.isDigit then
      let _ ← number true
      throw .mistyped
    else throw .malformed

/-- A string; anything else has the wrong shape. -/
def text : Reader String := do
  match ← upcoming with
  | '"' => let _ ← take; stringBody true
  | _ => wrongShape

/-- A number that fits in 64 bits; anything else has the wrong shape. -/
def natural : Reader Nat := do
  let c ← upcoming
  if c = '-' ∨ c.isDigit then
    match ← number true with
    | some n => return n
    | none => throw .mistyped
  else wrongShape

end Shorthand.Json
