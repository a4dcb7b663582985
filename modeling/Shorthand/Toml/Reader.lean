/-! # Reading with a place of failure

A `Reader` takes characters from the front of a text. Where it fails, the rest that it leaves begins
at the place that is to blame. A mismatch only says that the text does not start with what was
looked for, so that something else may be tried; after `commit` there is nothing else to try. -/

namespace Shorthand.Toml

/-- Whether something else may be tried in place of what could not be read. -/
inductive Fault
  /-- The text does not go on with what is read. -/
  | mismatch
  /-- The text cannot go on so. -/
  | invalid
deriving DecidableEq, Repr

/-- A place in a text: what the text goes on with from there. -/
abbrev Place := List Char

/-- Reads a part of the text and leaves the rest, also on failure. -/
abbrev Reader (α : Type) := EStateM Fault Place α

namespace Reader
variable {α β : Type}

/-- What is found in no text. -/
def fail : Reader α := throw .mismatch

/-- Reads with `p`; if the text does not go on so, it must not go on at all. -/
def commit (p : Reader α) : Reader α := fun cs =>
  match p cs with
  | .error _ rest => .error .invalid rest
  | result => result

/-- The second reader where the text does not go on with what the first one reads. -/
def either (p q : Reader α) : Reader α := fun cs =>
  match p cs with
  | .error .mismatch _ => q cs
  | result => result

/-- What the reader gives, or nothing where the text does not go on with it. -/
def maybe (p : Reader α) : Reader (Option α) := either (some <$> p) (return none)

/-- Reads with `p` and takes what `f` makes of it. If `f` makes nothing of it, the beginning of what
was read is to blame. -/
def refine (p : Reader α) (f : α → Option β) : Reader β := fun cs =>
  match p cs with
  | .ok a rest =>
    match f a with
    | some b => .ok b rest
    | none => .error .mismatch cs
  | .error fault rest => .error fault rest

/-- Looks whether the text goes on with `p`, and takes nothing. -/
def ahead (p : Reader α) : Reader Unit := fun cs =>
  match p cs with
  | .ok _ _ => .ok () cs
  | .error fault rest => .error fault rest

/-- One character that passes the test. -/
def one (test : Char → Bool) : Reader Char := do
  match ← get with
  | c :: cs => if test c then set cs; return c else fail
  | [] => fail

def char (c : Char) : Reader Unit := do let _ ← one (· = c)

def word (expected : List Char) : Reader Unit := do
  let cs ← get
  if expected.isPrefixOf cs then set (cs.drop expected.length) else fail

/-- The longest run of characters that pass the test, which may be empty. -/
def run (test : Char → Bool) : Reader (List Char) :=
  modifyGet fun cs => (cs.takeWhile test, cs.dropWhile test)

/-- Takes at least one character that passes the test. -/
def someRun (test : Char → Bool) : Reader (List Char) := do
  let c ← one test
  return c :: (← run test)

/-- Reads with `p` as often as the text goes on so, at most `bound` times. -/
def manyAtMost (p : Reader α) : Nat → Reader (List α)
  | 0 => return []
  | bound + 1 => do
    match ← maybe p with
    | some a => return a :: (← manyAtMost p bound)
    | none => return []

/-- Reads with `p`, which takes at least a character, as often as the text goes on so. -/
def many (p : Reader α) : Reader (List α) := do manyAtMost p (← get).length

def oneOrMore (p : Reader α) : Reader (List α) := do return (← p) :: (← many p)

/-- Reads with `p` at least once, with `separator` in between. -/
def separated (p : Reader α) (separator : Reader Unit) : Reader (List α) := do
  return (← p) :: (← many (do separator; p))

/-- The end of the text. -/
def ended : Reader Unit := do
  match ← get with
  | [] => return ()
  | _ :: _ => fail

end Reader

open Reader

def isBlank (c : Char) : Bool := c == ' ' || c == '\t'

/-- Whether a character may stand in a comment or between quotes: it is a tab or not a control
character. -/
def isPrintable (c : Char) : Bool := c == '\t' || (0x20 ≤ c.toNat && c.toNat != 0x7F)

/-- Blanks within a line, if there are any. -/
def blanks : Reader Unit := do let _ ← run isBlank

/-- A line break. Another character is taken before the reading fails. -/
def newline : Reader Unit := do
  match ← get with
  | '\n' :: cs => set cs
  | '\r' :: cs => set cs; char '\n'
  | _ :: cs => set cs; fail
  | [] => fail

/-- A comment, up to the end of its line. -/
def comment : Reader Unit := do
  char '#'
  let _ ← run isPrintable

/-- The end of a line or of the text. -/
def lineEnd : Reader Unit := either newline ended

/-- What may stand behind something at the end of its line. -/
def lineRest : Reader Unit := do
  blanks
  let _ ← maybe comment
  lineEnd

/-- Blanks, and at most so many line breaks, with comments in front of them. -/
def gapAtMost : Nat → Reader Unit
  | 0 => blanks
  | bound + 1 => do
    blanks
    match ← get with
    | '#' :: _ => comment; newline; gapAtMost bound
    | '\n' :: _ | '\r' :: _ => newline; gapAtMost bound
    | _ => return ()

/-- Blanks, line breaks and comments. A comment ends with its line, not with the text. -/
def gap : Reader Unit := do gapAtMost (← get).length

end Shorthand.Toml
