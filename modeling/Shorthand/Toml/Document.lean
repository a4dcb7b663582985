import Shorthand.Text.Blank
import Shorthand.Toml.NodeValue
import Shorthand.Toml.Number

/-! # TOML documents

`parse` reads a document, version 1.0 of the format: lines with keys and their values, and headers
of tables. A document with an error is refused, and the error tells its place. -/

namespace Shorthand.Toml
open Reader

/-- A list behind its opening bracket. A comma may stand behind the last item. An item with a gap
around it that cannot be read is left for the closing bracket to fail at. -/
def listBody (value : Reader Node) : Reader (List Node) := do
  let items ← maybe do
    let items ← separated (do gap; let v ← value; gap; return v) (char ',')
    let _ ← maybe (char ',')
    return items
  gap
  commit (char ']')
  return items.getD []

/-- A key, an equals sign, and what `value` reads. -/
def pair (value : Reader Node) : Reader (List Name × Node) := do
  let names ← key
  commit do
    char '='
    blanks
    return (names, ← value)

/-- A table at the given place, behind its opening brace. -/
def inlineBody (value : Reader Node) (place : Place) : Reader Node := do
  let table ← refine (do
    let pairs ← maybe (separated (pair (do let v ← value; blanks; return v)) (char ','))
    blanks
    return pairs.getD []) (inlineTable? place)
  commit (char '}')
  return table

/-- A value that is neither a list nor a table. -/
def scalar : Reader Value := do
  match ← get with
  | [] => fail
  | '"' :: _ | '\'' :: _ => return .text (← string)
  | 't' :: _ => commit (word "true".toList); return .boolean true
  | 'f' :: _ => commit (word "false".toList); return .boolean false
  | 'i' :: _ => infinity; return .float (.infinite false)
  | 'n' :: _ => notANumber; return .float .nan
  | c :: _ =>
    if c = '+' ∨ c = '-' ∨ c.isDigit then
      either (do return .moment (← moment))
        (either (do return .float (← float)) (do return .integer (← integer)))
    else fail

/-- A value with at most so many lists and tables within one another. -/
def value : Nat → Reader Node
  | 0 => do
    let place ← get
    match place with
    | '[' :: _ | '{' :: _ => commit fail
    | _ => return .leaf place (← scalar)
  | depth + 1 => do
    let place ← get
    match place with
    | '[' :: cs => set cs; return .list place (← commit (listBody (value depth)))
    | '{' :: cs => set cs; commit (inlineBody (value depth) place)
    | _ => return .leaf place (← scalar)

/-- A header behind its opening brackets. -/
def headerNames (opening closing : List Char) : Reader (List Name) := do
  word opening
  commit do
    let names ← key
    word closing
    lineRest
    return names

/-- A line that opens a table, or with two brackets an item of a list of tables. -/
def header (d : Draft) : Reader Draft := do
  let place ← get
  match place with
  | ['['] => fail
  | '[' :: '[' :: _ => refine (headerNames ['[', '['] [']', ']']) (d.header place true)
  | _ => refine (headerNames ['['] [']']) (d.header place false)

/-- A line that gives a name its value. -/
def assignment (d : Draft) : Reader Draft :=
  refine (pair (do let v ← value (nestingLimit - 1); lineRest; return v)) fun (names, v) =>
    d.assign names v

/-- A line from its first character that is not blank on. -/
def line (d : Draft) : Reader Draft := do
  match ← get with
  | [] => fail
  | '#' :: _ => commit (do comment; lineEnd); return d
  | '[' :: _ => commit (header d)
  | '\n' :: _ | '\r' :: _ => newline; return d
  | _ :: _ => commit (assignment d)

/-- Lines up to the first one that does not start as a line does. -/
def linesAtMost : Nat → Draft → Reader Draft
  | 0, d => return d
  | bound + 1, d => do
    match ← maybe (do let d ← line d; blanks; return d) with
    | some d => linesAtMost bound d
    | none => return d

/-- A whole document, behind the mark that some editors put in front. -/
def document : Reader Nodes := do
  let _ ← maybe (char '\uFEFF')
  blanks
  let d ← linesAtMost (← get).length .empty
  ended
  return d.root

/-- The line and the column of an error, both counted from one. -/
structure SyntaxError where
  line : Nat
  column : Nat
deriving DecidableEq, Repr

/-- What stands in the line of the last of the given characters. -/
def lastLine (cs : List Char) : List Char := (cs.reverse.takeWhile (· ≠ '\n')).reverse

/-- The error behind so many characters of a text. In front of a character beyond ASCII columns are
bytes. The end of the text lies behind its last character, in the same line. -/
def SyntaxError.at (text : List Char) (read : Nat) : SyntaxError :=
  let before := text.take read
  match text.drop read with
  | c :: _ =>
    let column := if c.toNat < 0x80 then (lastLine before).length
      else Text.utf8Length (lastLine before)
    ⟨before.count '\n' + 1, column + 1⟩
  | [] =>
    let before := text.dropLast
    ⟨before.count '\n' + 1, (lastLine before).length + 2⟩

/-- Where the document is wrong; nothing is said about what would be right there. -/
def SyntaxError.message (e : SyntaxError) : String :=
  "TOML parse error at line " ++ toString e.line ++ ", column " ++ toString e.column

/-- The value of a document: a table of its keys, unless the first of them is the mark of a date or
a time. -/
def parse (text : String) : Except SyntaxError Value :=
  let error (place : Place) : SyntaxError :=
    .at text.toList (text.toList.length - place.length)
  match EStateM.run document text.toList with
  | .ok nodes _ => (Node.tableValue nodes).mapError error
  | .error _ rest => .error (error rest)

end Shorthand.Toml
