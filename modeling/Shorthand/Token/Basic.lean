/-! # Tokens

The words of an abbreviation. A `Lexeme` is what was read, a `Token` is a lexeme with the place
where it starts. Only the contents of quoted and braced runs are kept, with doubled delimiters
resolved. -/

namespace Shorthand

/-- What can be wrong with a single token. -/
inductive LexError
  /-- A quoted or braced run meets the end of the input before its closing delimiter. -/
  | suddenEnd
  /-- A `}` outside a braced run. -/
  | strayBrace
deriving DecidableEq, Repr

namespace LexError

/-- What is said to the user about a text that cannot be scanned. -/
def message : LexError → String
  | suddenEnd => "sudden EOF"
  | strayBrace => "unexpected character '\x7d'"

end LexError

/-- The tokens that are a single character of their own. -/
inductive Mark
  | child
  | sibling
  | climb
  | times
  | openGroup
  | closeGroup
  | hash
  | dot
  | openAttrs
  | closeAttrs
  | equals
deriving DecidableEq, Repr

namespace Mark

def char : Mark → Char
  | child => '>'
  | sibling => '+'
  | climb => '^'
  | times => '*'
  | openGroup => '('
  | closeGroup => ')'
  | hash => '#'
  | dot => '.'
  | openAttrs => '['
  | closeAttrs => ']'
  | equals => '='

def all : List Mark :=
  [child, sibling, climb, times, openGroup, closeGroup, hash, dot, openAttrs, closeAttrs, equals]

/-- The mark that a character stands for. -/
def ofChar? (c : Char) : Option Mark := all.find? (·.char == c)

@[simp] theorem ofChar?_char (m : Mark) : ofChar? m.char = some m := by cases m <;> rfl

theorem char_of_ofChar? {c : Char} {m : Mark} (h : ofChar? c = some m) : m.char = c := by
  simpa using List.find?_some h

end Mark

/-- What a token says. -/
inductive Lexeme
  | eof
  | error (cause : LexError)
  | mark (m : Mark)
  /-- A run of characters that are neither marks, delimiters nor blanks. -/
  | word (content : String)
  /-- A run in braces. -/
  | text (content : String)
  /-- A run in either kind of quotes. -/
  | quoted (content : String)
deriving DecidableEq, Repr

namespace Lexeme

/-- How messages show a lexeme. Quoted runs are always shown in double quotes, and nothing is
escaped. -/
def display : Lexeme → String
  | eof => "end of input"
  | error e => e.message
  | mark m => m.char.toString
  | word s => "word(" ++ s ++ ")"
  | text s => "\x7b" ++ s ++ "\x7d"
  | quoted s => "\"" ++ s ++ "\""

/-- Nothing after such a lexeme is looked at. -/
def isFinal : Lexeme → Bool
  | eof | error _ => true
  | _ => false

/-- The operators that join two abbreviations. -/
def isOperator : Lexeme → Bool
  | mark .child | mark .sibling | mark .climb => true
  | _ => false

/-- The lexemes that a group or an element starts with. -/
def startsAbbreviation : Lexeme → Bool
  | mark .openGroup | word _ | text _ => true
  | _ => false

/-- The content of a word or of a run. -/
def content : Lexeme → String
  | word s | text s | quoted s => s
  | _ => ""

end Lexeme

/-- A lexeme and the place of its first character, as a byte offset counted from one. -/
structure Token where
  lexeme : Lexeme
  position : Nat
deriving DecidableEq, Repr

end Shorthand
