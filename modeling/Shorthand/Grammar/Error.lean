import Shorthand.Event
import Shorthand.Token.Basic

/-! # Why a text is not an abbreviation

Every error is final: an abbreviation is read completely or not at all. The messages name the token
in question and its place. -/

namespace Shorthand

/-- What the grammar asks for behind a mark. -/
inductive Fault
  | idName
  | className
  | attrName
  | attrValue
  | attrsEnd
  | groupBody
  | groupEnd
  | count
  /-- There is a count, but it is too large. -/
  | smallerCount
deriving DecidableEq, Repr

/-- What is said to the user about a missing part. -/
def Fault.message : Fault → String
  | idName => "id name is required"
  | className => "class name is required"
  | attrName => "attr name is required"
  | attrValue => "attr value is required"
  | attrsEnd => "] is required in the end of attrs"
  | groupBody => "a group or element is required"
  | groupEnd => ") is required in the end of a group"
  | count => "a number following * is required"
  | smallerCount => "multiplication count is too large"

/-- Why an abbreviation was not read. -/
inductive ParseError
  /-- A token is malformed. -/
  | lex (cause : LexError) (position : Nat)
  /-- Something is missing, and `found` stands in its place. -/
  | missing (fault : Fault) (found : Token)
  /-- The builder refused an event. -/
  | build (cause : BuildError)
  /-- There is no complete abbreviation in front of `found`. -/
  | unexpected (found : Token)
  /-- An abbreviation is complete in front of `found`. -/
  | trailing (found : Token)
deriving DecidableEq, Repr

namespace ParseError

/-- The error for a token that stands where something else is required. A malformed token is
reported as such. -/
def required (fault : Fault) (found : Token) : ParseError :=
  match found.lexeme with
  | .error cause => lex cause found.position
  | _ => missing fault found

/-- The message with the token in question. -/
def message : ParseError → String
  | lex cause position =>
    "parsing failed because of " ++ cause.message ++ " at " ++ toString position
  | missing fault found =>
    fault.message ++ ", found " ++ found.lexeme.display ++ " at " ++ toString found.position
  | build cause => cause.message
  | unexpected ⟨.eof, _⟩ => "parse error: unexpected end of input"
  | unexpected found =>
    "parsing failed because of unexpected " ++ found.lexeme.display ++ " at " ++
      toString found.position
  | trailing found =>
    "parsing failed because of extra " ++ found.lexeme.display ++ " at " ++
      toString found.position

/-- The message without the token in question. -/
def summary : ParseError → String
  | lex cause _ => cause.message
  | missing fault _ => fault.message
  | build cause => cause.message
  | unexpected _ => "parse error"
  | trailing _ => "parsing failed"

end ParseError
end Shorthand
