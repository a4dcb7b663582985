import Shorthand.Grammar.Error
import Shorthand.Text.Digit
import Shorthand.Token.Cursor

/-! # Reading an abbreviation

A recursive-descent reader for the grammar

    abbreviation   = (group | element), [operator, abbreviation]
    group          = "(", abbreviation, ")", [multiplication]
    element        = (tag-element | TEXT), [multiplication]
    tag-element    = WORD, {id | class | attr-list}, [TEXT]
    id             = "#", WORD
    class          = ".", WORD
    attr-list      = "[", attr, {attr}, "]"
    attr           = WORD, ["=", (QUOTED | WORD)]
    multiplication = "*", NUMBER
    operator       = ">" | "+" | "^", {"^"}

It reports what it reads to a builder and never looks at what is built. A production answers whether
the text starts with it; one that does not has reported nothing, and leaves the cursor where it was
or stands in a transaction that is rolled back.

The productions have hooks in them (`Hooks`) for every place where a token is pushed back, and for a
loop or a recursion that comes to its bound. The parser is what they are with the hooks `plain`; other
hooks can watch it. -/

namespace Shorthand

/-- The state of a reader: where it is, and what has been built. -/
structure Session (β : Type) where
  cursor : Cursor
  builder : β

/-- A step of reading, which may fail for good. What was built before a failure is kept. -/
abbrev ParseM (β : Type) := EStateM ParseError (Session β)

namespace Grammar
variable {β : Type}

/-- The largest count. -/
def maxCount : Nat := 10000

/-- Counts are read as numbers of 64 bits. -/
def countLimit : Nat := Nat.pow 2 64

/-- Reads the next token. -/
def next : ParseM β Token := fun s =>
  .ok s.cursor.next.1 { s with cursor := s.cursor.next.2 }

/-- Pushes the last token back. -/
def back : ParseM β Unit := fun s =>
  .ok () { s with cursor := s.cursor.back }

/-- Tells the builder of an event. If it refuses, the reading ends. -/
def emit [Builder β] (e : Event) : ParseM β Unit := fun s =>
  match Builder.accept s.builder e with
  | (b, none) => .ok () { s with builder := b }
  | (b, some cause) => .error (.build cause) { s with builder := b }

/-- Reads with `p`, or else with `q`. -/
def either (p q : ParseM β Bool) : ParseM β Bool := do
  if ← p then return true else q

/-- A bound for loops that read a token in each round. -/
def bound : ParseM β Nat := fun s => .ok (s.cursor.unread + 1) s

/-- Whether a lexeme is a word. -/
def isWord : Lexeme → Bool
  | .word _ => true
  | _ => false

/-- Whether an element starts with a lexeme. -/
def isWordOrText : Lexeme → Bool
  | .word _ | .text _ => true
  | _ => false

/-- Whether a lexeme is this mark. -/
def isMark (m : Mark) (l : Lexeme) : Bool := l == .mark m

/-- The number that a word writes, if it consists of digits and has no more than 64 bits. -/
def count? : Lexeme → Option Nat
  | .word s =>
    if s ≠ "" ∧ s.toList.all Char.isDigit ∧ Text.natOfDigits 10 s.toList < countLimit then
      some (Text.natOfDigits 10 s.toList)
    else none
  | _ => none

/-- What is done to push a token back, and what where a bound is reached. -/
structure Hooks (β : Type) where
  back : ParseM β Unit
  endless : ParseM β Unit

namespace Hooks
variable (w : Hooks β)

/-- The token that comes next, which stays to be read. -/
def peek : ParseM β Token := do
  let t ← next
  w.back
  return t

/-- Reads with `p` if the next token passes the test. -/
def startingWith (test : Lexeme → Bool) (p : ParseM β Bool) : ParseM β Bool := do
  if test (← w.peek).lexeme then p else return false

/-- Pushes back so many tokens. -/
def retreat : Nat → ParseM β Unit
  | 0 => return ()
  | n + 1 => do
    w.back
    retreat n

/-- Reads with `p` in a transaction, which is rolled back if the text does not start with `p`. -/
def attempt (p : ParseM β Bool) : ParseM β Bool := fun s =>
  match p { s with cursor := s.cursor.begin } with
  | .ok true s => .ok true { s with cursor := s.cursor.close }
  | .ok false s =>
    match w.retreat s.cursor.consumed s with
    | .ok () s => .ok false { s with cursor := s.cursor.close }
    | .error e s => .error e { s with cursor := s.cursor.close }
  | .error e s => .error e { s with cursor := s.cursor.close }

/-- Reads with `p` as long as it succeeds, at most `bound` times. -/
def manyAtMost (p : ParseM β Bool) : Nat → ParseM β Unit
  | 0 => w.endless
  | bound + 1 => do if ← p then manyAtMost p bound

/-- Reads with `p`, which reads at least a token where it succeeds, as long as it succeeds. -/
def many (p : ParseM β Bool) : ParseM β Unit := do w.manyAtMost p (← bound)

/-- Reads `^` as often as it comes, at most `bound` times, and the token behind. -/
def climbsAtMost : Nat → ParseM β Nat
  | 0 => do w.endless; return 0
  | bound + 1 => do
    if isMark .climb (← next).lexeme then return (← climbsAtMost bound) + 1
    else return 0

end Hooks

variable [Builder β]

/-- A mark and the name that it needs behind it. -/
def named (m : Mark) (fault : Fault) (event : String → Event) : ParseM β Bool := do
  if isMark m (← next).lexeme then
    let found ← next
    match found.lexeme with
    | .word name => emit (event name); return true
    | _ => throw (.required fault found)
  else return false

/-- `id` of the grammar. -/
def id : ParseM β Bool := named .hash .idName .id

/-- `class` of the grammar. -/
def className : ParseM β Bool := named .dot .className .className

namespace Hooks
variable (w : Hooks β)

/-- `attr` of the grammar. A name with no value has the empty one. -/
def attr : ParseM β Bool := do
  match (← next).lexeme with
  | .word name =>
    if isMark .equals (← next).lexeme then
      let found ← next
      match found.lexeme with
      | .word value | .quoted value => emit (.attribute name value); return true
      | _ => throw (.required .attrValue found)
    else
      w.back
      emit (.attribute name "")
      return true
  | _ => return false

/-- `attr-list` of the grammar. -/
def attrList : ParseM β Bool := do
  if isMark .openAttrs (← next).lexeme then
    if ← w.attempt w.attr then
      w.many (w.attempt w.attr)
      let found ← next
      if isMark .closeAttrs found.lexeme then return true
      else throw (.required .attrsEnd found)
    else throw (.required .attrName (← w.peek))
  else return false

/-- An id, a class or an attribute list. -/
def decoration : ParseM β Bool :=
  either (w.attempt id) (either (w.attempt className) (w.attempt w.attrList))

/-- A text in braces. -/
def textRun : ParseM β Bool := do
  match (← next).lexeme with
  | .text content => emit (.text content); return true
  | _ => w.back; return false

/-- `tag-element` of the grammar. -/
def tagElement : ParseM β Bool := do
  match (← next).lexeme with
  | .word name =>
    emit (.element name)
    w.many w.decoration
    let _ ← w.textRun
    return true
  | _ => w.back; return false

/-- `multiplication` of the grammar. -/
def multiplication : ParseM β Bool := do
  if isMark .times (← next).lexeme then
    let found ← next
    match count? found.lexeme with
    | none => throw (.required .count found)
    | some n =>
      if maxCount < n then throw (.required .smallerCount found)
      else
        emit (.multiply n)
        return true
  else
    w.back
    return false

/-- `element` of the grammar. -/
def element : ParseM β Bool := do
  if ← either (w.startingWith isWord w.tagElement) w.textRun then
    let _ ← w.startingWith (isMark .times) w.multiplication
    return true
  else return false

/-- `group` of the grammar, around what `inner` reads. -/
def group (inner : ParseM β Bool) : ParseM β Bool := do
  if isMark .openGroup (← next).lexeme then
    emit .openGroup
    if ← w.startingWith Lexeme.startsAbbreviation inner then
      let found ← next
      if isMark .closeGroup found.lexeme then
        emit .closeGroup
        let _ ← w.startingWith (isMark .times) w.multiplication
        return true
      else throw (.required .groupEnd found)
    else throw (.required .groupBody (← w.peek))
  else
    w.back
    return false

/-- A run of `^`. The token behind it is read too, and pushed back. -/
def repeatedClimb : ParseM β Bool := do
  let levels ← w.climbsAtMost (← bound)
  w.back
  if levels = 0 then return false
  else
    emit (.climb levels)
    return true

/-- `operator` of the grammar. -/
def operator : ParseM β Bool := do
  match (← next).lexeme with
  | .mark .child => emit .child; return true
  | .mark .sibling => emit .sibling; return true
  | .mark .climb => w.back; w.repeatedClimb
  | _ => w.back; return false

/-- An abbreviation of at most `bound` items and groups, one inside or behind the other. -/
def abbreviationAtMost : Nat → ParseM β Bool
  | 0 => do w.endless; return false
  | bound + 1 => do
    if ← either (w.startingWith (isMark .openGroup) (w.group (abbreviationAtMost bound)))
        (w.startingWith isWordOrText w.element) then
      if ← w.startingWith Lexeme.isOperator w.operator then
        w.startingWith Lexeme.startsAbbreviation (abbreviationAtMost bound)
      else return true
    else return false

/-- `abbreviation` of the grammar. -/
def abbreviation : ParseM β Bool := do w.abbreviationAtMost (← bound)

end Hooks

/-- The end of the input, which an abbreviation should stand in front of. -/
def ending (parsed : Bool) : ParseM β Unit := do
  let found ← next
  match found.lexeme with
  | .error cause => throw (.lex cause found.position)
  | .eof => if parsed then return () else throw (.unexpected found)
  | _ => throw (if parsed then .trailing found else .unexpected found)

/-- A whole text: an abbreviation and then the end of the input. -/
def Hooks.sentence (w : Hooks β) : ParseM β Unit := do
  ending (← w.startingWith Lexeme.startsAbbreviation w.abbreviation)

/-- The hooks of the parser: a token is pushed back, and a bound just ends a loop. -/
def plain : Hooks β := ⟨back, return ()⟩

/-- A transaction of the parser. -/
def attempt (p : ParseM β Bool) : ParseM β Bool := plain.attempt p

/-- A whole text, as the parser reads it. -/
def sentence : ParseM β Unit := plain.sentence

end Grammar

/-- Reads a text and reports it to `builder`. -/
def parse {β : Type} [Builder β] (source : String) (builder : β) :
    EStateM.Result ParseError (Session β) Unit :=
  Grammar.sentence.run ⟨Cursor.ofString source, builder⟩

end Shorthand
