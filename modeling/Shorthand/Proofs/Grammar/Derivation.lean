import Shorthand.Grammar.Parser

/-! # Derivation trees

The derivation trees of the grammar, with a type for every production that has a choice or a
repetition. The leaves of a tree are lexemes, which `lexemes` lists from left to right; `events` is
what the tree says, in the same order. -/

namespace Shorthand.Derivation
open Grammar

/-- The value of an attribute, bare or in quotes. -/
inductive Value
  | word (content : String)
  | quoted (content : String)
deriving DecidableEq, Repr

/-- `attr = WORD, ["=", (QUOTED | WORD)]` -/
structure Attr where
  name : String
  value : Option Value
deriving DecidableEq, Repr

/-- `id | class | attr-list`, where `attr-list = "[", attr, {attr}, "]"` -/
inductive Decoration
  | id (name : String)
  | className (name : String)
  | attrs (first : Attr) (others : List Attr)
deriving DecidableEq, Repr

/-- `tag-element = WORD, {id | class | attr-list}, [TEXT]` -/
structure Tag where
  name : String
  decorations : List Decoration
  text : Option String
deriving DecidableEq, Repr

/-- `tag-element | TEXT` -/
inductive Element
  | tag (t : Tag)
  | text (content : String)
deriving DecidableEq, Repr

/-- A `NUMBER`: a word of ASCII digits, leading zeros included, whose value is not too large. -/
structure Numeral where
  word : String
  ne_empty : word ≠ ""
  digits : word.toList.all Char.isDigit
  value_le : Text.natOfDigits 10 word.toList ≤ maxCount
deriving DecidableEq

/-- `operator = ">" | "+" | "^", {"^"}`; a climb counts its `^` behind the first. -/
inductive Operator
  | child
  | sibling
  | climb (further : Nat)
deriving DecidableEq, Repr

mutual
/-- `group | element`, each with its `[multiplication]`, where `group = "(", abbreviation, ")"` -/
inductive Item
  | element (e : Element) (count : Option Numeral)
  | group (inner : Abbreviation) (count : Option Numeral)
/-- `abbreviation = (group | element), [operator, abbreviation]` -/
inductive Abbreviation
  | single (i : Item)
  | joined (i : Item) (op : Operator) (rest : Abbreviation)
end

/-- One induction over the items and the abbreviations of a tree. -/
theorem induction {P : Item → Prop} {Q : Abbreviation → Prop}
    (element : ∀ e count, P (.element e count))
    (group : ∀ inner count, Q inner → P (.group inner count))
    (single : ∀ i, P i → Q (.single i))
    (joined : ∀ i op rest, P i → Q rest → Q (.joined i op rest)) :
    (∀ i, P i) ∧ ∀ a, Q a :=
  ⟨@Item.rec P Q element group single joined, @Abbreviation.rec P Q element group single joined⟩

def Value.lexeme : Value → Lexeme
  | word s => .word s
  | quoted s => .quoted s

/-- The leaves of an attribute. -/
def Attr.lexemes : Attr → List Lexeme
  | ⟨name, none⟩ => [.word name]
  | ⟨name, some v⟩ => [.word name, .mark .equals, v.lexeme]

/-- The leaves of a decoration, with its own marks. -/
def Decoration.lexemes : Decoration → List Lexeme
  | id name => [.mark .hash, .word name]
  | className name => [.mark .dot, .word name]
  | attrs first others =>
    .mark .openAttrs :: first.lexemes ++ others.flatMap Attr.lexemes ++ [.mark .closeAttrs]

/-- The leaf of a text, if there is one. -/
def textLexemes (text : Option String) : List Lexeme := (text.map .text).toList

def Tag.lexemes (t : Tag) : List Lexeme :=
  .word t.name :: t.decorations.flatMap Decoration.lexemes ++ textLexemes t.text

def Element.lexemes : Element → List Lexeme
  | tag t => t.lexemes
  | text s => [.text s]

/-- The leaves of a multiplication, if there is one. -/
def countLexemes : Option Numeral → List Lexeme
  | none => []
  | some n => [.mark .times, .word n.word]

/-- The leaves of an operator, of which only a climb can have several. -/
def Operator.lexemes : Operator → List Lexeme
  | child => [.mark .child]
  | sibling => [.mark .sibling]
  | climb further => .mark .climb :: List.replicate further (.mark .climb)

mutual
def Item.lexemes : Item → List Lexeme
  | .element e count => e.lexemes ++ countLexemes count
  | .group inner count =>
    .mark .openGroup :: inner.lexemes ++ .mark .closeGroup :: countLexemes count
/-- The leaves of a whole abbreviation. -/
def Abbreviation.lexemes : Abbreviation → List Lexeme
  | .single i => i.lexemes
  | .joined i op rest => i.lexemes ++ op.lexemes ++ rest.lexemes
end

theorem Attr.lexemes_ne_nil (a : Attr) : a.lexemes ≠ [] := by
  rcases a with ⟨name, _ | v⟩ <;> simp [lexemes]

theorem Decoration.lexemes_ne_nil (d : Decoration) : d.lexemes ≠ [] := by
  cases d <;> simp [lexemes]

theorem Item.lexemes_ne_nil (i : Item) : i.lexemes ≠ [] := by
  rcases i with ⟨⟨name, ds, x⟩ | s, count⟩ | ⟨a, count⟩ <;>
    simp [lexemes, Element.lexemes, Tag.lexemes]

theorem Abbreviation.lexemes_ne_nil (a : Abbreviation) : a.lexemes ≠ [] := by
  cases a with
  | single i => exact i.lexemes_ne_nil
  | joined i op rest =>
    have := i.lexemes_ne_nil
    simp [lexemes, this]

/-- What a value says, without its quotes. -/
def Value.content : Value → String
  | word s | quoted s => s

/-- The event of an attribute, whose value is empty if it is left out. -/
def Attr.event (a : Attr) : Event := .attribute a.name ((a.value.map Value.content).getD "")

/-- What the builder is told of a decoration. -/
def Decoration.events : Decoration → List Event
  | id name => [.id name]
  | className name => [.className name]
  | attrs first others => first.event :: others.map Attr.event

/-- What the builder is told of a text, if there is one. -/
def textEvents (text : Option String) : List Event := (text.map .text).toList

/-- What the builder is told of a tag, its name first. -/
def Tag.events (t : Tag) : List Event :=
  .element t.name :: t.decorations.flatMap Decoration.events ++ textEvents t.text

def Element.events : Element → List Event
  | tag t => t.events
  | text s => [.text s]

/-- The number that a numeral stands for. -/
def Numeral.value (n : Numeral) : Nat := Text.natOfDigits 10 n.word.toList

def countEvents (count : Option Numeral) : List Event := (count.map (.multiply ·.value)).toList

/-- A run of `^` is one event. -/
def Operator.event : Operator → Event
  | child => .child
  | sibling => .sibling
  | climb further => .climb (further + 1)

mutual
/-- What the builder is told of an item. The count comes behind everything inside it. -/
def Item.events : Item → List Event
  | .element e count => e.events ++ countEvents count
  | .group inner count => .openGroup :: inner.events ++ .closeGroup :: countEvents count
/-- What the builder is told of a whole abbreviation, each operator between its operands. -/
def Abbreviation.events : Abbreviation → List Event
  | .single i => i.events
  | .joined i op rest => i.events ++ op.event :: rest.events
end

/-- The text reads as `a`: no token is malformed, and those in front of the end of the input are the
leaves of `a`. -/
def Derives (source : String) (a : Abbreviation) : Prop :=
  (tokenize source).map (·.lexeme) = a.lexemes ++ [.eof]

instance (source : String) (a : Abbreviation) : Decidable (Derives source a) :=
  inferInstanceAs (Decidable (_ = _))

end Shorthand.Derivation
