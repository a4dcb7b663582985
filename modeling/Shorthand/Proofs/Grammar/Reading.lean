import Shorthand.Proofs.Grammar.Derivation

/-! # Reading a list of lexemes

A second reader for the grammar. It works on a list of lexemes and takes no detours: nothing is
pushed back, and there is no cursor and no builder. A `Reading` lists the events to report, and then
gives what was read with the lexemes behind it, or the fault with the lexemes from the one in
question on. What is read is a derivation tree, so that soundness and completeness speak about all
of the tree at once (`abbreviation_sound`, `abbreviation_complete`). -/

namespace Shorthand

/-- What reading lexemes comes to: the events that were reported on the way, and the result with the
rest, or the fault with the lexemes from which it could not go on. -/
structure Reading (α : Type) where
  events : List Event
  ending : Except (Fault × List Lexeme) (α × List Lexeme)

namespace Reading
open Shorthand.Derivation
variable {α γ : Type}

/-- Reading ends with a result. -/
def done (events : List Event) (value : α) (rest : List Lexeme) : Reading α :=
  ⟨events, .ok (value, rest)⟩

/-- Reading ends with a fault. -/
def fault (f : Fault) (rest : List Lexeme) : Reading α := ⟨[], .error (f, rest)⟩

/-- Goes on behind the first reading, unless that has a fault. -/
def bind (r : Reading α) (next : α → List Lexeme → Reading γ) : Reading γ :=
  match r.ending with
  | .ok (a, rest) => ⟨r.events ++ (next a rest).events, (next a rest).ending⟩
  | .error e => ⟨r.events, .error e⟩

/-- Reports an event in front of the others. -/
def report (e : Event) (r : Reading α) : Reading α := ⟨e :: r.events, r.ending⟩

/-- Reads on if something was read. -/
def bindSome (r : Reading (Option α)) (next : α → List Lexeme → Reading (Option γ)) :
    Reading (Option γ) :=
  r.bind fun
    | none, rest => done [] none rest
    | some a, rest => next a rest

/-- Reads with `q` if nothing was read. -/
def orElse (r : Reading (Option α)) (q : List Lexeme → Reading (Option α)) : Reading (Option α) :=
  r.bind fun
    | none, rest => q rest
    | some a, rest => done [] (some a) rest

/-- The result in another form. -/
def map (f : α → γ) (r : Reading (Option α)) : Reading (Option γ) :=
  r.bindSome fun a rest => done [] (some (f a)) rest

/-- Reads with `p` if the first lexeme passes the test. -/
def startingWith (test : Lexeme → Bool) (p : List Lexeme → Reading (Option α)) :
    List Lexeme → Reading (Option α)
  | [] => done [] none []
  | l :: ls => if test l then p (l :: ls) else done [] none (l :: ls)

/-- Reads with `p` as long as it reads something, at most `bound` times. -/
def manyAtMost (p : List Lexeme → Reading (Option α)) : Nat → List Lexeme → Reading (List α)
  | 0, ls => done [] [] ls
  | bound + 1, ls => (p ls).bind fun
    | none, ls => done [] [] ls
    | some a, ls => (manyAtMost p bound ls).bind fun as ls => done [] (a :: as) ls

/-- Reads one thing after the other, until there is none. -/
def many (p : List Lexeme → Reading (Option α)) (ls : List Lexeme) : Reading (List α) :=
  manyAtMost p ls.length ls

/-- Reads a mark that has to be there. -/
def expect (m : Mark) (f : Fault) : List Lexeme → Reading Unit
  | [] => fault f []
  | l :: ls => if l = .mark m then done [] () ls else fault f (l :: ls)

/-! ### Productions -/

/-- The name behind the mark of an id or a class. -/
def nameFrom (f : Fault) (d : String → Decoration) : List Lexeme → Reading (Option Decoration)
  | .word name :: ls => done (d name).events (some (d name)) ls
  | ls => fault f ls

/-- A mark and a name behind it. -/
def named (m : Mark) (f : Fault) (d : String → Decoration) :
    List Lexeme → Reading (Option Decoration)
  | [] => done [] none []
  | l :: ls => if l = .mark m then nameFrom f d ls else done [] none (l :: ls)

def id : List Lexeme → Reading (Option Decoration) := named .hash .idName .id

def className : List Lexeme → Reading (Option Decoration) := named .dot .className .className

/-- The value that a lexeme can be. -/
def attrValue? : Lexeme → Option Value
  | .word s => some (.word s)
  | .quoted s => some (.quoted s)
  | _ => none

/-- An attribute; what follows a `=` must be its value. -/
def attr : List Lexeme → Reading (Option Attr)
  | .word name :: .mark .equals :: l :: ls =>
    match attrValue? l with
    | some v => done [Attr.event ⟨name, v⟩] (some ⟨name, v⟩) ls
    | none => fault .attrValue (l :: ls)
  | .word name :: ls => done [Attr.event ⟨name, none⟩] (some ⟨name, none⟩) ls
  | ls => done [] none ls

/-- The attributes behind the first, and the end of the list. -/
def attrsFrom (first : Attr) (ls : List Lexeme) : Reading (Option Decoration) :=
  (many attr ls).bind fun others ls =>
    (expect .closeAttrs .attrsEnd ls).bind fun _ ls => done [] (some (.attrs first others)) ls

/-- The attributes in a pair of brackets, of which there must be one. -/
def attrs (ls : List Lexeme) : Reading (Option Decoration) :=
  (attr ls).bind fun
    | none, ls => fault .attrName ls
    | some first, ls => attrsFrom first ls

def attrList : List Lexeme → Reading (Option Decoration)
  | .mark .openAttrs :: ls => attrs ls
  | ls => done [] none ls

/-- An id, a class name or attributes in brackets. -/
def decoration (ls : List Lexeme) : Reading (Option Decoration) :=
  (id ls).orElse fun ls => (className ls).orElse attrList

def text : List Lexeme → Reading (Option String)
  | .text s :: ls => done [.text s] (some s) ls
  | ls => done [] none ls

/-- A tag: its name, its decorations and its text. -/
def tag : List Lexeme → Reading (Option Tag)
  | .word name :: ls => report (.element name) <|
    (many decoration ls).bind fun decorations ls =>
      (text ls).bind fun text ls => done [] (some ⟨name, decorations, text⟩) ls
  | ls => done [] none ls

/-- The numeral that a word is, if it is one within the bound. -/
def numeral? (s : String) : Option Numeral :=
  if h : s ≠ "" ∧ s.toList.all Char.isDigit ∧ Text.natOfDigits 10 s.toList ≤ Grammar.maxCount then
    some ⟨s, h.1, h.2.1, h.2.2⟩
  else none

/-- What is wrong with a word that is no number. -/
def numeralFault (s : String) : Fault :=
  if (Grammar.count? (.word s)).isSome then .smallerCount else .count

/-- The number that a multiplication must have. -/
def numeral : List Lexeme → Reading (Option Numeral)
  | .word s :: ls =>
    match numeral? s with
    | some n => done [.multiply n.value] (some n) ls
    | none => fault (numeralFault s) (.word s :: ls)
  | ls => fault .count ls

def multiplication : List Lexeme → Reading (Option Numeral)
  | .mark .times :: ls => numeral ls
  | ls => done [] none ls

/-- A tag or a text, and its count. -/
def element (ls : List Lexeme) : Reading (Option Item) :=
  ((map .tag (tag ls)).orElse fun ls => map .text (text ls)).bindSome fun e ls =>
    (multiplication ls).bind fun count ls => done [] (some (.element e count)) ls

/-- The end of a group around `a`. -/
def groupFrom (a : Abbreviation) (ls : List Lexeme) : Reading (Option Item) :=
  (expect .closeGroup .groupEnd ls).bind fun _ ls => report .closeGroup <|
    (multiplication ls).bind fun count ls => done [] (some (.group a count)) ls

/-- A group around what `inner` reads. -/
def group (inner : List Lexeme → Reading (Option Abbreviation)) :
    List Lexeme → Reading (Option Item)
  | .mark .openGroup :: ls => report .openGroup <|
    (startingWith Lexeme.startsAbbreviation inner ls).bind fun
      | none, ls => fault .groupBody ls
      | some a, ls => groupFrom a ls
  | ls => done [] none ls

def isClimb (l : Lexeme) : Bool := l == .mark .climb

/-- An operator. A climb takes every climb directly behind it. -/
def operator : List Lexeme → Reading (Option Operator)
  | .mark .child :: ls => done [.child] (some .child) ls
  | .mark .sibling :: ls => done [.sibling] (some .sibling) ls
  | .mark .climb :: ls =>
    let further := (ls.takeWhile isClimb).length
    done [.climb (further + 1)] (some (.climb further)) (ls.dropWhile isClimb)
  | ls => done [] none ls

/-- An abbreviation of at most `bound` items and groups, one inside or behind the other. If there is
no item where one is needed, nothing is read, whatever was reported before. -/
def abbreviationAtMost : Nat → List Lexeme → Reading (Option Abbreviation)
  | 0, ls => done [] none ls
  | bound + 1, ls =>
    ((group (abbreviationAtMost bound) ls).orElse element).bindSome fun i ls =>
      (operator ls).bind fun
        | none, ls => done [] (some (.single i)) ls
        | some op, ls =>
          (startingWith Lexeme.startsAbbreviation (abbreviationAtMost bound) ls).bindSome
            fun rest ls => done [] (some (.joined i op rest)) ls

/-- Reads an abbreviation; no more levels can be needed than there are lexemes. -/
def abbreviation (ls : List Lexeme) : Reading (Option Abbreviation) :=
  abbreviationAtMost ls.length ls

end Reading
end Shorthand
