import Shorthand.Config.Value
import Shorthand.Text.Digit

/-! # Configuration keys

A key leads from the root of a configuration through names and places in lists to a value. The case
of letters does not matter. Putting a value under a key makes the tables and lists on the way; a
table that is put where there is one already is merged into it, name by name. -/

namespace Shorthand.Config
open Text

/-- A way from a value to a part of it. -/
inductive Step
  | field (name : String)
  /-- A place in a list; negative ones count from its end. -/
  | item (place : Int)
deriving DecidableEq, Repr

/-- The steps of a key; the last one stands apart. -/
structure Key where
  path : List Step
  last : Step
deriving DecidableEq, Repr

namespace Key

/-- The form in which names are compared. No setting has a letter beyond ASCII in its name. -/
def fold (name : List Char) : String := String.ofList (name.map Char.toLower)

/-- The key that is a single name. -/
def ofName (name : String) : Key := ⟨[], .field (fold name.toList)⟩

/-- Whether a character may stand in a name. -/
def isNameChar (c : Char) : Bool := c.isAlphanum || c == '_' || c == '-' || c == ' '

def isBlank (c : Char) : Bool := c == ' ' || c == '\t'

/-- A name at the beginning, and the rest. -/
def name? (cs : List Char) : Option (String × List Char) :=
  match cs.takeWhile isNameChar with
  | [] => none
  | n => some (fold n, cs.dropWhile isNameChar)

/-- The places are integers of 64 bits. -/
def place? (negative : Bool) (digits : List Char) : Option Int :=
  let n := natOfDigits 10 digits
  if digits = [] then none
  else if negative then if n ≤ Nat.pow 2 63 then some (-n) else none
  else if n < Nat.pow 2 63 then some n else none

/-- A place in a list, with blanks around it, and its closing bracket, and the rest. -/
def item? (cs : List Char) : Option (Int × List Char) :=
  let (negative, cs) := match cs.dropWhile isBlank with
    | '-' :: cs => (true, cs)
    | cs => (false, cs)
  match place? negative (cs.takeWhile Char.isDigit),
      (cs.dropWhile Char.isDigit).dropWhile isBlank with
  | some place, ']' :: rest => some (place, rest)
  | _, _ => none

/-- A step behind the first name, and the rest. -/
def step? : List Char → Option (Step × List Char)
  | '.' :: cs => (name? cs).map fun (n, rest) => (.field n, rest)
  | '[' :: cs => (item? cs).map fun (i, rest) => (.item i, rest)
  | _ => none

/-- The steps behind the first name, at most `bound`. -/
def steps? : Nat → List Char → Option (List Step)
  | _, [] => some []
  | 0, _ => none
  | bound + 1, cs => do
    let (step, rest) ← step? cs
    return step :: (← steps? bound rest)

/-- The key that a text writes: names with dots between them, and places in brackets. -/
def parse? (s : String) : Option Key := do
  let (name, rest) ← name? s.toList
  let steps ← steps? rest.length rest
  let all := .field name :: steps
  return ⟨all.dropLast, all.getLast (by simp [all])⟩

end Key

namespace Value

mutual
/-- Puts a value under a name. A table is merged into what is there. -/
def put (name : String) : Value → Value → Value
  | .table _ incoming, target =>
    target.insert name (putAll incoming ((target.find? name).getD (.table none [])))
  | v, target => target.insert name v
/-- Puts the entries of a table, one after the other. -/
def putAll : List (String × Value) → Value → Value
  | [], target => target
  | (name, v) :: rest, target => putAll rest (put (Key.fold name.toList) v target)
end

/-- The items of a list, with more of them that are nothing where the place is outside, and the
number of the item at the place. -/
def reach (place : Int) (items : List Value) : List Value × Nat :=
  let missing := (-place).toNat - items.length
  if 0 ≤ place then
    (items ++ List.replicate (place.toNat + 1 - items.length) nothing, place.toNat)
  else (List.replicate missing nothing ++ items, (-place).toNat.max items.length - (-place).toNat)

/-- Changes the item at a place. What is no list becomes one. -/
def changeItem (change : Value → Value) (place : Int) (v : Value) : Value :=
  let origin := match v with
    | list origin _ => origin
    | _ => none
  let (items, i) := reach place v.items
  list origin (items.modify i change)

/-- Changes what stands behind the steps. What is missing on the way is made. -/
def changeAt (change : Value → Value) : List Step → Value → Value
  | [], v => change v
  | .field name :: path, v =>
    v.insert name (changeAt change path ((v.find? name).getD nothing))
  | .item place :: path, v => changeItem (changeAt change path) place v

/-- Puts a value where a key says. Under a name a table is merged into what is there; at a place of
a list it replaces it. -/
def assign (root : Value) (k : Key) (value : Value) : Value :=
  changeAt (fun parent =>
    match k.last with
    | .field name => put name value parent
    | .item place => changeItem (fun _ => value) place parent) k.path root

end Value
end Shorthand.Config
