import Shorthand.Decimal.Shortest
import Shorthand.NameMap
import Shorthand.Text.Quoted
import Shorthand.Toml.Value

/-! # Configuration values

What the keys of a configuration stand for. A value that was read from a file remembers that file,
because messages name it; a table that was put together from several layers has none. -/

namespace Shorthand.Config
open Text

/-- A value without parts. -/
inductive Scalar
  | nothing
  | boolean (b : Bool)
  | integer (n : Int)
  | float (x : Double)
  | text (s : String)
deriving DecidableEq, Repr

/-- A value, which may know the document that it comes from. -/
inductive Value
  | scalar (origin : Option String) (s : Scalar)
  | list (origin : Option String) (items : List Value)
  | table (origin : Option String) (entries : List (String × Value))

/-- The keys of a table, in the order of their names, and what they stand for. -/
abbrev Entries := List (String × Value)

namespace Value

def nothing : Value := scalar none .nothing

/-- Where a value comes from; single settings and defaults have no document. -/
def origin : Value → Option String
  | scalar origin _ | list origin _ | table origin _ => origin

/-- How messages call a value. -/
def describe : Value → String
  | scalar _ .nothing => "unit value"
  | scalar _ (.boolean b) => "boolean `" ++ toString b ++ "`"
  | scalar _ (.integer n) => "integer `" ++ toString n ++ "`"
  | scalar _ (.float x) => "floating point `" ++ x.pointedText ++ "`"
  | scalar _ (.text s) => "string " ++ quote s
  | list .. => "sequence"
  | table .. => "map"

/-- The entries of a table; other values have none. -/
def entries : Value → Entries
  | table _ entries => entries
  | _ => []

/-- The items of a list; other values have none. -/
def items : Value → List Value
  | list _ items => items
  | _ => []

def find? (v : Value) (name : String) : Option Value := v.entries.lookup name

/-- Puts `value` under `name`, in place of a former value. What is no table becomes one. -/
def insert (v : Value) (name : String) (value : Value) : Value :=
  let origin := match v with
    | table origin _ => origin
    | _ => none
  table origin (NameMap.insertEntry name value v.entries)

/-- What was put under a name is found, and the other names are left alone. -/
theorem find?_insert (v value : Value) (name other : String) :
    (v.insert name value).find? other = if other = name then some value else v.find? other :=
  NameMap.lookup_insertEntry ..

mutual
/-- A value from a document of the given name. -/
def ofToml (document : String) : Toml.Value → Value
  | .text s => scalar (some document) (.text s)
  | .integer n => scalar (some document) (.integer n)
  | .float x => scalar (some document) (.float x)
  | .boolean b => scalar (some document) (.boolean b)
  | .moment m => scalar (some document) (.text m.text)
  | .list items => list (some document) (ofTomlItems document items)
  | .table entries => table (some document) (ofTomlEntries document entries)
def ofTomlItems (document : String) : List Toml.Value → List Value
  | [] => []
  | v :: vs => ofToml document v :: ofTomlItems document vs
def ofTomlEntries (document : String) : List (String × Toml.Value) → Entries
  | [] => []
  | (name, v) :: rest => (name, ofToml document v) :: ofTomlEntries document rest
end

end Value
end Shorthand.Config
