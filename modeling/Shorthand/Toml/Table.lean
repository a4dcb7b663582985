import Shorthand.NameMap
import Shorthand.Toml.Quoted
import Shorthand.Toml.Value

/-! # Building TOML tables

Keys and headers put values and tables at the end of a path of names. A name stands for one thing
only, and a table is defined in one place: a header may go on with a table that only headers below
it have named, a dotted key may go on with a table that only dotted keys have made. -/

namespace Shorthand.Toml

/-- How a table came about. -/
inductive Origin
  /-- By a header of its own. -/
  | header
  /-- By the header of a table below it. -/
  | implied
  /-- By a dotted key. -/
  | dotted
  /-- Between braces. -/
  | inline
deriving DecidableEq, Repr

/-- What a name stands for while a document is read, and the place where that begins. -/
inductive Node
  | leaf (place : Place) (v : Value)
  | list (place : Place) (items : List Node)
  /-- A table with its entries in the order in which the document gives them. -/
  | table (place : Place) (origin : Origin) (entries : List (String × Node))
  /-- The tables that headers in double brackets have added under one name. -/
  | tables (place : Place) (items : List (List (String × Node)))

/-- The names of a table and what they stand for, in the order of the document. -/
abbrev Nodes := List (String × Node)

namespace Node

/-- Where a node begins. A table without a header of its own begins where its name stands first. -/
def place : Node → Place
  | leaf place _ | list place _ | table place _ _ | tables place _ => place

end Node

namespace Nodes

/-- Puts a node under a name, in place of a former one or else behind the others. -/
def put (name : String) (node : Node) : Nodes → Nodes
  | [] => [(name, node)]
  | (n, v) :: rest => if n = name then (name, node) :: rest else (n, v) :: put name node rest

/-- Puts a node under a name behind the others. -/
def putLast (name : String) (node : Node) (nodes : Nodes) : Nodes :=
  nodes.filter (·.1 ≠ name) ++ [(name, node)]

/-- Whether a way may lead through a table: a dotted key goes through tables without a header of
their own. -/
def passes (dotted : Bool) : Origin → Bool
  | .inline => false
  | .header => !dotted
  | .implied | .dotted => true

/-- Changes the table that a path leads to, making the tables on the way that are missing. A way
goes through the last of several tables under one name. -/
def descend (dotted : Bool) (change : Origin → Nodes → Option Nodes) :
    List Name → Origin → Nodes → Option Nodes
  | [], origin, nodes => change origin nodes
  | name :: path, _, nodes =>
    match nodes.lookup name.text with
    | none => do
      let origin := if dotted then .dotted else .implied
      let below ← descend dotted change path origin []
      return put name.text (.table name.place origin below) nodes
    | some (.table place origin below) =>
      if passes dotted origin then do
        let below ← descend dotted change path origin below
        return put name.text (.table place origin below) nodes
      else none
    | some (.tables place items) => do
      let last ← items.getLast?
      let below ← descend dotted change path .header last
      return put name.text (.tables place (items.dropLast ++ [below])) nodes
    | some _ => none

/-- Gives a value to the last of the names; the others lead to the table that it belongs to. Where
there are others, that table must be one that dotted keys have made. -/
def assign (path : List Name) (name : String) (node : Node) : Origin → Nodes → Option Nodes :=
  descend true (fun origin nodes =>
    if (origin == .dotted) != path.isEmpty && (nodes.lookup name).isNone then
      some (put name node nodes)
    else none) path

/-- Opens the table that a header at the given place names. One that was only implied before now
stands behind the others. -/
def openTable (place : Place) (path : List Name) (name : String) (root : Nodes) : Option Nodes :=
  descend false (fun _ nodes =>
    match nodes.lookup name with
    | none => some (put name (.table place .header []) nodes)
    | some (.table _ .implied below) => some (putLast name (.table place .header below) nodes)
    | some _ => none) path .header root

/-- Opens a further table under the name that a header in double brackets gives. -/
def openItem (place : Place) (path : List Name) (name : String) (root : Nodes) : Option Nodes :=
  descend false (fun _ nodes =>
    match nodes.lookup name with
    | none => some (put name (.tables place [[]]) nodes)
    | some (.tables first items) => some (put name (.tables first (items ++ [[]])) nodes)
    | some _ => none) path .header root

end Nodes

/-- A document that is read: its root and the path of the table that was opened last. -/
structure Draft where
  root : Nodes
  opened : List Name

namespace Draft

def empty : Draft := ⟨[], []⟩

/-- Opens the table of a header at the given place, which may be in double brackets. -/
def header (d : Draft) (place : Place) (double : Bool) (names : List Name) : Option Draft := do
  let name ← names.getLast?
  let root ← if double then Nodes.openItem place names.dropLast name.text d.root
    else Nodes.openTable place names.dropLast name.text d.root
  return ⟨root, names⟩

/-- Gives a value to a key of the table that was opened last. -/
def assign (d : Draft) (names : List Name) (node : Node) : Option Draft := do
  let name ← names.getLast?
  let change := Nodes.assign names.dropLast name.text node
  let root ← Nodes.descend false change d.opened .header d.root
  return { d with root }

end Draft

/-- The table that keys and their values make between braces. -/
def inlineTable? (place : Place) (pairs : List (List Name × Node)) : Option Node := do
  let nodes ← pairs.foldlM (fun nodes (names, node) => do
    let name ← names.getLast?
    Nodes.assign names.dropLast name.text node .inline nodes) ([] : Nodes)
  return .table place .inline nodes

end Shorthand.Toml
