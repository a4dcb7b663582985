import Shorthand.Toml.Moment
import Shorthand.Toml.Table

/-! # Values out of nodes

When a document has been read to its end, its nodes give its values. A table whose first name is a
certain mark is no table, but the date or time in the text under the mark; what else it holds does
not matter. If there is no date or time under the mark, the node there is to blame. -/

namespace Shorthand.Toml
open NameMap (insertEntry)

/-- The name that marks a date or a time. -/
def momentMark : String := "$__toml_private_datetime"

namespace Node

/-- The date or the time that a node under the mark writes. -/
def toMoment : Node → Except Place Value
  | leaf place (.text s) =>
    match Moment.ofText? s with
    | some m => .ok (.moment m)
    | none => .error place
  | node => .error node.place

mutual
/-- The value of a node, or the place of the first number that no value holds. -/
def toValue : Node → Except Place Value
  | leaf _ v => .ok v
  | list _ items => do return .list (← itemValues items)
  | table _ _ nodes => tableValue nodes
  | tables _ items => do return .list (← tableValues items)
def itemValues : List Node → Except Place (List Value)
  | [] => .ok []
  | node :: rest => do
    let v ← node.toValue
    return v :: (← itemValues rest)
/-- The values of the tables of a list of tables. -/
def tableValues : List (List (String × Node)) → Except Place (List Value)
  | [] => .ok []
  | nodes :: rest => do
    let v ← tableValue nodes
    return v :: (← tableValues rest)
/-- The value of a table with the given nodes. -/
def tableValue : List (String × Node) → Except Place Value
  | [] => .ok (.table [])
  | (name, node) :: rest =>
    if name = momentMark then node.toMoment
    else do
      let v ← node.toValue
      return .table (insertEntry name v (← entryValues rest))
/-- The entries with the given nodes, in the order of their names. -/
def entryValues : List (String × Node) → Except Place Entries
  | [] => .ok []
  | (name, node) :: rest => do
    let v ← node.toValue
    return insertEntry name v (← entryValues rest)
end

end Node
end Shorthand.Toml
