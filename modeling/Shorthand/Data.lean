import Shorthand.Tree.Snapshot

/-! # Snapshots as data

`Data` is what the data formats write: texts, natural numbers, records with named fields and lists.
A snapshot becomes a record that leaves out what is empty. -/

namespace Shorthand

/-- What a writer of JSON or YAML is given. -/
inductive Data
  | text (s : String)
  | number (n : Nat)
  /-- Fields in the order in which they are written. -/
  | record (fields : List (String × Data))
  | list (items : List Data)
deriving Inhabited

/-- How the data formats name a kind. -/
def NodeKind.dataName : NodeKind → String
  | root => "root"
  | inProgress => "in-progress"
  | element => "element"
  | text => "text"
  | group => "group"

namespace Snapshot

mutual
/-- The record of a snapshot. Its kind is always there, the rest only where it is not empty. -/
def toData : Snapshot → Data
  | ⟨kind, name, attributes, count, children⟩ =>
    .record <|
      [("kind", .text kind.dataName)] ++
      (if name = "" then [] else [("name", .text name)]) ++
      (if attributes.entries.isEmpty then []
        else [("attributes", .record (attributes.entries.map fun (n, v) => (n, .text v)))]) ++
      (if count = 0 then [] else [("repeat", .number count)]) ++
      (match children with
        | [] => []
        | first :: rest => [("children", .list (toData first :: toDataList rest))])
def toDataList : List Snapshot → List Data
  | [] => []
  | s :: rest => toData s :: toDataList rest
end

end Snapshot
end Shorthand
