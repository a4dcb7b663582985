import Shorthand.Tree.Snapshot

/-! # Outlines

An outline has a line for every node below the root, in preorder. A line starts with a column for
each node between the root and the parent, which shows a bar if there are siblings still to come;
then comes a corner or a tee, the kind of the node and its label. -/

namespace Shorthand.Outline

/-- The number of characters of a text that a label shows. -/
def labelWidth : Nat := 30

/-- A text, cut off behind `labelWidth` characters. -/
def shorten (s : String) : String :=
  if labelWidth < s.length then String.ofList (s.toList.take labelWidth) ++ "..." else s

/-- What a label starts with. -/
def title (s : Snapshot) : String :=
  match s.kind with
  | .text => "\"" ++ shorten s.name ++ "\""
  | .group => "()"
  | _ => s.name

/-- The title of a node, its attributes by name and its count. -/
def label (s : Snapshot) : String :=
  let attributes := s.attributes.entries.map fun (name, value) => " @" ++ name ++ "=" ++ value
  let count := if 0 < s.count then " *" ++ toString s.count else ""
  title s ++ String.join attributes ++ count

/-- What joins a node to its parent. -/
def connector (isLast : Bool) : String := if isLast then "└─" else "├─"

/-- The column that a node takes up in the lines of its descendants. -/
def column (isLast : Bool) : String := if isLast then "  " else "│ "

mutual
/-- The lines of a node and its descendants, behind the columns of its ancestors. -/
def lines (columns : String) (isLast : Bool) : Snapshot → List String
  | s@⟨kind, _, _, _, children⟩ =>
    (columns ++ connector isLast ++ " " ++ kind.name ++ ": " ++ label s)
      :: siblingLines (columns ++ column isLast) children
/-- The lines of siblings, of which only the last one is drawn as a last child. -/
def siblingLines (columns : String) : List Snapshot → List String
  | [] => []
  | s :: rest => lines columns rest.isEmpty s ++ siblingLines columns rest
end

/-- The outline of what is below the root. -/
def ofSnapshot (s : Snapshot) : String :=
  String.join ((siblingLines "" s.children).map (· ++ "\n"))

def ofTree (t : Tree) : String := ofSnapshot (Snapshot.ofTree t)

end Shorthand.Outline
