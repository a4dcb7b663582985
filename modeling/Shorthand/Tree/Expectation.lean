import Shorthand.Text.Quoted
import Shorthand.Tree.Snapshot

/-! # Expectations

An `Expectation` says one thing about a node, or several about one of its children. They are looked
at in order, and the first one that a node does not meet is reported with the path to that node.
`Snapshot.description` lists all there is to expect of a snapshot. -/

namespace Shorthand
open Text

/-- What can be expected of a node. -/
inductive Expectation
  /-- The node is an element of this name. -/
  | element (name : String)
  /-- The node is a text with this content. -/
  | text (content : String)
  | group
  | attribute (name value : String)
  | attributeCount (n : Nat)
  /-- The node is written out so many times; zero stands for a node that is not multiplied. -/
  | count (n : Nat)
  | childCount (n : Nat)
  /-- What is expected of the child with this number. -/
  | child (index : Nat) (expectations : List Expectation)

/-- How a node differs from what is expected of it. -/
inductive Difference
  | kind (expected found : NodeKind)
  | element (expected found : String)
  | text (expected found : String)
  | attribute (name expected found : String)
  | noAttribute (name : String) (present : List String)
  | attributeCount (expected : Nat) (present : List String)
  | count (expected found : Nat)
  | childCount (expected : Nat) (present : List (NodeKind × String))
  | noChild (index : Nat) (present : List (NodeKind × String))
deriving DecidableEq, Repr

/-- A difference and the numbers of the children that lead to it. -/
structure Mismatch where
  path : List Nat
  difference : Difference
deriving DecidableEq, Repr

namespace Difference

def bracketed (names : List String) : String := "[" ++ ", ".intercalate names ++ "]"

/-- A list of nodes as messages show it. -/
def summary (nodes : List (NodeKind × String)) : String :=
  bracketed (nodes.map fun n => n.1.name ++ "(" ++ n.2 ++ ")")

/-- What differs, in words. -/
def message : Difference → String
  | .kind expected found => "Expected " ++ expected.name ++ ", found " ++ found.name
  | .element expected found => "Expected element <" ++ expected ++ ">, found <" ++ found ++ ">"
  | .text expected found => "Expected text " ++ quote expected ++ ", found " ++ quote found
  | .attribute name expected found =>
    "Expected " ++ name ++ "=" ++ quote expected ++ ", found " ++ name ++ "=" ++ quote found
  | .noAttribute name present =>
    "Expected attribute " ++ name ++ ", found only " ++ bracketed present
  | .attributeCount expected present =>
    "Expected " ++ toString expected ++ " attributes, found " ++ toString present.length ++ " " ++
      bracketed present
  | .count expected found =>
    "Expected repeat " ++ toString expected ++ ", found " ++ toString found
  | .childCount expected present =>
    "Expected " ++ toString expected ++ " children, found " ++ toString present.length ++ " " ++
      summary present
  | .noChild index present =>
    "Child index " ++ toString index ++ " out of bounds (node has " ++ summary present ++ ")"

end Difference

namespace Mismatch

/-- A mismatch at a child, seen from its parent. -/
def below (index : Nat) (m : Mismatch) : Mismatch := { m with path := index :: m.path }

/-- Which node is meant: the numbers of the children on the way to it. -/
def context (path : List Nat) : String :=
  "children" ++ String.join (path.map fun i => "[" ++ toString i ++ "]")

/-- What differs and where. -/
def message (m : Mismatch) : String := context m.path ++ ": " ++ m.difference.message

end Mismatch

namespace Snapshot

/-- The difference, if the two values differ. -/
def differ {α : Type} [DecidableEq α] (expected found : α) (difference : Difference) :
    Option Mismatch :=
  if found = expected then none else some ⟨[], difference⟩

/-- What is wrong with the kind of the node, if anything is. -/
def kindMismatch? (s : Snapshot) (expected : NodeKind) : Option Mismatch :=
  differ expected s.kind (.kind expected s.kind)

/-- What messages show of the children. -/
def childSummaries (s : Snapshot) : List (NodeKind × String) :=
  s.children.map fun c => (c.kind, c.name)

mutual
/-- Where a node does not meet an expectation. -/
def mismatch? (s : Snapshot) : Expectation → Option Mismatch
  | .element name =>
    (s.kindMismatch? .element).or (differ name s.name (.element name s.name))
  | .text content =>
    (s.kindMismatch? .text).or (differ content s.name (.text content s.name))
  | .group => s.kindMismatch? .group
  | .attribute name value =>
    match s.attributes.find? name with
    | some found => differ value found (.attribute name value found)
    | none => some ⟨[], .noAttribute name s.attributes.names⟩
  | .attributeCount n =>
    differ n s.attributes.names.length (.attributeCount n s.attributes.names)
  | .count n => differ n s.count (.count n s.count)
  | .childCount n => differ n s.childSummaries.length (.childCount n s.childSummaries)
  | .child i expectations =>
    match s.children[i]? with
    | some c => (c.firstMismatch? expectations).map (·.below i)
    | none => some ⟨[], .noChild i s.childSummaries⟩
/-- Where a node does not meet the first of the expectations that it does not meet. -/
def firstMismatch? (s : Snapshot) : List Expectation → Option Mismatch
  | [] => none
  | e :: es => (s.mismatch? e).or (s.firstMismatch? es)
end

/-- What a kind and a name let one expect. -/
def kindExpectation : NodeKind → String → List Expectation
  | .element, name => [.element name]
  | .text, content => [.text content]
  | .group, _ => [.group]
  | .root, _ | .inProgress, _ => []

mutual
/-- All there is to expect of a node. -/
def description : Snapshot → List Expectation
  | ⟨kind, name, attributes, count, children⟩ =>
    kindExpectation kind name ++ [.attributeCount attributes.size] ++
      attributes.entries.map (fun (k, v) => .attribute k v) ++
      [.count count, .childCount children.length] ++ describeFrom 0 children
/-- All there is to expect of children, the first of which has the given number. -/
def describeFrom (index : Nat) : List Snapshot → List Expectation
  | [] => []
  | c :: cs => .child index c.description :: describeFrom (index + 1) cs
end

/-- All there is to expect below a node. -/
def childDescription (s : Snapshot) : List Expectation :=
  .childCount s.children.length :: describeFrom 0 s.children

end Snapshot

/-- Where a tree does not meet expectations on its root. -/
def Tree.firstMismatch? (t : Tree) (expectations : List Expectation) : Option Mismatch :=
  (Snapshot.ofTree t).firstMismatch? expectations

end Shorthand
