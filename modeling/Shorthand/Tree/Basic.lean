import Shorthand.NameMap

/-! # Trees

A `Tree` keeps its nodes in one array, in the order in which they were made, and links them by their
indices: every node to its parent, its first and last child and its two neighbours among the
children of its parent. Node 0 is the root. `append` is the only operation that makes a node. -/

namespace Shorthand

/-- What a node is. -/
inductive NodeKind
  | root
  /-- A place that was opened for a node. -/
  | inProgress
  | element
  | text
  | group
deriving DecidableEq, Repr

namespace NodeKind

/-- How outlines and messages name a kind. -/
def name : NodeKind → String
  | root => "Root"
  | inProgress => "InProgress"
  | element => "Element"
  | text => "Text"
  | group => "Group"

def all : List NodeKind := [root, inProgress, element, text, group]

end NodeKind

/-- A node and the places of the nodes around it. -/
structure Node where
  kind : NodeKind
  /-- The tag name of an element, the content of a text. -/
  name : String := ""
  attributes : NameMap String := .empty
  /-- How many times the node is written out; zero for a node that is not multiplied. -/
  count : Nat := 0
  parent : Option Nat := none
  firstChild : Option Nat := none
  lastChild : Option Nat := none
  prevSibling : Option Nat := none
  nextSibling : Option Nat := none
deriving DecidableEq

/-- All nodes in the order in which they were made. Links are indices into the array. -/
structure Tree where
  nodes : Array Node
deriving DecidableEq

namespace Tree

/-- The tree that has nothing but its root. -/
def empty : Tree := ⟨#[{ kind := .root }]⟩

instance : Inhabited Tree := ⟨empty⟩

def root : Nat := 0

def size (t : Tree) : Nat := t.nodes.size

def node? (t : Tree) (i : Nat) : Option Node := t.nodes[i]?

def modify (t : Tree) (i : Nat) (f : Node → Node) : Tree := ⟨t.nodes.modify i f⟩

/-- Makes a node and links it as the last child of `parent`. Its index is the former size. -/
def append (t : Tree) (parent : Nat) (kind : NodeKind) : Tree :=
  let i := t.size
  let last := (t.node? parent).bind (·.lastChild)
  let added : Tree := ⟨t.nodes.push { kind, parent := some parent, prevSibling := last }⟩
  let linked := match last with
    | some sibling => added.modify sibling ({ · with nextSibling := some i })
    | none => added.modify parent ({ · with firstChild := some i })
  linked.modify parent ({ · with lastChild := some i })

def kind? (t : Tree) (i : Nat) : Option NodeKind := (t.node? i).map (·.kind)

def parent? (t : Tree) (i : Nat) : Option Nat := (t.node? i).bind (·.parent)

def firstChild? (t : Tree) (i : Nat) : Option Nat := (t.node? i).bind (·.firstChild)

def nextSibling? (t : Tree) (i : Nat) : Option Nat := (t.node? i).bind (·.nextSibling)

/-- At most `bound` nodes along the links to the next sibling, from the given one on. -/
def siblingsFrom (t : Tree) : Nat → Option Nat → List Nat
  | 0, _ => []
  | _, none => []
  | bound + 1, some i => i :: t.siblingsFrom bound (t.nextSibling? i)

/-- The children of node `i` in the order in which they were appended. -/
def children (t : Tree) (i : Nat) : List Nat := t.siblingsFrom t.size (t.firstChild? i)

/-- Whether there is a node below the one at a place. -/
def hasChildren (t : Tree) (i : Nat) : Bool := (t.firstChild? i).isSome

/-- The node that a path of child numbers leads to from node `i`. -/
def descend (t : Tree) : Nat → List Nat → Option Nat
  | i, [] => some i
  | i, k :: path => ((t.children i)[k]?).bind (t.descend · path)

/-- The node that a path of child numbers leads to from the root. -/
def atPath (t : Tree) (path : List Nat) : Option Nat := t.descend root path

@[simp] theorem size_modify (t : Tree) (i : Nat) (f : Node → Node) :
    (t.modify i f).size = t.size := by
  simp [modify, size]

@[simp] theorem size_append (t : Tree) (parent : Nat) (kind : NodeKind) :
    (t.append parent kind).size = t.size + 1 := by
  simp only [append]
  split <;> simp [size, modify]

theorem node?_modify (t : Tree) (i j : Nat) (f : Node → Node) :
    (t.modify i f).node? j = if i = j then (t.node? j).map f else t.node? j := by
  simp only [node?, modify, Array.getElem?_modify]

end Tree
end Shorthand
