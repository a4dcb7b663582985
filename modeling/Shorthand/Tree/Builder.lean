import Shorthand.Event
import Shorthand.Grammar.Parser
import Shorthand.Tree.Basic

/-! # Building a tree from events

A `TreeBuilder` stands on one node of the tree, the current one. Every operator appends a node in
progress at the place that it names and moves there; what comes next decides what that node is. -/

namespace Shorthand

/-- A tree under construction. -/
structure TreeBuilder where
  tree : Tree
  /-- The node that the next event is about. -/
  current : Nat
deriving DecidableEq

namespace TreeBuilder

/-- The root with one place open below it. -/
def start : TreeBuilder := ⟨Tree.empty.append Tree.root .inProgress, 1⟩

instance : Inhabited TreeBuilder := ⟨start⟩

/-- Whether node `i` is of the given kind. -/
def isKind (b : TreeBuilder) (i : Nat) (kind : NodeKind) : Bool := b.tree.kind? i == some kind

def modifyCurrent (b : TreeBuilder) (f : Node → Node) : TreeBuilder :=
  { b with tree := b.tree.modify b.current f }

/-- Appends a node in progress below `parent` and moves there. -/
def openPlace (b : TreeBuilder) (parent : Nat) : TreeBuilder :=
  ⟨b.tree.append parent .inProgress, b.tree.size⟩

/-- Names the current node, if it is still in progress. -/
def element (b : TreeBuilder) (name : String) : TreeBuilder :=
  if b.isKind b.current .inProgress then
    b.modifyCurrent ({ · with kind := .element, name })
  else b

/-- The attributes after `value` is given for `name`; a second value is joined to the first. -/
def joinAttribute (attributes : NameMap String) (name value : String) : NameMap String :=
  attributes.insert name <| match attributes.find? name with
    | some former => former ++ " " ++ value
    | none => value

/-- Gives the current node an attribute. A node in progress becomes an element by that. -/
def addAttribute (b : TreeBuilder) (name value : String) : TreeBuilder × Option BuildError :=
  if b.isKind b.current .text then (b, some .attributeOfText)
  else
    let b := if b.isKind b.current .inProgress then b.modifyCurrent ({ · with kind := .element })
      else b
    if (b.tree.firstChild? b.current).any (b.isKind · .text) then
      (b, some .attributeBeforeText)
    else
      (b.modifyCurrent fun n =>
        { n with attributes := joinAttribute n.attributes name value }, none)

/-- Continues the current text, makes the node in progress a text, or appends one. -/
def text (b : TreeBuilder) (content : String) : TreeBuilder :=
  if b.isKind b.current .text then
    b.modifyCurrent fun n => { n with name := n.name ++ content }
  else if b.isKind b.current .inProgress then
    b.modifyCurrent fun n => { n with kind := .text, name := n.name ++ content }
  else
    { b with
      tree := (b.tree.append b.current .text).modify b.tree.size ({ · with name := content }) }

/-- Opens a place below the current node, unless that is a text. -/
def child (b : TreeBuilder) : TreeBuilder × Option BuildError :=
  if b.isKind b.current .text then (b, some .childOfText)
  else (b.openPlace b.current, none)

/-- Opens a place beside the current node; beside the root is below it. -/
def sibling (b : TreeBuilder) : TreeBuilder :=
  b.openPlace ((b.tree.parent? b.current).getD Tree.root)

/-- Whether node `i` closes a scope: the root or a group. -/
def isScope (b : TreeBuilder) (i : Nat) : Bool := b.isKind i .root || b.isKind i .group

/-- Moves `levels` times to the parent, but never out of the innermost scope. -/
def ascend (b : TreeBuilder) : Nat → TreeBuilder
  | 0 => b
  | levels + 1 =>
    match b.tree.parent? b.current with
    | some parent => if b.isScope parent then b else ascend { b with current := parent } levels
    | none => b

/-- Opens a place beside an ancestor of the current node. -/
def climb (b : TreeBuilder) (levels : Nat) : TreeBuilder := (b.ascend levels).sibling

/-- Makes the node in progress a group, or appends one, and opens a place in it. -/
def openGroup (b : TreeBuilder) : TreeBuilder :=
  if b.isKind b.current .inProgress then
    (b.modifyCurrent ({ · with kind := .group })).openPlace b.current
  else
    { b with tree := b.tree.append b.current .group }.openPlace b.tree.size

/-- Moves to the parent, unless that is the root. -/
def stepOut (b : TreeBuilder) : TreeBuilder :=
  match b.tree.parent? b.current with
  | some parent => if b.isKind parent .root then b else { b with current := parent }
  | none => b

/-- Moves on to the innermost group around the current node, the node itself included; without a
group, to the outermost node below the root. At most `bound` steps are made. -/
def stepToGroup (b : TreeBuilder) : Nat → TreeBuilder
  | 0 => b
  | bound + 1 => if b.isKind b.current .group then b else stepToGroup b.stepOut bound

/-- Steps out of the last item of a group and on to the group. -/
def closeGroup (b : TreeBuilder) : TreeBuilder := b.stepOut.stepToGroup b.tree.size

/-- What one event does to the tree, and whether it is refused. A refused event may leave its
traces. -/
def accept (b : TreeBuilder) : Event → TreeBuilder × Option BuildError
  | .element name => (b.element name, none)
  | .id name => b.addAttribute "id" name
  | .className name => b.addAttribute "class" name
  | .attribute name value => b.addAttribute name value
  | .text content => (b.text content, none)
  | .multiply count => (b.modifyCurrent ({ · with count }), none)
  | .child => b.child
  | .sibling => (b.sibling, none)
  | .climb levels => (b.climb levels, none)
  | .openGroup => (b.openGroup, none)
  | .closeGroup => (b.closeGroup, none)

instance : Builder TreeBuilder := ⟨accept⟩

/-- The tree, if no node is in progress any more. -/
def finish (b : TreeBuilder) : Except BuildError Tree :=
  if b.tree.nodes.any (·.kind == .inProgress) then .error .unresolved else .ok b.tree

end TreeBuilder

/-- The tree of a text, if the parser accepts the text and the builder what it is told. -/
def parseTree (source : String) : Except ParseError Tree :=
  match parse source TreeBuilder.start with
  | .error e _ => .error e
  | .ok _ session => session.builder.finish.mapError .build

end Shorthand
