import Shorthand.Tree.Builder
import Shorthand.Tree.Snapshot

/-! # Building with a zipper

A `Zipper` is a tree with a place in it: the node there, with all that is below it, and the nodes
above, the nearest first, each with its children in front of the place. Nothing is behind the place,
since a node is only ever added as a last child. `accept` does to a zipper what the builder does to
its tree, without indices and links. -/

namespace Shorthand

/-- A node in a tree that grows only at its last branch: the node, and its ancestors without the
last child of each, the nearest first. -/
structure Zipper where
  node : Snapshot
  above : List Snapshot

namespace Snapshot

/-- A node that nothing is known about but its kind. -/
def leaf (kind : NodeKind) : Snapshot := { kind, name := "" }

/-- Whether a climb stops at a node. -/
def isScope (s : Snapshot) : Bool := s.kind == .root || s.kind == .group

/-- A node with all that is below it, put back into its place. -/
def plug (s : Snapshot) : List Snapshot → Snapshot
  | [] => s
  | a :: above => plug (a.withChild s) above

end Snapshot

namespace Zipper
open Snapshot (leaf)

/-- The root with one place open below it. -/
def start : Zipper := ⟨leaf .inProgress, [leaf .root]⟩

def root (z : Zipper) : Snapshot := z.node.plug z.above

def change (z : Zipper) (g : Snapshot → Snapshot) : Zipper := { z with node := g z.node }

/-- Adds a last child and moves there. -/
def descend (z : Zipper) (kind : NodeKind) : Zipper := ⟨leaf kind, z.node :: z.above⟩

/-- The node becomes an element, if it is not yet anything. -/
def element (z : Zipper) (name : String) : Zipper :=
  if z.node.kind = .inProgress then z.change ({ · with kind := .element, name }) else z

/-- An attribute comes to the node, unless it is a text or its first child is one. -/
def addAttribute (z : Zipper) (name value : String) : Zipper × Option BuildError :=
  if z.node.kind = .text then (z, some .attributeOfText)
  else
    let z := if z.node.kind = .inProgress then z.change ({ · with kind := .element }) else z
    if z.node.children.head?.any (·.kind == .text) then (z, some .attributeBeforeText)
    else
      (z.change fun s =>
        { s with attributes := TreeBuilder.joinAttribute s.attributes name value }, none)

/-- A text comes to the node: behind its own, in its place, or below it. -/
def text (z : Zipper) (content : String) : Zipper :=
  if z.node.kind = .text then z.change fun s => { s with name := s.name ++ content }
  else if z.node.kind = .inProgress then
    z.change fun s => { s with kind := .text, name := s.name ++ content }
  else z.change (·.withChild { leaf .text with name := content })

/-- Opens a place below the node. -/
def child (z : Zipper) : Zipper × Option BuildError :=
  if z.node.kind = .text then (z, some .childOfText) else (z.descend .inProgress, none)

/-- Moves to the parent, if there is one. -/
def up (z : Zipper) : Zipper :=
  match z.above with
  | [] => z
  | a :: above => ⟨a.withChild z.node, above⟩

def sibling (z : Zipper) : Zipper := z.up.descend .inProgress

/-- Moves `levels` times to the parent, but never out of the innermost scope. -/
def ascend (z : Zipper) : Nat → Zipper
  | 0 => z
  | levels + 1 =>
    match z.above with
    | [] => z
    | a :: _ => if a.isScope then z else z.up.ascend levels

def climb (z : Zipper) (levels : Nat) : Zipper := (z.ascend levels).sibling

/-- The node becomes a group, or gets one below it, and a place is opened in the group. -/
def openGroup (z : Zipper) : Zipper :=
  if z.node.kind = .inProgress then (z.change ({ · with kind := .group })).descend .inProgress
  else (z.descend .group).descend .inProgress

/-- Moves to the parent, unless that is the root. -/
def stepOut (z : Zipper) : Zipper :=
  match z.above with
  | [] => z
  | a :: _ => if a.kind = .root then z else z.up

/-- The innermost group around a node, the node itself included; without a group, the outermost node
below the root. -/
def toGroup (s : Snapshot) : List Snapshot → Zipper
  | [] => ⟨s, []⟩
  | a :: above =>
    if s.kind = .group ∨ a.kind = .root then ⟨s, a :: above⟩ else toGroup (a.withChild s) above

/-- Goes to the innermost group, looked for from the parent of the node on. -/
def closeGroup (z : Zipper) : Zipper := toGroup z.stepOut.node z.stepOut.above

/-- What one event does to the zipper, as `TreeBuilder.accept` does it to the arena. -/
def accept (z : Zipper) : Event → Zipper × Option BuildError
  | .element name => (z.element name, none)
  | .id name => z.addAttribute "id" name
  | .className name => z.addAttribute "class" name
  | .attribute name value => z.addAttribute name value
  | .text content => (z.text content, none)
  | .multiply count => (z.change (·.withCount count), none)
  | .child => z.child
  | .sibling => (z.sibling, none)
  | .climb levels => (z.climb levels, none)
  | .openGroup => (z.openGroup, none)
  | .closeGroup => (z.closeGroup, none)

instance : Builder Zipper := ⟨accept⟩

end Zipper
end Shorthand
