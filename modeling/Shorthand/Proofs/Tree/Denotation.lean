import Shorthand.Proofs.Grammar.Derivation
import Shorthand.Proofs.Tree.Zipper

/-! # What a derivation tree denotes

The tree of an abbreviation, read off its derivation tree. An item denotes a node, and an operator
says where the next item goes, seen from the node of the item before. A group is read on its own, in
a fresh scope, and its node holds what was read.

That is not always what is built, since a group that is followed by `>` is entered again and closing
the group around it stops there. `reentries` counts these groups. -/

namespace Shorthand

namespace Zipper

/-- The node at the place and those above it. -/
def nodes (z : Zipper) : List Snapshot := z.node :: z.above

/-- Moves so many times to the parent. -/
def rise (z : Zipper) : Nat → Zipper
  | 0 => z
  | levels + 1 => z.up.rise levels

/-- The number of nodes above, below the innermost scope. -/
def depth (z : Zipper) : Nat := (z.above.takeWhile (!·.isScope)).length

end Zipper

namespace Derivation
open Snapshot (leaf)

/-- The value of an attribute, empty if none is written. -/
def Attr.content (a : Attr) : String := (a.value.map Value.content).getD ""

/-- The attributes of a node with one more. -/
def Attr.assign (m : NameMap String) (a : Attr) : NameMap String :=
  TreeBuilder.joinAttribute m a.name a.content

/-- The attributes of a node with those of a decoration. -/
def Decoration.assign (m : NameMap String) : Decoration → NameMap String
  | id name => TreeBuilder.joinAttribute m "id" name
  | className name => TreeBuilder.joinAttribute m "class" name
  | attrs first others => (first :: others).foldl Attr.assign m

/-- A node that is a text. -/
def textNode (content : String) : Snapshot := { leaf .text with name := content }

/-- The element of a tag; a text behind the tag is its first child. -/
def Tag.node (t : Tag) : Snapshot where
  kind := .element
  name := t.name
  attributes := t.decorations.foldl Decoration.assign .empty
  children := (t.text.map textNode).toList

/-- The node that an element is. -/
def Element.node : Element → Snapshot
  | tag t => t.node
  | text content => textNode content

theorem Element.node_count (e : Element) : e.node.count = 0 := by cases e <;> rfl

/-- The number of copies, zero if none is written. -/
def countValue (count : Option Numeral) : Nat := (count.map Numeral.value).getD 0

/-- Where the next item goes, if the item before is at the place of `z`: the nodes above it. -/
def Operator.next (z : Zipper) : Operator → List Snapshot
  | child => z.nodes
  | sibling => z.up.nodes
  | climb further => (z.rise (min (further + 1) z.depth)).up.nodes

mutual
/-- The node that an item is. What stands in a group is built by itself, and put below its node. -/
def Item.node : Item → Snapshot
  | .element e count => e.node.withCount (countValue count)
  | .group inner count =>
    { leaf .group with
      count := countValue count
      children := (inner.settle [leaf .root]).root.children }
/-- The place of the last item, if the first one goes below the nodes `above`. -/
def Abbreviation.settle : Abbreviation → List Snapshot → Zipper
  | .single i, above => ⟨i.node, above⟩
  | .joined i op rest, above => rest.settle (op.next ⟨i.node, above⟩)
end

/-- The nodes of a whole scope. -/
def Abbreviation.forest (a : Abbreviation) : List Snapshot := (a.settle [leaf .root]).root.children

/-! ### Groups that are entered again -/

def Item.isGroup : Item → Bool
  | .element _ _ => false
  | .group _ _ => true

mutual
/-- The number of groups inside that are directly followed by `>`. -/
def Item.reentries : Item → Nat
  | .element _ _ => 0
  | .group inner _ => inner.reentries
/-- The number of groups, inside others or not, that are directly followed by `>`. -/
def Abbreviation.reentries : Abbreviation → Nat
  | .single i => i.reentries
  | .joined i op rest =>
    i.reentries + (if i.isGroup ∧ op = .child then 1 else 0) + rest.reentries
end

/-- The number of groups inside others that are directly followed by `>`. -/
def Abbreviation.innerReentries : Abbreviation → Nat
  | .single i => i.reentries
  | .joined i _ rest => i.reentries + rest.innerReentries

theorem Abbreviation.innerReentries_le (a : Abbreviation) : a.innerReentries ≤ a.reentries := by
  refine (induction (P := fun _ => True) (Q := fun a => a.innerReentries ≤ a.reentries)
    ?_ ?_ ?_ ?_).2 a
  · exact fun _ _ => trivial
  · exact fun _ _ _ => trivial
  · exact fun _ _ => Nat.le_refl _
  · intro i op rest _ ih
    rw [innerReentries, reentries]
    omega

end Derivation
end Shorthand
